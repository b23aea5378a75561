import Casm.Lib.Path

namespace GoPath

/-- Segments with slashes between them. -/
def text (segments : List Segment) : List UInt8 :=
  [slash].intercalate segments

/-- Where a relative path leads: some steps up, and then down along names. -/
structure Relative where
  ups : Nat
  names : List Segment
  deriving DecidableEq

def Relative.push (r : Relative) (segment : Segment) : Relative :=
  if segment = [] ∨ segment = [dot] then r
  else if segment = [dot, dot] then
    if r.names = [] then { r with ups := r.ups + 1 } else { r with names := r.names.dropLast }
  else { r with names := r.names ++ [segment] }

def relative (segments : List Segment) : Relative :=
  segments.foldl Relative.push ⟨0, []⟩

/-- The components of `path.Clean(s)`. Only a path that is not rooted can start
with steps up. -/
def components (s : List UInt8) : List Segment :=
  if s.head? = some slash then (relative (split s)).names
  else List.replicate (relative (split s)).ups [dot, dot] ++ (relative (split s)).names

/-- `path.Clean`. -/
def cleanText (s : List UInt8) : List UInt8 :=
  if s.head? = some slash then slash :: text (components s)
  else if components s = [] then [dot]
  else text (components s)

/-- `path.Join`. -/
def joinText (elems : List (List UInt8)) : List UInt8 :=
  if elems.filter (· ≠ []) = [] then [] else cleanText (text (elems.filter (· ≠ [])))

/-- `strings.TrimLeft(s, "/.")`. -/
def trimLeft (s : List UInt8) : List UInt8 :=
  s.dropWhile fun b => b = slash ∨ b = dot

/-- What trimming leaves of a path: it skips the segments that are dots only and
takes the dots off the first other one. -/
def undot : List Segment → List Segment
  | [] => []
  | s :: rest => if s.dropWhile (· = dot) = [] then undot rest else s.dropWhile (· = dot) :: rest

theorem text_cons_cons (s s' : Segment) (rest : List Segment) :
    text (s :: s' :: rest) = s ++ slash :: text (s' :: rest) := by
  simp [text]

theorem text_singleton (s : Segment) : text [s] = s := by
  simp [text]

theorem text_append_cons (s s' : Segment) (rest : List Segment) :
    text ((s ++ s') :: rest) = s ++ text (s' :: rest) := by
  cases rest with
  | nil => rw [text_singleton, text_singleton]
  | cons t rest => rw [text_cons_cons, text_cons_cons, List.append_assoc]

theorem split_text {segments : List Segment} (noSlash : ∀ s ∈ segments, slash ∉ s) (nonempty : segments ≠ []) :
    split (text segments) = segments :=
  List.splitOn_intercalate slash noSlash nonempty

theorem split_noSlash {s : List UInt8} {segment : Segment} (member : segment ∈ split s) : slash ∉ segment := by
  induction s generalizing segment with
  | nil =>
    simp only [split, List.splitOn_nil, List.mem_singleton] at member
    simp [member]
  | cons b rest ih =>
    simp only [split, List.splitOn_cons_eq_if_modifyHead] at member
    split at member
    · rcases List.mem_cons.mp member with isEmpty | inside
      · simp [isEmpty]
      · exact ih inside
    · rename_i other
      obtain ⟨first, others, whole⟩ := List.exists_cons_of_ne_nil (List.splitOn_ne_nil slash rest)
      rw [whole, List.modifyHead_cons] at member
      rcases List.mem_cons.mp member with isFirst | inside
      · have inSplit : first ∈ split rest := by simp [split, whole]
        have notSlash : ¬ slash = b := fun same => other (by simp [same])
        simp [isFirst, ih inSplit, notSlash]
      · exact ih (by simp [split, whole, inside])

theorem split_slash (s : List UInt8) : split (slash :: s) = [] :: split s := by
  rw [split, List.splitOn_cons_eq_if_modifyHead, if_pos (beq_self_eq_true slash), split]

theorem modifyHead_nil_append (segments : List Segment) : segments.modifyHead ([] ++ ·) = segments := by
  cases segments with
  | nil => rfl
  | cons s rest => rfl

/-- Text without a slash belongs to the first segment of what follows. -/
theorem split_append {s : List UInt8} (noSlash : slash ∉ s) (t : List UInt8) :
    split (s ++ t) = (split t).modifyHead (s ++ ·) := by
  induction s with
  | nil => rw [List.nil_append, modifyHead_nil_append]
  | cons b s ih =>
    rw [List.mem_cons, not_or] at noSlash
    have other : ¬ (b == slash) = true := fun same => noSlash.1 (beq_iff_eq.mp same).symm
    rw [split] at ih
    rw [List.cons_append, split, List.splitOn_cons_eq_if_modifyHead, if_neg other, ih noSlash.2, List.modifyHead_modifyHead]
    rfl

section Clean

variable {segments : List Segment}

theorem relative_concat (segments : List Segment) (s : Segment) :
    relative (segments ++ [s]) = (relative segments).push s := by
  rw [relative, List.foldl_concat, relative]

/-- Below any path, a relative path leads to the place it says. -/
theorem foldl_push_relative (base segments : List Segment) :
    segments.foldl push base = base.take (base.length - (relative segments).ups) ++ (relative segments).names := by
  induction segments using List.reverseRecOn with
  | nil => simp [relative]
  | append_singleton segments s ih =>
    rw [List.foldl_concat, ih, relative_concat, push, Relative.push]
    split
    · rfl
    · split
      · split
        · rename_i atTop
          rw [atTop, List.append_nil, List.append_nil, List.dropLast_eq_take, List.length_take, List.take_take]
          have shorter : min (min (base.length - (relative segments).ups) base.length - 1)
              (base.length - (relative segments).ups) = base.length - ((relative segments).ups + 1) := by
            omega
          rw [shorter]
        · rename_i below
          rw [List.dropLast_append_of_ne_nil below]
      · rw [List.append_assoc]

theorem relative_names (segments : List Segment) : (relative segments).names = clean segments := by
  rw [clean, foldl_push_relative, List.take_nil, List.nil_append]

theorem relative_of_names (names : ∀ s ∈ segments, IsName s) : relative segments = ⟨0, segments⟩ := by
  induction segments using List.reverseRecOn with
  | nil => rfl
  | append_singleton segments s ih =>
    obtain ⟨front, last⟩ := List.forall_mem_append.mp names
    have name := last s (List.mem_singleton_self s)
    rw [relative_concat, ih front, Relative.push, if_neg (not_or.mpr ⟨name.nonempty, name.notDot⟩),
      if_neg name.notDots]

/-- A path without steps up goes down along its names. -/
theorem relative_ups (descends : ∀ s ∈ segments, s ≠ [dot, dot]) : (relative segments).ups = 0 := by
  induction segments using List.reverseRecOn with
  | nil => rfl
  | append_singleton segments s ih =>
    obtain ⟨front, last⟩ := List.forall_mem_append.mp descends
    rw [relative_concat, Relative.push, if_neg (last s (List.mem_singleton_self s))]
    split
    · exact ih front
    · exact ih front

theorem clean_cons_of_descends {s : Segment} (name : IsName s) (descends : ∀ s' ∈ segments, s' ≠ [dot, dot]) :
    clean (s :: segments) = s :: clean segments := by
  have start : clean (s :: segments) = segments.foldl push [s] := by
    rw [clean, List.foldl_cons, push_name name, List.nil_append]
  rw [start, foldl_push_relative, relative_ups descends, relative_names]
  rfl

theorem mem_clean {s : Segment} (member : s ∈ clean segments) :
    s ∈ segments ∧ s ≠ [] ∧ s ≠ [dot] ∧ s ≠ [dot, dot] := by
  unfold clean at member
  induction segments using List.reverseRecOn with
  | nil => cases member
  | append_singleton segments last ih =>
    have earlier : s ∈ segments.foldl push [] →
        s ∈ segments ++ [last] ∧ s ≠ [] ∧ s ≠ [dot] ∧ s ≠ [dot, dot] :=
      fun inside => ⟨List.mem_append_left _ (ih inside).1, (ih inside).2⟩
    rw [List.foldl_concat, push] at member
    split at member
    · exact earlier member
    · rename_i something
      split at member
      · exact earlier (List.mem_of_mem_dropLast member)
      · rename_i notDots
        rcases List.mem_append.mp member with inside | isLast
        · exact earlier inside
        · rw [List.mem_singleton] at isLast
          rw [not_or] at something
          subst isLast
          exact ⟨List.mem_append_right _ (List.mem_singleton_self s), something.1, something.2, notDots⟩

theorem rooted_isName {s : List UInt8} {segment : Segment} (member : segment ∈ rooted s) : IsName segment := by
  obtain ⟨inSplit, nonempty, notDot, notDots⟩ := mem_clean member
  exact ⟨nonempty, notDot, notDots, split_noSlash inSplit⟩

theorem components_noSlash (s : List UInt8) : ∀ segment ∈ components s, slash ∉ segment := by
  intro segment member
  unfold components at member
  rw [relative_names] at member
  split at member
  · exact (rooted_isName member).noSlash
  · rcases List.mem_append.mp member with isUp | inside
    · rw [List.eq_of_mem_replicate isUp]
      decide
    · exact (rooted_isName inside).noSlash

theorem rooted_slash (s : List UInt8) : rooted (slash :: s) = rooted s := by
  rw [rooted, split_slash]
  rfl

/-- Steps up lead nowhere from the root. -/
theorem clean_replicate (n : Nat) (segments : List Segment) :
    clean (List.replicate n [dot, dot] ++ segments) = clean segments := by
  induction n with
  | zero => rfl
  | succ n ih =>
    rw [List.replicate_succ, List.cons_append]
    exact ih

theorem clean_of_names (names : ∀ s ∈ segments, IsName s) : clean segments = segments := by
  rw [clean, foldl_push_names names, List.nil_append]

theorem rooted_components (s : List UInt8) : clean (components s) = rooted s := by
  have names : clean (rooted s) = rooted s := clean_of_names fun _ member => rooted_isName member
  unfold components
  rw [relative_names]
  split
  · exact names
  · exact (clean_replicate _ _).trans names

theorem rooted_text_components (s : List UInt8) : rooted (text (components s)) = rooted s := by
  by_cases isEmpty : components s = []
  · rw [← rooted_components s, isEmpty]
    rfl
  · rw [rooted, split_text (components_noSlash s) isEmpty, rooted_components]

/-- A path and its clean form lead to the same place below the root. -/
theorem rooted_cleanText (s : List UInt8) : rooted (cleanText s) = rooted s := by
  unfold cleanText
  split
  · rw [rooted_slash, rooted_text_components]
  · split
    · rename_i isEmpty
      rw [← rooted_components s, isEmpty]
      rfl
    · exact rooted_text_components s

theorem cleanText_slash (s : List UInt8) : cleanText (slash :: s) = slash :: text (rooted s) := by
  rw [cleanText, if_pos (List.head?_cons ..), components, if_pos (List.head?_cons ..), relative_names, ← rooted_slash s]
  rfl

/-- Empty segments say nothing. -/
theorem relative_nonempty (segments : List Segment) : relative (segments.filter (· ≠ [])) = relative segments := by
  rw [relative, relative, List.foldl_filter]
  congr 1
  funext r s
  by_cases isEmpty : s = []
  · rw [isEmpty]
    rfl
  · exact if_pos (decide_eq_true isEmpty)

theorem clean_nonempty (segments : List Segment) : clean (segments.filter (· ≠ [])) = clean segments := by
  rw [← relative_names, relative_nonempty, relative_names]

/-- A relative path never has more segments than it was made of. -/
theorem relative_length (segments : List Segment) :
    (relative segments).ups + (relative segments).names.length ≤ segments.length := by
  induction segments using List.reverseRecOn with
  | nil => exact le_rfl
  | append_singleton segments s ih =>
    rw [relative_concat, Relative.push, List.length_append, List.length_singleton]
    split
    · omega
    · split
      · split
        · dsimp only
          omega
        · dsimp only
          rw [List.length_dropLast]
          omega
      · dsimp only
        rw [List.length_append, List.length_singleton]
        omega

theorem components_length (s : List UInt8) :
    (components s).length ≤ (relative (split s)).ups + (relative (split s)).names.length := by
  unfold components
  split
  · omega
  · rw [List.length_append, List.length_replicate]

end Clean

section Trim

theorem undot_replicate (n : Nat) (rest : List Segment) :
    undot (List.replicate n [dot, dot] ++ rest) = undot rest := by
  induction n with
  | zero => rfl
  | succ n ih =>
    rw [List.replicate_succ, List.cons_append]
    exact ih

theorem undot_components (s : List UInt8) : undot (components s) = undot (rooted s) := by
  unfold components
  rw [relative_names]
  split
  · rfl
  · exact undot_replicate ..

/-- A segment has no slash, so only its dots are trimmed. -/
theorem trimLeft_append {s : Segment} (noSlash : slash ∉ s) (rest : List UInt8) :
    trimLeft (s ++ rest) = if s.dropWhile (· = dot) = [] then trimLeft rest else s.dropWhile (· = dot) ++ rest := by
  induction s with
  | nil => rfl
  | cons b s ih =>
    rw [List.mem_cons, not_or] at noSlash
    by_cases isDot : b = dot
    · simp only [trimLeft, List.cons_append, List.dropWhile_cons, isDot, or_true, decide_true, if_true]
      exact ih noSlash.2
    · have notSlash : ¬ b = slash := fun same => noSlash.1 same.symm
      simp [trimLeft, isDot, notSlash]

theorem trimLeft_text {segments : List Segment} (noSlash : ∀ s ∈ segments, slash ∉ s) :
    trimLeft (text segments) = text (undot segments) := by
  induction segments with
  | nil => rfl
  | cons s rest ih =>
    obtain ⟨first, others⟩ := List.forall_mem_cons.mp noSlash
    cases rest with
    | nil =>
      have alone := trimLeft_append first []
      rw [List.append_nil, List.append_nil] at alone
      rw [text_singleton, alone, undot]
      split
      · rfl
      · exact (text_singleton _).symm
    | cons s' rest =>
      rw [text_cons_cons, trimLeft_append first, undot]
      split
      · exact ih others
      · exact (text_cons_cons ..).symm

/-- Trimming a clean path undoes the difference between rooted paths and others. -/
theorem trimLeft_cleanText (s : List UInt8) : trimLeft (cleanText s) = text (undot (rooted s)) := by
  rw [← undot_components, ← trimLeft_text (components_noSlash s)]
  unfold cleanText
  split
  · rfl
  · split
    · rename_i isEmpty
      rw [isEmpty]
      rfl
    · rfl

theorem dropWhile_dot {s : Segment} (something : s.dropWhile (· = dot) ≠ []) :
    ∃ b rest, s.dropWhile (· = dot) = b :: rest ∧ b ≠ dot := by
  refine ⟨_, _, (List.cons_head_tail something).symm, ?_⟩
  have first := List.head_dropWhile_not (· = dot) something
  simpa using first

theorem undot_isName {segments : List Segment} (names : ∀ s ∈ segments, IsName s) :
    ∀ s ∈ undot segments, IsName s := by
  induction segments with
  | nil => exact names
  | cons s rest ih =>
    obtain ⟨first, others⟩ := List.forall_mem_cons.mp names
    rw [undot]
    split
    · exact ih others
    · rename_i something
      refine List.forall_mem_cons.mpr ⟨?_, others⟩
      obtain ⟨b, t, equal, notDot⟩ := dropWhile_dot something
      have noSlash : slash ∉ s.dropWhile (· = dot) :=
        fun member => first.noSlash ((List.dropWhile_suffix _).subset member)
      rw [equal] at noSlash ⊢
      exact ⟨List.cons_ne_nil _ _, by simp [notDot], by simp [notDot], noSlash⟩

/-- The rest of a clean path after something was cut off its first segment. -/
theorem undot_rooted_text {s : Segment} {rest : List Segment} (noSlash : slash ∉ s)
    (names : ∀ s ∈ rest, IsName s) : undot (rooted (text (s :: rest))) = undot (s :: rest) := by
  have allNoSlash : ∀ s' ∈ s :: rest, slash ∉ s' :=
    List.forall_mem_cons.mpr ⟨noSlash, fun s' member => (names s' member).noSlash⟩
  rw [rooted, split_text allNoSlash (List.cons_ne_nil _ _), clean, List.foldl_cons, foldl_push_names names, push]
  split
  · rename_i nothing
    rcases nothing with isEmpty | isDot
    · subst isEmpty
      rfl
    · subst isDot
      rfl
  · split
    · rename_i isDots
      subst isDots
      rfl
    · rfl

theorem mem_of_undot_eq {s first : Segment} {rest tail : List Segment} (shape : undot (s :: rest) = first :: tail)
    {segment : Segment} (member : segment ∈ tail) : segment ∈ rest := by
  induction rest generalizing s with
  | nil =>
    rw [undot] at shape
    split at shape
    · cases shape
    · rw [← (List.cons.inj shape).2] at member
      exact member
  | cons s' rest ih =>
    rw [undot] at shape
    split at shape
    · exact List.mem_cons_of_mem s' (ih shape)
    · rw [← (List.cons.inj shape).2] at member
      exact member

theorem ne_nil_of_undot_eq {segments rest : List Segment} {first : Segment} (shape : undot segments = first :: rest) :
    first ≠ [] := by
  induction segments with
  | nil => cases shape
  | cons s segments ih =>
    rw [undot] at shape
    split at shape
    · exact ih shape
    · rename_i something
      exact (List.cons.inj shape).1 ▸ something

theorem undot_cons_of_ne_dot {b : UInt8} (notDot : b ≠ dot) (s : Segment) (rest : List Segment) :
    undot ((b :: s) :: rest) = (b :: s) :: rest := by
  have untouched : (b :: s).dropWhile (· = dot) = b :: s := by simp [notDot]
  rw [undot, untouched, if_neg (List.cons_ne_nil _ _)]

theorem undot_undot (segments : List Segment) : undot (undot segments) = undot segments := by
  induction segments with
  | nil => rfl
  | cons s rest ih =>
    rw [undot]
    split
    · exact ih
    · rename_i something
      obtain ⟨b, t, equal, notDot⟩ := dropWhile_dot something
      rw [equal, undot_cons_of_ne_dot notDot]

theorem undot_eq_nil_iff {segments : List Segment} :
    undot segments = [] ↔ ∀ s ∈ segments, ∀ b ∈ s, b = dot := by
  induction segments with
  | nil => simp [undot]
  | cons s rest ih =>
    rw [undot, List.forall_mem_cons, ← ih]
    have onlyDots : s.dropWhile (· = dot) = [] ↔ ∀ b ∈ s, b = dot := by
      simp [List.dropWhile_eq_nil_iff]
    rw [← onlyDots]
    split
    · rename_i nothing
      simp [nothing]
    · rename_i something
      simp [something]

/-- What trimming leaves of a path, as segments. -/
def fields (s : List UInt8) : List Segment :=
  undot (rooted s)

theorem fields_isName (s : List UInt8) : ∀ segment ∈ fields s, IsName segment :=
  undot_isName fun _ member => rooted_isName member

theorem fields_text {segments : List Segment} (names : ∀ s ∈ segments, IsName s) :
    fields (text segments) = undot segments := by
  cases segments with
  | nil => rfl
  | cons s rest =>
    obtain ⟨first, others⟩ := List.forall_mem_cons.mp names
    exact undot_rooted_text first.noSlash others

/-- Only a step up tells the components from those of the rooted path. -/
theorem components_eq_rooted {s : List UInt8} {first : Segment} {rest : List Segment}
    (shape : components s = first :: rest) (down : first ≠ [dot, dot]) : components s = rooted s := by
  unfold components at shape ⊢
  rw [relative_names] at shape ⊢
  split
  · rfl
  · rename_i notRooted
    rw [if_neg notRooted] at shape
    cases ups : (relative (split s)).ups with
    | zero => rfl
    | succ n =>
      rw [ups, List.replicate_succ, List.cons_append] at shape
      exact absurd (List.cons.inj shape).1.symm down

theorem components_rooted_text {segments : List Segment} (names : ∀ s ∈ segments, IsName s) :
    components (slash :: text segments) = segments := by
  cases segments with
  | nil => rfl
  | cons s rest =>
    have whole : slash :: text (s :: rest) = text ([] :: s :: rest) := (text_cons_cons [] s rest).symm
    rw [components, if_pos (List.head?_cons ..), relative_names, whole]
    exact rooted_names names

end Trim

section Join

theorem split_text_flatMap {elems : List (List UInt8)} (nonempty : elems ≠ []) :
    split (text elems) = elems.flatMap split := by
  induction elems with
  | nil => exact absurd rfl nonempty
  | cons e rest ih =>
    cases rest with
    | nil => rw [text_singleton, List.flatMap_cons, List.flatMap_nil, List.append_nil]
    | cons e' rest =>
      rw [text_cons_cons, split, List.splitOn_append_cons_self, List.flatMap_cons, ← ih (List.cons_ne_nil _ _)]
      rfl

theorem flatMap_split_of_names {elems : List (List UInt8)} (names : ∀ e ∈ elems, IsName e) :
    elems.flatMap split = elems := by
  induction elems with
  | nil => rfl
  | cons e rest ih =>
    obtain ⟨first, others⟩ := List.forall_mem_cons.mp names
    rw [List.flatMap_cons, ih others, split, List.splitOn_eq_singleton first.noSlash, List.singleton_append]

/-- Empty elements of a join change nothing. -/
theorem foldl_push_nonempty (base : List Segment) (elems : List (List UInt8)) :
    ((elems.filter (· ≠ [])).flatMap split).foldl push base = (elems.flatMap split).foldl push base := by
  induction elems generalizing base with
  | nil => rfl
  | cons e rest ih =>
    rw [List.flatMap_cons, List.foldl_append]
    by_cases isEmpty : e = []
    · subst isEmpty
      exact ih base
    · have kept : (e :: rest).filter (· ≠ []) = e :: rest.filter (· ≠ []) :=
        List.filter_cons_of_pos (decide_eq_true isEmpty)
      rw [kept, List.flatMap_cons, List.foldl_append]
      exact ih _

/-- Below a path, the join leads where the relative path says. -/
theorem join_eq {front : List UInt8} (nonempty : front ≠ []) (elems : List (List UInt8)) :
    join (front :: elems) =
      (rooted front).take ((rooted front).length - (relative (elems.flatMap split)).ups) ++
        (relative (elems.flatMap split)).names := by
  have kept : (front :: elems).filter (· ≠ []) = front :: elems.filter (· ≠ []) :=
    List.filter_cons_of_pos (decide_eq_true nonempty)
  have pieces := split_text_flatMap (List.cons_ne_nil front (elems.filter (· ≠ [])))
  rw [text] at pieces
  rw [join, kept, rooted, pieces, List.flatMap_cons, clean, List.foldl_append, foldl_push_nonempty, ← foldl_push_relative]
  rfl

theorem joinText_eq {front : List UInt8} (isRooted : front.head? = some slash) (elems : List (List UInt8)) :
    joinText (front :: elems) = slash :: text (join (front :: elems)) := by
  have nonempty : front ≠ [] := by
    intro isEmpty
    rw [isEmpty] at isRooted
    cases isRooted
  have kept : (front :: elems).filter (· ≠ []) = front :: elems.filter (· ≠ []) :=
    List.filter_cons_of_pos (decide_eq_true nonempty)
  have first : (text (front :: elems.filter (· ≠ []))).head? = some slash := by
    cases elems.filter (· ≠ []) with
    | nil => rwa [text_singleton]
    | cons e rest =>
      rw [text_cons_cons, List.head?_append, isRooted]
      rfl
  rw [joinText, kept, if_neg (List.cons_ne_nil _ _), cleanText, if_pos first, components, if_pos first, relative_names,
    join, kept]
  rfl

theorem join_isName (elems : List (List UInt8)) : ∀ s ∈ join elems, IsName s :=
  fun _ member => rooted_isName member

end Join

section Suffix

variable {α : Type*} {w s t : List α}

/-- What ends behind a separator that it does not have begins behind it too. -/
theorem suffix_append_cons_iff {a : α} (apart : a ∉ w) : w <:+ s ++ a :: t ↔ w <:+ t := by
  constructor
  · intro ends
    rcases List.suffix_or_suffix_of_suffix ends (List.suffix_append s (a :: t)) with short | long
    · rcases List.suffix_cons_iff.mp short with whole | shorter
      · exact absurd (whole ▸ List.mem_cons_self) apart
      · exact shorter
    · exact absurd (long.subset List.mem_cons_self) apart
  · intro ends
    exact ends.trans ((List.suffix_cons a t).trans (List.suffix_append s (a :: t)))

theorem suffix_dropWhile_iff {p : α → Bool} (kept : ∀ a ∈ w, p a = false) :
    w <:+ s.dropWhile p ↔ w <:+ s := by
  refine ⟨fun ends => ends.trans (List.dropWhile_suffix p), fun ends => ?_⟩
  induction s with
  | nil => exact ends
  | cons a s ih =>
    by_cases dropped : p a = true
    · rw [List.dropWhile_cons_of_pos dropped]
      rcases List.suffix_cons_iff.mp ends with whole | shorter
      · exact absurd (kept a (whole ▸ List.mem_cons_self)) (by simp [dropped])
      · exact ih shorter
    · rwa [List.dropWhile_cons_of_neg dropped]

end Suffix

theorem suffix_text_concat {w : List UInt8} (noSlash : slash ∉ w) (front : List Segment) (last : Segment) :
    w <:+ text (front ++ [last]) ↔ w <:+ last := by
  induction front with
  | nil => rw [List.nil_append, text_singleton]
  | cons s rest ih =>
    obtain ⟨t, others, shape⟩ := List.exists_cons_of_ne_nil (List.concat_ne_nil last rest)
    rw [List.cons_append, ← ih, shape, text_cons_cons, suffix_append_cons_iff noSlash]

end GoPath
