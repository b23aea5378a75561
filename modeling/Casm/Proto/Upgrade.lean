import Casm.Proto.Match
import Casm.Proto.Split

namespace Casm.Proto
open GoPath
open Casm.Pex (bytes)
open Utf8 (repair)

/-- `strings.TrimSuffix`. -/
def trimBack (s back : List UInt8) : List UInt8 :=
  if back.isSuffixOf s then s.take (s.length - back.length) else s

/-- `Suffix`. -/
def endingWith (back : List UInt8) : MatchFunc :=
  cleaned fun s => (trimBack s (clean back), trimBack s (clean back) ≠ s)

def lz4 : List UInt8 :=
  bytes "lz4"

def packed : List UInt8 :=
  bytes "packed"

def matchLz4 (id : List UInt8) : Bool :=
  (endingWith lz4).accepts id

def matchPacked (id : List UInt8) : Bool :=
  (endingWith packed).accepts id

/-- A stream with its protocol ID, or an `Lz4Stream` around another stream. -/
inductive Stream where
  | raw (protocol : List UInt8)
  | lz4 (s : Stream)
  deriving DecidableEq

def Stream.protocol : Stream → List UInt8
  | raw protocol => protocol
  | lz4 s => (splitID s.protocol).1

/-- The transports `NewPackedStreamTransport` and `NewStreamTransport`. -/
inductive Transport where
  | packed (s : Stream)
  | unpacked (s : Stream)
  deriving DecidableEq

def Transport.stream : Transport → Stream
  | packed s => s
  | unpacked s => s

/-- A word that can be told from the end of a path: it is its own clean form, and none of
its bytes is trimmed, a separator or part of a longer rune. -/
structure IsWord (w : List UInt8) : Prop where
  nonempty : w ≠ []
  isClean : clean w = w
  bytes : ∀ b ∈ w, b ≠ slash ∧ b ≠ dot ∧ b.toNat < 128

theorem isWord_lz4 : IsWord lz4 := by
  exact ⟨by decide, by decide +kernel, by decide +kernel⟩

theorem isWord_packed : IsWord packed := by
  exact ⟨by decide, by decide +kernel, by decide +kernel⟩

section Match

variable {w id : List UInt8}

theorem trimBack_ne_iff (nonempty : w ≠ []) {s : List UInt8} : trimBack s w ≠ s ↔ w <:+ s := by
  rw [trimBack]
  split
  · rename_i ends
    have isSuffix := List.isSuffixOf_iff_suffix.mp ends
    refine iff_of_true (fun same => ?_) isSuffix
    have length := congrArg List.length same
    have shorter := isSuffix.length_le
    have positive := List.length_pos_iff.mpr nonempty
    rw [List.length_take] at length
    omega
  · rename_i other
    exact iff_of_false (not_not.mpr rfl) (mt List.isSuffixOf_iff_suffix.mpr other)

theorem IsWord.noSlash (word : IsWord w) : slash ∉ w :=
  fun member => (word.bytes slash member).1 rfl

/-- The suffix is looked for at the end of the path. What is trimmed from its front does
not matter. -/
theorem IsWord.accepts_iff (word : IsWord w) : (endingWith w).accepts id = true ↔ w <:+ text (rooted id) := by
  have kept : ∀ b ∈ w, decide (b = slash ∨ b = dot) = false := by
    intro b member
    obtain ⟨notSlash, notDot, -⟩ := word.bytes b member
    simp [notSlash, notDot]
  have noSlash : ∀ s ∈ rooted id, slash ∉ s := fun s member => (rooted_isName member).noSlash
  rw [MatchFunc.accepts, endingWith, cleaned, decide_eq_true_eq, word.isClean, trimBack_ne_iff word.nonempty, clean_eq,
    fields, ← trimLeft_text noSlash, trimLeft, suffix_dropWhile_iff kept]

theorem clean_rawParts (id : List UInt8) : GoPath.clean (rawParts id) = rooted id :=
  clean_nonempty (split id)

theorem Plain.rooted_eq (plain : Plain id) : rooted id = rawParts id := by
  rw [← clean_rawParts]
  refine clean_of_names fun c member => ?_
  have isPart : repair c ∈ parts id := by
    rw [parts_eq_map]
    exact List.mem_map_of_mem member
  obtain ⟨notDot, notDots⟩ := plain _ isPart
  obtain ⟨isSegment, something⟩ := List.mem_filter.mp member
  have asciiDot : dot.toNat < 128 := by decide
  rw [Ne, Utf8.repair_eq_iff (by simpa using asciiDot)] at notDot notDots
  exact ⟨of_decide_eq_true something, notDot, notDots, split_noSlash isSegment⟩

theorem IsWord.accepts_nil (word : IsWord w) (isParts : parts id = []) : (endingWith w).accepts id = false := by
  rw [parts_eq_map, List.map_eq_nil_iff] at isParts
  refine Bool.eq_false_of_not_eq_true fun accepted => ?_
  rw [word.accepts_iff, ← clean_rawParts, isParts] at accepted
  exact word.nonempty (List.suffix_nil.mp accepted)

/-- The suffix is looked for at the end of the last component. -/
theorem IsWord.accepts_concat (word : IsWord w) (plain : Plain id) {front : List Segment} {c : Segment}
    (isParts : parts id = front ++ [c]) : (endingWith w).accepts id = true ↔ w <:+ c := by
  rw [parts_eq_map] at isParts
  obtain ⟨rawFront, rawLast, shape, -, single⟩ := List.map_eq_append_iff.mp isParts
  obtain ⟨raw, rfl, rfl⟩ := List.map_eq_singleton_iff.mp single
  rw [word.accepts_iff, plain.rooted_eq, shape, suffix_text_concat word.noSlash,
    Utf8.suffix_repair_iff fun b member => (word.bytes b member).2.2]

theorem parts_ne_nil_of_matchLz4 (found : matchLz4 id = true) : parts id ≠ [] := by
  intro isParts
  rw [matchLz4, isWord_lz4.accepts_nil isParts] at found
  cases found

end Match

/-- `BasicCap.Upgrade`. Each layer takes a component off the protocol ID. -/
def upgrade (s : Stream) : Transport :=
  if matchLz4 s.protocol = true then upgrade (.lz4 s)
  else if matchPacked s.protocol = true then .packed s
  else .unpacked s
termination_by (parts s.protocol).length
decreasing_by exact length_parts_base_lt (parts_ne_nil_of_matchLz4 (by assumption))

def isLz4 (c : Segment) : Bool :=
  c = lz4

/-- The transport that the components ask for: a layer for each `lz4` at their end, and
packed messages for a `packed` before. -/
def requested (s : Stream) : Transport :=
  let wrapped := Stream.lz4^[((parts s.protocol).rtakeWhile isLz4).length] s
  if ((parts s.protocol).rdropWhile isLz4).getLast? = some packed then .packed wrapped else .unpacked wrapped

/-- The component does not just end like one that asks for an encoding. -/
def Unambiguous (c : Segment) : Prop :=
  ¬ lz4 <:+ c ∧ (packed <:+ c → c = packed)

instance (c : Segment) : Decidable (Unambiguous c) :=
  inferInstanceAs (Decidable (_ ∧ _))

section Upgrade

variable {s : Stream} {front : List Segment} {c : Segment}

theorem upgrade_of_lz4 (found : matchLz4 s.protocol = true) : upgrade s = upgrade (.lz4 s) := by
  rw [upgrade, if_pos found]

theorem upgrade_of_other (other : ¬ matchLz4 s.protocol = true) :
    upgrade s = if matchPacked s.protocol = true then .packed s else .unpacked s := by
  rw [upgrade, if_neg other]

def Stream.layers : Stream → Nat
  | raw _ => 0
  | lz4 s => s.layers + 1

theorem layers_le_upgrade (s : Stream) : s.layers ≤ (upgrade s).stream.layers := by
  fun_induction upgrade s with
  | case1 s found ih => exact (Nat.le_succ _).trans ih
  | case2 s other found => exact le_rfl
  | case3 s other other' => exact le_rfl

theorem parts_lz4 (plain : Plain s.protocol) (isParts : parts s.protocol = front ++ [c]) :
    parts (Stream.lz4 s).protocol = front := by
  by_cases alone : front = []
  · subst alone
    rw [Stream.protocol, splitID_singleton isParts]
    rfl
  · rw [Stream.protocol, splitID_concat isParts alone, parts_base isParts alone plain]

theorem isLz4_lz4 : isLz4 lz4 = true :=
  decide_eq_true rfl

theorem not_isLz4 (other : c ≠ lz4) : ¬ isLz4 c = true :=
  fun isLz4 => other (of_decide_eq_true isLz4)

theorem requested_of_lz4 (plain : Plain s.protocol) (isParts : parts s.protocol = front ++ [lz4]) :
    requested s = requested (.lz4 s) := by
  rw [requested, requested, parts_lz4 plain isParts, isParts, List.rtakeWhile_concat_pos isLz4 front lz4 isLz4_lz4,
    List.rdropWhile_concat_pos isLz4 front lz4 isLz4_lz4, List.length_append, List.length_singleton,
    Function.iterate_succ_apply]

theorem requested_of_other (isParts : parts s.protocol = front ++ [c]) (other : c ≠ lz4) :
    requested s = if c = packed then .packed s else .unpacked s := by
  rw [requested, isParts, List.rtakeWhile_concat_neg isLz4 front c (not_isLz4 other),
    List.rdropWhile_concat_neg isLz4 front c (not_isLz4 other), List.getLast?_concat]
  simp

/-- Below a last component other than `lz4` nothing more is unwrapped, so the stream is
as asked for exactly when that component is not taken for a word it only ends in. -/
theorem upgrade_of_last_other (plain : Plain s.protocol) (isParts : parts s.protocol = front ++ [c])
    (other : c ≠ lz4) : upgrade s = requested s ↔ Unambiguous c := by
  have wraps : matchLz4 s.protocol = true ↔ lz4 <:+ c := isWord_lz4.accepts_concat plain isParts
  have packs : matchPacked s.protocol = true ↔ packed <:+ c := isWord_packed.accepts_concat plain isParts
  rw [requested_of_other isParts other]
  by_cases looksLike : lz4 <:+ c
  · -- A wrapped stream has more layers than the one that was asked for.
    refine iff_of_false (fun same => ?_) fun unambiguous => unambiguous.1 looksLike
    have deeper := layers_le_upgrade (.lz4 s)
    rw [← upgrade_of_lz4 (wraps.mpr looksLike), same] at deeper
    have stream : (if c = packed then Transport.packed s else .unpacked s).stream = s := by
      split
      · rfl
      · rfl
    rw [stream, Stream.layers] at deeper
    omega
  · rw [upgrade_of_other (mt wraps.mp looksLike), Unambiguous, and_iff_right looksLike]
    by_cases isWord : c = packed
    · simp [isWord, packs, List.suffix_rfl]
    · simp [isWord, packs]

/-- One component after the other is taken off, until one is left that is no `lz4`. -/
theorem upgrade_eq_requested_iff (plain : Plain s.protocol) (isParts : parts s.protocol = front) :
    upgrade s = requested s ↔ ∀ c ∈ (front.rdropWhile isLz4).getLast?, Unambiguous c := by
  induction front using List.reverseRecOn generalizing s with
  | nil =>
    have notLz4 : ¬ matchLz4 s.protocol = true := by
      rw [matchLz4, isWord_lz4.accepts_nil isParts]
      exact Bool.false_ne_true
    have notPacked : ¬ matchPacked s.protocol = true := by
      rw [matchPacked, isWord_packed.accepts_nil isParts]
      exact Bool.false_ne_true
    rw [upgrade_of_other notLz4, if_neg notPacked, requested, isParts]
    simp
  | append_singleton front c ih =>
    have wraps : matchLz4 s.protocol = true ↔ lz4 <:+ c := isWord_lz4.accepts_concat plain isParts
    by_cases asks : c = lz4
    · subst asks
      have inner := parts_lz4 plain isParts
      have plain' : Plain (Stream.lz4 s).protocol := by
        intro c member
        rw [inner] at member
        exact plain c (isParts ▸ List.mem_append_left _ member)
      rw [upgrade_of_lz4 (wraps.mpr List.suffix_rfl), requested_of_lz4 plain isParts, ih plain' inner,
        List.rdropWhile_concat_pos isLz4 front lz4 isLz4_lz4]
    · have last : ((front ++ [c]).rdropWhile isLz4).getLast? = some c := by
        rw [List.rdropWhile_concat_neg isLz4 front c (not_isLz4 asks), List.getLast?_concat]
      rw [last, upgrade_of_last_other plain isParts asks]
      simp only [Option.mem_def, Option.some.injEq, forall_eq']

end Upgrade

/-- A stream whose protocol ID has components that stand for themselves gets the
transport that its components ask for exactly if the last of them that is no `lz4` does
not just end in `lz4` or `packed`. -/
theorem upgrade_follows_suffix_iff {s : Stream} (plain : Plain s.protocol) :
    upgrade s = requested s ↔ ∀ c ∈ ((parts s.protocol).rdropWhile isLz4).getLast?, Unambiguous c :=
  upgrade_eq_requested_iff plain rfl

theorem upgrade_follows_packed_lz4 :
    Plain (bytes "/foo/packed/lz4") ∧ upgrade (.raw (bytes "/foo/packed/lz4")) = requested (.raw (bytes "/foo/packed/lz4")) := by
  have plain : Plain (Stream.raw (bytes "/foo/packed/lz4")).protocol := by decide +kernel
  exact ⟨plain, (upgrade_follows_suffix_iff plain).mpr (by decide +kernel)⟩

/-- The component `xlz4` is taken for an `lz4`, and `unpacked` for a `packed`. -/
theorem lookalike_suffix_upgraded :
    (Plain (bytes "/foo/xlz4") ∧ upgrade (.raw (bytes "/foo/xlz4")) ≠ requested (.raw (bytes "/foo/xlz4"))) ∧
      Plain (bytes "/foo/unpacked") ∧
        upgrade (.raw (bytes "/foo/unpacked")) ≠ requested (.raw (bytes "/foo/unpacked")) := by
  have plain : Plain (Stream.raw (bytes "/foo/xlz4")).protocol := by decide +kernel
  have plain' : Plain (Stream.raw (bytes "/foo/unpacked")).protocol := by decide +kernel
  refine ⟨⟨plain, ?_⟩, plain', ?_⟩
  · rw [Ne, upgrade_eq_requested_iff plain rfl]
    decide +kernel
  · rw [Ne, upgrade_eq_requested_iff plain' rfl]
    decide +kernel

end Casm.Proto
