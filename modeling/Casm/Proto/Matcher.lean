import Casm.Proto.Match

namespace Casm.Proto
open GoPath
open Casm.Pex (bytes)

def casm : Segment :=
  bytes "casm"

/-- A semantic version that is compatible with the version of the package. -/
def Compatible (v : Segment) : Prop :=
  ∃ sv, semanticVersion v = some sv ∧ sv.major = parsedVersion.major

/-- The ID consists of the name of the package, a compatible version and the
segments of `tail`. -/
def Versioned (p : List UInt8) (tail : List Segment) : Prop :=
  ∃ v, Compatible v ∧ components p = casm :: v :: tail

/-- What the matcher of a namespace is for. -/
def InNamespace (ns p : List UInt8) : Prop :=
  ∃ rest, Versioned p (ns :: rest)

/-- How the matcher reads an ID. It does not see segments that are dots only and
dots at the start of a segment, and it does not look whether the name of the
package is a segment of its own. -/
def Readable (p : List UInt8) (tail : List Segment) : Prop :=
  ∃ glued others v, undot (components p) = (casm ++ glued) :: others ∧ undot (glued :: others) = v :: tail ∧
    Compatible v

/-- The first segment of the rest, as the matcher reads it. -/
def lead (tail : List Segment) : Segment :=
  (undot tail).headD []

theorem casm_isName : IsName casm :=
  ⟨by decide, by decide, by decide, by decide⟩

theorem version_isName : IsName version :=
  ⟨by decide, by decide, by decide, by decide⟩

theorem fields_glued {p : List UInt8} {glued : Segment} {others : List Segment}
    (shape : fields p = (casm ++ glued) :: others) : slash ∉ glued ∧ ∀ s ∈ others, IsName s := by
  obtain ⟨first, names⟩ := List.forall_mem_cons.mp (shape ▸ fields_isName p)
  exact ⟨fun member => first.noSlash (List.mem_append_right _ member), names⟩

/-- What the stages of the matcher pass on are the segments it has not read. -/
theorem fields_rest {p : List UInt8} {glued v : Segment} {others tail : List Segment}
    (shape : fields p = (casm ++ glued) :: others) (shape' : undot (glued :: others) = v :: tail) :
    fields (text (glued :: others)) = v :: tail ∧ fields (text tail) = undot tail := by
  obtain ⟨noSlash, names⟩ := fields_glued shape
  refine ⟨(undot_rooted_text noSlash names).trans shape', fields_text ?_⟩
  exact fun s member => names s (mem_of_undot_eq shape' member)

section Accepts

variable {newVersion : List UInt8 → Option Version} (exact : AcceptsExactly newVersion)
include exact

/-- The matcher compares the namespace with what it reads after a version. -/
theorem accepts_iff {ns p : List UInt8} :
    (newMatcher newVersion ns).accepts p = true ↔ ∃ tail, Readable p tail ∧ lead tail = clean ns := by
  obtain rfl : newVersion = semanticVersion := funext exact
  have passes : (newMatcher semanticVersion ns).accepts p = true ↔
      ∃ rest, newMatcher semanticVersion ns p = (rest, true) :=
    ⟨fun ok => ⟨_, Prod.ext rfl ok⟩, fun ⟨_, equal⟩ => congrArg Prod.snd equal⟩
  have start : ∀ {s rest : List UInt8}, startingWith (bytes "casm") s = (rest, true) ↔
      ∃ glued others, fields s = (casm ++ glued) :: others ∧ rest = text (glued :: others) :=
    startingWith_eq (by decide) (by decide) (by decide)
  have chain : newMatcher semanticVersion ns = andThen (some (andThen (some (startingWith (bytes "casm")))
      (semVer semanticVersion parsedVersion))) (exactly ns) := rfl
  have noEmpty : semanticVersion [] = none := by decide
  rw [passes, chain]
  simp only [andThen_eq, start, semVer_eq noEmpty, exactly_eq, fields_clean]
  constructor
  · rintro ⟨_, _, ⟨_, ⟨glued, others, shape, rfl⟩, v, tail, sv, shape', parsed, major, rfl⟩, same, _⟩
    obtain ⟨noSlash, names⟩ := fields_glued shape
    have unread : undot (glued :: others) = v :: tail := (undot_rooted_text noSlash names).symm.trans shape'
    rw [(fields_rest shape unread).2] at same
    exact ⟨tail, ⟨glued, others, v, (undot_components p).trans shape, unread, sv, parsed, major⟩, same⟩
  · rintro ⟨tail, ⟨glued, others, v, shape, unread, sv, parsed, major⟩, same⟩
    rw [undot_components] at shape
    obtain ⟨middle, last⟩ := fields_rest shape unread
    refine ⟨_, _, ⟨_, ⟨glued, others, shape, rfl⟩, v, tail, sv, middle, parsed, major, rfl⟩, ?_, rfl⟩
    rw [last]
    exact same

end Accepts

theorem exists_cons_of_takeWhile {s t : List UInt8} {b : UInt8} {check : UInt8 → Bool}
    (front : s.takeWhile check = b :: t) : ∃ rest, s = b :: rest := by
  obtain ⟨rest, whole⟩ := List.takeWhile_prefix (l := s) check
  rw [front, List.cons_append] at whole
  exact ⟨_, whole.symm⟩

theorem exists_cons_of_splitOn {s t : List UInt8} {b : UInt8} {others : List (List UInt8)}
    (pieces : s.splitOn dot = (b :: t) :: others) : ∃ rest, s = b :: rest := by
  have whole : List.intercalate [dot] (s.splitOn dot) = s := List.intercalate_splitOn dot
  rw [pieces] at whole
  cases others with
  | nil => exact ⟨t, by simpa using whole.symm⟩
  | cons piece others => exact ⟨_, by simpa using whole.symm⟩

/-- Versions start with a digit. -/
theorem semanticVersion_first {s : Segment} {sv : Version} (parsed : semanticVersion s = some sv) :
    ∃ b rest, s = b :: rest ∧ isDigit b = true := by
  simp only [semanticVersion] at parsed
  split at parsed
  · rename_i major minor patch pieces
    split at parsed
    · rename_i valid
      simp only [Bool.and_eq_true] at valid
      have numeric : isNumeric major = true := valid.1.1.1.1
      cases major with
      | nil => cases numeric
      | cons b digits =>
        obtain ⟨core, equal⟩ := exists_cons_of_splitOn pieces
        obtain ⟨front, equal'⟩ := exists_cons_of_takeWhile equal
        obtain ⟨rest, whole⟩ := exists_cons_of_takeWhile equal'
        refine ⟨b, rest, whole, ?_⟩
        simp only [isNumeric, Bool.and_eq_true, List.all_cons] at numeric
        exact numeric.1.2.1
    · cases parsed
  · cases parsed

theorem Versioned.readable {p : List UInt8} {tail : List Segment} (versioned : Versioned p tail) :
    Readable p tail := by
  obtain ⟨v, ⟨sv, parsed, major⟩, shape⟩ := versioned
  obtain ⟨b, rest, equal, digit⟩ := semanticVersion_first parsed
  have notDot : b ≠ dot := by
    intro same
    rw [same] at digit
    cases digit
  refine ⟨[], v :: tail, v, ?_, ?_, sv, parsed, major⟩
  · rw [shape]
    rfl
  · subst equal
    exact undot_cons_of_ne_dot notDot rest tail

theorem Readable.unique {p : List UInt8} {tail tail' : List Segment} (readable : Readable p tail)
    (readable' : Readable p tail') : tail = tail' := by
  obtain ⟨glued, others, v, shape, unread, _⟩ := readable
  obtain ⟨glued', others', v', shape', unread', _⟩ := readable'
  obtain ⟨sameFirst, rfl⟩ := List.cons.inj (shape.symm.trans shape')
  obtain rfl := List.append_cancel_left sameFirst
  exact (List.cons.inj (unread.symm.trans unread')).2

theorem Versioned.isName {p : List UInt8} {s : Segment} {rest : List Segment} (versioned : Versioned p (s :: rest)) :
    IsName s := by
  obtain ⟨v, _, shape⟩ := versioned
  have inside : s ∈ components p := by simp [shape]
  rw [components_eq_rooted shape casm_isName.notDots] at inside
  exact rooted_isName inside

/-- A name is read as the matcher knows it, unless it is dots only and something
else follows. -/
theorem lead_eq_clean_iff {ns : Segment} (name : IsName ns) (rest : List Segment) :
    lead (ns :: rest) = clean ns ↔ ((∀ b ∈ ns, b = dot) → ∀ s ∈ rest, ∀ b ∈ s, b = dot) := by
  have known : clean ns = text (undot [ns]) := by rw [clean_eq, fields, rooted_of_name name]
  have onlyDots : ns.dropWhile (· = dot) = [] ↔ ∀ b ∈ ns, b = dot := by simp [List.dropWhile_eq_nil_iff]
  rw [known, lead, ← onlyDots, ← undot_eq_nil_iff, undot, undot]
  by_cases nothing : ns.dropWhile (· = dot) = []
  · rw [if_pos nothing, if_pos nothing]
    simp only [nothing, true_imp_iff]
    cases shape : undot rest with
    | nil => exact iff_of_true rfl rfl
    | cons first others => exact iff_of_false (ne_nil_of_undot_eq shape) (List.cons_ne_nil _ _)
  · rw [if_neg nothing, if_neg nothing, text_singleton]
    exact iff_of_true rfl fun something => absurd something nothing

/-- The cases in which the matcher gets an ID right. -/
inductive Distinguishes (ns p : List UInt8) : Prop
  /-- Even with its dots ignored, the ID does not start with the name of the
  package and a version. -/
  | unread (unread : ∀ tail, ¬ Readable p tail)
  /-- The ID is in the namespace, and the matcher can see that. -/
  | visible {v : Segment} {rest : List Segment} (shape : components p = casm :: v :: ns :: rest)
      (compatible : Compatible v) (visible : (∀ b ∈ ns, b = dot) → ∀ s ∈ rest, ∀ b ∈ s, b = dot)
  /-- The third segment is not the namespace, and does not read as if it was. -/
  | other {tail : List Segment} (readable : Readable p tail)
      (foreign : ∀ v rest, components p = casm :: v :: ns :: rest → ¬ Compatible v) (differs : lead tail ≠ clean ns)

section Exact

variable {newVersion : List UInt8 → Option Version} (exact : AcceptsExactly newVersion)
include exact

theorem accepts_exact_iff (ns p : List UInt8) :
    ((newMatcher newVersion ns).accepts p = true ↔ InNamespace ns p) ↔ Distinguishes ns p := by
  rw [accepts_iff exact]
  constructor
  · intro exact
    by_cases readable : ∃ tail, Readable p tail
    · obtain ⟨tail, readable⟩ := readable
      by_cases inside : InNamespace ns p
      · obtain ⟨rest, versioned⟩ := inside
        obtain ⟨tail', readable', same⟩ := exact.mpr ⟨rest, versioned⟩
        obtain rfl := versioned.readable.unique readable'
        have visible := (lead_eq_clean_iff versioned.isName rest).mp same
        obtain ⟨v, compatible, shape⟩ := versioned
        exact .visible shape compatible visible
      · refine .other readable (fun v rest shape compatible => inside ⟨rest, v, compatible, shape⟩) fun same => ?_
        exact inside (exact.mp ⟨tail, readable, same⟩)
    · exact .unread fun tail reads => readable ⟨tail, reads⟩
  · intro cases
    rcases cases with unread | ⟨shape, compatible, visible⟩ | ⟨readable, foreign, differs⟩
    · refine iff_of_false ?_ ?_
      · rintro ⟨tail, readable, _⟩
        exact unread tail readable
      · rintro ⟨rest, versioned⟩
        exact unread _ versioned.readable
    · have versioned : Versioned p _ := ⟨_, compatible, shape⟩
      exact iff_of_true ⟨_, versioned.readable, (lead_eq_clean_iff versioned.isName _).mpr visible⟩ ⟨_, versioned⟩
    · refine iff_of_false ?_ ?_
      · rintro ⟨tail, readable', same⟩
        rw [readable'.unique readable] at same
        exact differs same
      · rintro ⟨rest, v, compatible, shape⟩
        exact foreign v rest shape compatible

end Exact

/-- Below the version of the package. -/
def Under (p : List UInt8) : Prop :=
  bytes "/casm/0.0.0/" <+: p

instance (p : List UInt8) : Decidable (Under p) :=
  inferInstanceAs (Decidable (_ <+: _))

def base : List Segment :=
  [casm, version]

/-- The path of the namespace and what follows it goes down from the version, or
returns to it by the same names, and starts with the namespace as the matcher
knows it. -/
def Fits (ns : List UInt8) (ss : List (List UInt8)) : Prop :=
  ∃ tail, tail ≠ [] ∧ lead tail = clean ns ∧
    (relative ((ns :: ss).flatMap split)).names =
      base.drop (base.length - (relative ((ns :: ss).flatMap split)).ups) ++ tail

/-- Names that are not dots only are namespaces that work. -/
theorem fits_of_names {ns : List UInt8} {ss : List (List UInt8)} (names : ∀ s ∈ ns :: ss, IsName s)
    (visible : ¬ ∀ b ∈ ns, b = dot) : Fits ns ss := by
  refine ⟨ns :: ss, List.cons_ne_nil _ _, ?_, ?_⟩
  · exact (lead_eq_clean_iff (names ns (List.mem_cons_self ..)) ss).mpr fun dots => absurd dots visible
  · rw [flatMap_split_of_names names, relative_of_names names]
    rfl

theorem under_iff {segments : List Segment} (noSlash : ∀ s ∈ segments, slash ∉ s) :
    Under (slash :: text segments) ↔ ∃ tail, tail ≠ [] ∧ segments = base ++ tail := by
  have front : bytes "/casm/0.0.0/" = slash :: (casm ++ slash :: (version ++ [slash])) := rfl
  rw [Under, front, List.cons_prefix_cons, and_iff_right rfl]
  constructor
  · rintro ⟨after, whole⟩
    have nonempty : segments ≠ [] := by
      rintro rfl
      cases whole
    have pieces := split_text noSlash nonempty
    rw [← whole, List.append_assoc, List.cons_append, List.append_assoc, List.singleton_append, split,
      List.splitOn_append_cons_self_of_not_mem casm_isName.noSlash,
      List.splitOn_append_cons_self_of_not_mem version_isName.noSlash] at pieces
    exact ⟨_, List.splitOn_ne_nil slash after, pieces.symm⟩
  · rintro ⟨tail, nonempty, rfl⟩
    obtain ⟨first, others, rfl⟩ := List.exists_cons_of_ne_nil nonempty
    refine ⟨text (first :: others), ?_⟩
    rw [base, List.cons_append, List.singleton_append, text_cons_cons, text_cons_cons]
    simp

/-- The text of a protocol is the path that the gossipers are registered by. -/
theorem subprotocol_eq (ns : List UInt8) (ss : List (List UInt8)) :
    subprotocol ns ss = slash :: text (Pex.subprotocol ns ss) :=
  joinText_eq rfl (ns :: ss)

theorem subprotocol_isName (ns : List UInt8) (ss : List (List UInt8)) : ∀ s ∈ Pex.subprotocol ns ss, IsName s :=
  join_isName _

theorem components_subprotocol (ns : List UInt8) (ss : List (List UInt8)) :
    components (subprotocol ns ss) = Pex.subprotocol ns ss := by
  rw [subprotocol_eq, components_rooted_text (subprotocol_isName ns ss)]

/-- Where a protocol ends up below the version. -/
theorem subprotocol_eq_append_iff {ns : List UInt8} {ss : List (List UInt8)} {tail : List Segment} :
    Pex.subprotocol ns ss = base ++ tail ↔ (relative ((ns :: ss).flatMap split)).names =
      base.drop (base.length - (relative ((ns :: ss).flatMap split)).ups) ++ tail := by
  have path : Pex.subprotocol ns ss = base.take (base.length - (relative ((ns :: ss).flatMap split)).ups) ++
      (relative ((ns :: ss).flatMap split)).names := join_eq (by decide) (ns :: ss)
  rw [path]
  nth_rewrite 3 [← List.take_append_drop (base.length - (relative ((ns :: ss).flatMap split)).ups) base]
  rw [List.append_assoc, List.append_cancel_left_eq]

section Subprotocols

variable {newVersion : List UInt8 → Option Version} (exact : AcceptsExactly newVersion)
include exact

theorem subprotocol_accepted_iff (ns : List UInt8) (ss : List (List UInt8)) :
    (newMatcher newVersion ns).accepts (subprotocol ns ss) = true ∧ Under (subprotocol ns ss) ↔ Fits ns ss := by
  have readable : ∀ {tail : List Segment}, Pex.subprotocol ns ss = base ++ tail →
      Readable (subprotocol ns ss) tail := by
    intro tail whole
    exact Versioned.readable ⟨version, ⟨_, semanticVersion_version, rfl⟩, (components_subprotocol ns ss).trans whole⟩
  have below : Under (subprotocol ns ss) ↔ ∃ tail, tail ≠ [] ∧ Pex.subprotocol ns ss = base ++ tail := by
    rw [subprotocol_eq]
    exact under_iff fun s member => (subprotocol_isName ns ss s member).noSlash
  rw [accepts_iff exact, below, Fits]
  constructor
  · rintro ⟨⟨tail', read, same⟩, tail, nonempty, whole⟩
    rw [read.unique (readable whole)] at same
    exact ⟨tail, nonempty, same, subprotocol_eq_append_iff.mp whole⟩
  · rintro ⟨tail, nonempty, same, whole⟩
    have whole' := subprotocol_eq_append_iff.mpr whole
    exact ⟨⟨tail, readable whole', same⟩, tail, nonempty, whole'⟩

/-- The matcher tells whether an ID belongs to the namespace, and accepts the
protocols of the namespace, exactly if the dots of both are in harmless places
and the namespace is a single name that the rest of the protocol leaves alone. -/
theorem matcher_exact_iff (ns p : List UInt8) (ss : List (List UInt8)) :
    (((newMatcher newVersion ns).accepts p = true ↔ InNamespace ns p) ∧
      (newMatcher newVersion ns).accepts (subprotocol ns ss) = true ∧ Under (subprotocol ns ss)) ↔
    Distinguishes ns p ∧ Fits ns ss := by
  rw [accepts_exact_iff exact, subprotocol_accepted_iff exact]

end Subprotocols

/-- With a protocol below it, a namespace that is a plain name works. -/
theorem matcher_exact_test :
    ((newMatcher semanticVersion (bytes "test")).accepts (bytes "/casm/0.1.0/test/echo") = true ↔
      InNamespace (bytes "test") (bytes "/casm/0.1.0/test/echo")) ∧
    (newMatcher semanticVersion (bytes "test")).accepts (subprotocol (bytes "test") [bytes "echo"]) = true ∧
    Under (subprotocol (bytes "test") [bytes "echo"]) := by
  have shape : components (bytes "/casm/0.1.0/test/echo") = [casm, bytes "0.1.0", bytes "test", bytes "echo"] := by
    decide
  have parsed : semanticVersion (bytes "0.1.0") = some ⟨0, 1, 0⟩ := by decide
  have names : ∀ s ∈ [bytes "test", bytes "echo"], IsName s := by
    simp only [List.forall_mem_cons]
    exact ⟨⟨by decide, by decide, by decide, by decide⟩, ⟨by decide, by decide, by decide, by decide⟩, by simp⟩
  refine (matcher_exact_iff (fun _ => rfl) _ _ _).mpr ⟨.visible shape ⟨_, parsed, rfl⟩ ?_, fits_of_names names ?_⟩
  · decide
  · decide

/-- Matchers accept a version that is glued to the package. The matcher of a
namespace with a slash does not accept its own protocol, and the protocol of a
step up is not below the version. -/
theorem matcher_misreads :
    AcceptsExactly semanticVersion ∧
      ¬ ((newMatcher semanticVersion (bytes "test")).accepts (bytes "/casm0.0.0/test") = true ↔
        InNamespace (bytes "test") (bytes "/casm0.0.0/test")) ∧
      ¬ (newMatcher semanticVersion (bytes "a/b")).accepts (subprotocol (bytes "a/b") []) = true ∧
      ¬ Under (subprotocol (bytes "..") []) := by
  have accepted : (newMatcher semanticVersion (bytes "test")).accepts (bytes "/casm0.0.0/test") = true := by decide
  have shape : components (bytes "/casm0.0.0/test") = [bytes "casm0.0.0", bytes "test"] := by decide
  refine ⟨fun _ => rfl, ?_, by decide, by decide⟩
  intro same
  obtain ⟨rest, v, _, shape'⟩ := same.mp accepted
  exact absurd (List.cons.inj (shape.symm.trans shape')).1 (by decide)

end Casm.Proto
