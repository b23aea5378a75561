import Casm.Lib.PathText
import Casm.Pex.Exchange

namespace Casm.Proto
open GoPath
open Casm.Pex (bytes)

/-- The part of a semantic version that is compared. -/
structure Version where
  major : Nat
  minor : Nat
  patch : Nat
  deriving DecidableEq, Repr

def isDigit (b : UInt8) : Bool :=
  48 ≤ b && b ≤ 57

def isIdentifierByte (b : UInt8) : Bool :=
  isDigit b || 65 ≤ b && b ≤ 90 || 97 ≤ b && b ≤ 122 || b == 45

/-- A number without leading zeros. -/
def isNumeric (s : List UInt8) : Bool :=
  s ≠ [] && s.all isDigit && (s == [48] || s.head? ≠ some 48)

def isBuild (s : List UInt8) : Bool :=
  s ≠ [] && s.all isIdentifierByte

def isPreRelease (s : List UInt8) : Bool :=
  isBuild s && (!s.all isDigit || isNumeric s)

def number (s : List UInt8) : Nat :=
  s.foldl (fun n b => 10 * n + (b.toNat - 48)) 0

/-- The identifiers after a sign, if the sign is there. -/
def identifiersAre (check : List UInt8 → Bool) : List UInt8 → Bool
  | [] => true
  | _ :: s => (s.splitOn dot).all check

/-- The grammar of semantic versions: three numbers, a pre-release after a hyphen, build
metadata after a plus sign. -/
def semanticVersion (s : List UInt8) : Option Version :=
  let front := s.takeWhile (· ≠ 43)
  let build := s.dropWhile (· ≠ 43)
  let core := front.takeWhile (· ≠ 45)
  let preRelease := front.dropWhile (· ≠ 45)
  match core.splitOn dot with
  | [major, minor, patch] =>
    if isNumeric major && isNumeric minor && isNumeric patch && identifiersAre isPreRelease preRelease &&
        identifiersAre isBuild build then some ⟨number major, number minor, number patch⟩
    else none
  | _ => none

/-- What is assumed of `semver.NewVersion`: it accepts the semantic versions and nothing
else, and reads their numbers. -/
def AcceptsExactly (newVersion : List UInt8 → Option Version) : Prop :=
  ∀ s, newVersion s = semanticVersion s

def clean (s : List UInt8) : List UInt8 :=
  trimLeft (cleanText s)

/-- What is left of the ID, and whether it matches. -/
abbrev MatchFunc := List UInt8 → List UInt8 × Bool

/-- `match`. -/
def cleaned (f : MatchFunc) : MatchFunc :=
  fun s => f (clean s)

/-- `MatchFunc.Match`. -/
def MatchFunc.accepts (f : MatchFunc) (id : List UInt8) : Bool :=
  (f id).2

/-- `MatchFunc.Then`, where the first function may be missing. -/
def andThen (f : Option MatchFunc) (next : MatchFunc) : MatchFunc :=
  match f with
  | none => next
  | some f => cleaned fun s =>
    let (rest, ok) := f s
    if ok then cleaned next rest else (rest, ok)

/-- `Match`. -/
def matchAll (ms : List MatchFunc) : Option MatchFunc :=
  ms.foldl (fun f next => some (andThen f next)) none

/-- The text up to the first slash of the clean path, and the text after it. -/
def pop (s : List UInt8) : List UInt8 × List UInt8 :=
  ((clean s).takeWhile (· ≠ slash), ((clean s).dropWhile (· ≠ slash)).drop 1)

def exactly (s : List UInt8) : MatchFunc :=
  cleaned fun proto => ((pop proto).2, (pop proto).1 == clean s)

/-- `strings.TrimPrefix`. -/
def trimFront (s front : List UInt8) : List UInt8 :=
  if front.isPrefixOf s then s.drop front.length else s

/-- `Prefix`. -/
def startingWith (front : List UInt8) : MatchFunc :=
  cleaned fun s => (trimFront s (clean front), trimFront s (clean front) ≠ s)

/-- `SemVer`, for a version that has been parsed. -/
def semVer (newVersion : List UInt8 → Option Version) (v : Version) : MatchFunc :=
  cleaned fun s =>
    match newVersion (pop s).1 with
    | none => (s, false)
    | some sv => ((pop s).2, v.major == sv.major)

/-- `casm.Version`. -/
def version : List UInt8 :=
  bytes "0.0.0"

/-- `semver.New(clean(casm.Version))`. -/
def parsedVersion : Version :=
  ⟨0, 0, 0⟩

theorem semanticVersion_version : semanticVersion (clean version) = some parsedVersion := by
  decide

/-- `casm.NewMatcher`. -/
def newMatcher (newVersion : List UInt8 → Option Version) (ns : List UInt8) : MatchFunc :=
  andThen (matchAll [startingWith (bytes "casm"), semVer newVersion parsedVersion]) (exactly ns)

/-- `casm.Subprotocol`. -/
def subprotocol (ns : List UInt8) (ss : List (List UInt8)) : List UInt8 :=
  joinText (bytes "/casm/0.0.0" :: ns :: ss)

theorem clean_eq (s : List UInt8) : clean s = text (fields s) :=
  trimLeft_cleanText s

theorem fields_clean (s : List UInt8) : fields (clean s) = fields s := by
  rw [clean_eq, fields_text (fields_isName s)]
  exact undot_undot _

theorem takeWhile_text {s : Segment} (noSlash : slash ∉ s) (rest : List Segment) :
    (text (s :: rest)).takeWhile (· ≠ slash) = s ∧
      ((text (s :: rest)).dropWhile (· ≠ slash)).drop 1 = text rest := by
  have passes : ∀ b ∈ s, decide (b ≠ slash) = true := by
    intro b member
    exact decide_eq_true fun same => noSlash (same ▸ member)
  cases rest with
  | nil =>
    rw [text_singleton, List.takeWhile_eq_self_iff.mpr passes, List.dropWhile_eq_nil_iff.mpr passes]
    exact ⟨rfl, rfl⟩
  | cons s' rest =>
    rw [text_cons_cons, List.takeWhile_append_of_pos passes, List.dropWhile_append_of_pos passes]
    simp

/-- The first field, and the text of the others. -/
theorem pop_eq (s : List UInt8) : pop s = ((fields s).headD [], text (fields s).tail) := by
  unfold pop
  rw [clean_eq]
  cases found : fields s with
  | nil => rfl
  | cons first rest =>
    have name := fields_isName s first (found ▸ List.mem_cons_self ..)
    obtain ⟨head, tail⟩ := takeWhile_text name.noSlash rest
    rw [head, tail]
    rfl

section Stages

variable {s rest : List UInt8}

theorem andThen_eq {f next : MatchFunc} :
    andThen (some f) next s = (rest, true) ↔
      ∃ middle, f (clean s) = (middle, true) ∧ next (clean middle) = (rest, true) := by
  cases equal : f (clean s) with
  | mk middle ok =>
    cases ok with
    | false => simp [andThen, cleaned, equal]
    | true => simp [andThen, cleaned, equal]

theorem exactly_eq {ns : List UInt8} :
    exactly ns s = (rest, true) ↔ (fields s).headD [] = clean ns ∧ rest = text (fields s).tail := by
  rw [exactly, cleaned, pop_eq, fields_clean, Prod.mk.injEq, beq_iff_eq, and_comm, eq_comm (a := rest)]

theorem semVer_eq {newVersion : List UInt8 → Option Version} (noEmpty : newVersion [] = none) {v : Version} :
    semVer newVersion v s = (rest, true) ↔
      ∃ first others sv, fields s = first :: others ∧ newVersion first = some sv ∧ sv.major = v.major ∧
        rest = text others := by
  rw [semVer, cleaned, pop_eq, fields_clean]
  cases fields s with
  | nil => simp [noEmpty]
  | cons first others =>
    rw [List.headD_cons, List.tail_cons]
    cases parsed : newVersion first with
    | none => simp +contextual [parsed]
    | some sv =>
      constructor
      · intro passed
        obtain ⟨left, same⟩ := Prod.mk.inj passed
        exact ⟨first, others, sv, rfl, parsed, (beq_iff_eq.mp same).symm, left.symm⟩
      · rintro ⟨first', others', sv', shape, parsed', same, left⟩
        obtain ⟨rfl, rfl⟩ := List.cons.inj shape
        rw [parsed, Option.some.injEq] at parsed'
        rw [left, parsed']
        exact Prod.ext rfl (beq_iff_eq.mpr same.symm)

theorem startingWith_eq {front : List UInt8} (isClean : clean front = front) (nonempty : front ≠ [])
    (noSlash : slash ∉ front) : startingWith front s = (rest, true) ↔
      ∃ glued others, fields s = (front ++ glued) :: others ∧ rest = text (glued :: others) := by
  rw [startingWith, cleaned, isClean, clean_eq, Prod.mk.injEq, decide_eq_true_eq]
  constructor
  · rintro ⟨left, different⟩
    rw [trimFront] at left different
    split at left
    · rename_i isFront
      obtain ⟨after, whole⟩ := List.isPrefixOf_iff_prefix.mp isFront
      cases shape : fields s with
      | nil =>
        rw [shape] at whole
        exact absurd (List.append_eq_nil_iff.mp whole).1 nonempty
      | cons first others =>
        rw [shape] at whole left
        have name := fields_isName s first (shape ▸ List.mem_cons_self ..)
        have passes : ∀ b ∈ front, decide (b ≠ slash) = true :=
          fun b member => decide_eq_true fun same => noSlash (same ▸ member)
        have split : first = front ++ after.takeWhile (· ≠ slash) := by
          rw [← (takeWhile_text name.noSlash others).1, ← whole, List.takeWhile_append_of_pos passes]
        rw [split] at left ⊢
        rw [text_append_cons, List.drop_left] at left
        exact ⟨_, others, rfl, left.symm⟩
    · rename_i notFront
      exact absurd (if_neg notFront) different
  · rintro ⟨glued, others, shape, left⟩
    have isFront : front.isPrefixOf (front ++ text (glued :: others)) = true :=
      List.isPrefixOf_iff_prefix.mpr (List.prefix_append ..)
    rw [shape, text_append_cons, trimFront, if_pos isFront, List.drop_left, left]
    refine ⟨rfl, fun same => nonempty ?_⟩
    exact List.append_left_eq_self.mp same.symm

end Stages

end Casm.Proto
