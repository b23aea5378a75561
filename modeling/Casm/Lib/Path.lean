import Mathlib

namespace GoPath

abbrev Segment := List UInt8

def slash : UInt8 := 47

def dot : UInt8 := 46

def split (s : List UInt8) : List Segment :=
  s.splitOn slash

/-- Add one segment to a rooted path: empty and `.` segments say nothing, `..`
goes up but never above the root. -/
def push (path : List Segment) (segment : Segment) : List Segment :=
  if segment = [] ∨ segment = [dot] then path
  else if segment = [dot, dot] then path.dropLast
  else path ++ [segment]

/-- `path.Clean` of a rooted path, as the list of its segments. -/
def clean (segments : List Segment) : List Segment :=
  segments.foldl push []

/-- `path.Clean("/" + s)`. -/
def rooted (s : List UInt8) : List Segment :=
  clean (split s)

/-- `path.Join` of elements the first of which starts with a slash. -/
def join (elems : List (List UInt8)) : List Segment :=
  rooted ([slash].intercalate (elems.filter (· ≠ [])))

/-- A segment that stands for itself in a path. -/
structure IsName (s : Segment) : Prop where
  nonempty : s ≠ []
  notDot : s ≠ [dot]
  notDots : s ≠ [dot, dot]
  noSlash : slash ∉ s

theorem IsName.of_plain {s : Segment} (nonempty : s ≠ []) (plain : ∀ byte ∈ s, byte ≠ slash ∧ byte ≠ dot) :
    IsName s := by
  have noDot : dot ∉ s := fun member => (plain dot member).2 rfl
  refine ⟨nonempty, ?_, ?_, fun member => (plain slash member).1 rfl⟩
  · intro same
    exact noDot (by simp [same])
  · intro same
    exact noDot (by simp [same])

theorem push_name {path : List Segment} {s : Segment} (name : IsName s) : push path s = path ++ [s] := by
  rw [push, if_neg (not_or.mpr ⟨name.nonempty, name.notDot⟩), if_neg name.notDots]

theorem foldl_push_names {segments : List Segment} (names : ∀ s ∈ segments, IsName s) (path : List Segment) :
    segments.foldl push path = path ++ segments := by
  induction segments generalizing path with
  | nil => rw [List.foldl_nil, List.append_nil]
  | cons s rest ih =>
    obtain ⟨first, others⟩ := List.forall_mem_cons.mp names
    rw [List.foldl_cons, push_name first, ih others, List.append_assoc, List.singleton_append]

theorem rooted_of_name {s : Segment} (name : IsName s) : rooted s = [s] := by
  rw [rooted, split, List.splitOn_eq_singleton name.noSlash, clean, List.foldl_cons, List.foldl_nil,
    push_name name, List.nil_append]

/-- Names that are joined below a rooted path are found again in the result. -/
theorem rooted_names {segments : List Segment} (names : ∀ s ∈ segments, IsName s) :
    rooted ([slash].intercalate ([] :: segments)) = segments := by
  have noSlash : ∀ s ∈ [] :: segments, slash ∉ s := by
    intro s member
    rcases List.mem_cons.mp member with rfl | inside
    · exact List.not_mem_nil
    · exact (names s inside).noSlash
  have first : push [] [] = [] := if_pos (Or.inl rfl)
  rw [rooted, split, List.splitOn_intercalate slash noSlash (List.cons_ne_nil _ _), clean, List.foldl_cons, first,
    foldl_push_names names, List.nil_append]

end GoPath
