import Casm.Lib.MultiIndex

namespace MultiIndex

variable {Index Obj : Type}

/-- One index as the sorted list of its leaves. -/
def Leaves (Obj : Type) : Type :=
  { entries : List (Bytes × Obj) // entries.Pairwise (fun a b => a.1 < b.1) }

namespace Leaves

def set (leaves : Leaves Obj) (key : Bytes) (obj : Obj) : Leaves Obj where
  val := leaves.val.filter (fun e => e.1 < key) ++
    (key, obj) :: leaves.val.filter (fun e => key < e.1)
  property := by
    rw [List.pairwise_append, List.pairwise_cons]
    refine ⟨leaves.property.sublist List.filter_sublist,
      ⟨?_, leaves.property.sublist List.filter_sublist⟩, ?_⟩
    · intro e member
      simpa using (List.mem_filter.mp member).2
    · intro below member e member'
      have less : below.1 < key := by simpa using (List.mem_filter.mp member).2
      rcases List.mem_cons.mp member' with same | above
      · rw [same]; exact less
      · exact List.lt_trans less (by simpa using (List.mem_filter.mp above).2)

theorem mem_set {leaves : Leaves Obj} {key key' : Bytes} {obj o : Obj} :
    (key', o) ∈ (leaves.set key obj).val ↔
      key' = key ∧ o = obj ∨ key' ≠ key ∧ (key', o) ∈ leaves.val := by
  simp only [set, List.mem_append, List.mem_cons, List.mem_filter, Prod.mk.injEq, decide_eq_true_eq]
  constructor
  · rintro (⟨member, less⟩ | same | ⟨member, less⟩)
    · exact Or.inr ⟨fun same => List.lt_irrefl key (same ▸ less), member⟩
    · exact Or.inl same
    · exact Or.inr ⟨fun same => List.lt_irrefl key (same ▸ less), member⟩
  · rintro (same | ⟨other, member⟩)
    · exact Or.inr (Or.inl same)
    · by_cases less : key' < key
      · exact Or.inl ⟨member, less⟩
      · rcases List.le_iff_lt_or_eq.mp (List.not_lt.mp less) with greater | same
        · exact Or.inr (Or.inr ⟨member, greater⟩)
        · exact absurd same.symm other

def erase (leaves : Leaves Obj) (keys : List Bytes) : Leaves Obj where
  val := leaves.val.filter (fun e => e.1 ∉ keys)
  property := leaves.property.sublist List.filter_sublist

def setAll (leaves : Leaves Obj) (keys : List Bytes) (obj : Obj) : Leaves Obj :=
  keys.foldl (fun current key => current.set key obj) leaves

theorem mem_setAll {keys : List Bytes} {leaves : Leaves Obj} {key : Bytes} {obj o : Obj} :
    (key, o) ∈ (leaves.setAll keys obj).val ↔
      key ∈ keys ∧ o = obj ∨ key ∉ keys ∧ (key, o) ∈ leaves.val := by
  induction keys generalizing leaves with
  | nil => simp [setAll]
  | cons first rest ih =>
    rw [setAll, List.foldl_cons, ← setAll, ih, mem_set, List.mem_cons]
    by_cases atFirst : key = first
    · subst first
      by_cases atRest : key ∈ rest <;> simp [atRest]
    · simp [atFirst]

theorem mem_erase {leaves : Leaves Obj} {keys : List Bytes} {entry : Bytes × Obj} :
    entry ∈ (leaves.erase keys).val ↔ entry ∈ leaves.val ∧ entry.1 ∉ keys := by
  simp [erase]

def find (leaves : Leaves Obj) (key : Bytes) : Option Obj :=
  (leaves.val.find? (fun e => e.1 == key)).map Prod.snd

theorem mem_of_find {leaves : Leaves Obj} {key : Bytes} {obj : Obj}
    (found : leaves.find key = some obj) : (key, obj) ∈ leaves.val := by
  obtain ⟨⟨key', obj'⟩, atKey, same⟩ := Option.map_eq_some_iff.mp found
  have equal : key' = key := by simpa using List.find?_some atKey
  have member := List.mem_of_find?_eq_some atKey
  rw [equal, show obj' = obj from same] at member
  exact member

theorem find_eq_some_iff {leaves : Leaves Obj} {key : Bytes} {obj : Obj} :
    leaves.find key = some obj ↔ (key, obj) ∈ leaves.val := by
  refine ⟨mem_of_find, fun member => ?_⟩
  cases found : leaves.find key with
  | none =>
    have missing := List.find?_eq_none.mp (Option.map_eq_none_iff.mp found) (key, obj) member
    simp at missing
  | some other =>
    rw [sorted_functional leaves.property member (mem_of_find found)]

end Leaves

namespace Schema

variable (S : Schema Index Obj)

def accepts (obj : Obj) : Bool :=
  (S.primaryKey obj).isOk && S.indexes.all fun i =>
    match S.fromObject i obj with
    | .ok (some _) => true
    | .ok none => S.allowMissing i
    | .error _ => false

theorem accepts_iff {obj : Obj} : S.accepts obj = true ↔ S.Indexable obj := by
  simp only [accepts, Bool.and_eq_true, List.all_eq_true]
  constructor
  · rintro ⟨key, values⟩
    refine ⟨?_, fun i => ?_⟩
    · cases found : S.primaryKey obj with
      | ok pk => exact ⟨pk, rfl⟩
      | error fault => simp [found, Except.isOk, Except.toBool] at key
    · have accepted := values i (S.complete i)
      split at accepted
      · rename_i vals found
        exact ⟨some vals, found, by simp⟩
      · rename_i found
        exact ⟨none, found, fun _ => accepted⟩
      · simp at accepted
  · rintro ⟨⟨pk, key⟩, values⟩
    refine ⟨by simp [key, Except.isOk, Except.toBool], fun i _ => ?_⟩
    obtain ⟨vals, found, missing⟩ := values i
    cases vals with
    | none => simpa only [found] using missing rfl
    | some vals => simp only [found]

end Schema

namespace SortedEngine

variable (S : Schema Index Obj)

def insert (t : Index → Leaves Obj) (obj : Obj) : (Index → Leaves Obj) × Except Fault Unit :=
  match S.primaryKey obj with
  | .error fault => (t, .error fault)
  | .ok pk =>
    let old := (t S.primary).find pk
    if S.accepts obj && old.all S.accepts then
      (fun i => ((t i).erase (old.toList.flatMap (S.keys i))).setAll (S.keys i obj) obj, .ok ())
    else (t, .error (.error "failed to build index"))

def delete (t : Index → Leaves Obj) (obj : Obj) : (Index → Leaves Obj) × Except Fault Unit :=
  match S.primaryKey obj with
  | .error fault => (t, .error fault)
  | .ok pk =>
    match (t S.primary).find pk with
    | none => (t, .error (.error "not found"))
    | some old => (fun i => (t i).erase (S.keys i old), .ok ())

variable {S}

theorem insert_ok {t : Index → Leaves Obj} {obj : Obj} {pk : Bytes} (key : S.primaryKey obj = .ok pk)
    (indexable : S.Indexable obj)
    (oldIndexable : ∀ old, (pk, old) ∈ (t S.primary).val → S.Indexable old) :
    (insert S t obj).2 = .ok () ∧ ∀ i key o, (key, o) ∈ ((insert S t obj).1 i).val ↔
      key ∈ S.keys i obj ∧ o = obj ∨ key ∉ S.keys i obj ∧ (key, o) ∈ (t i).val ∧
        ∀ old, (pk, old) ∈ (t S.primary).val → key ∉ S.keys i old := by
  have accepted : S.accepts obj = true := S.accepts_iff.mpr indexable
  have oldAccepted : ((t S.primary).find pk).all S.accepts = true := by
    cases found : (t S.primary).find pk with
    | none => rfl
    | some old => exact S.accepts_iff.mpr (oldIndexable old (Leaves.mem_of_find found))
  simp only [insert, key, accepted, oldAccepted, Bool.and_self, if_true, true_and]
  intro i key' o
  rw [Leaves.mem_setAll, Leaves.mem_erase]
  simp only [List.mem_flatMap, Option.mem_toList, Leaves.find_eq_some_iff, not_exists, not_and]

theorem insert_fault {t : Index → Leaves Obj} {obj : Obj} (refused : ¬ S.Indexable obj) :
    ∃ fault, (insert S t obj).2 = .error fault := by
  have rejected : S.accepts obj = false := by
    rw [← Bool.not_eq_true, S.accepts_iff]
    exact refused
  unfold insert
  split
  · exact ⟨_, rfl⟩
  · simp [rejected]

theorem delete_ok {t : Index → Leaves Obj} {obj old : Obj} {pk : Bytes}
    (key : S.primaryKey obj = .ok pk) (stored : (pk, old) ∈ (t S.primary).val) :
    (delete S t obj).2 = .ok () ∧ ∀ i key o, (key, o) ∈ ((delete S t obj).1 i).val ↔
      (key, o) ∈ (t i).val ∧ key ∉ S.keys i old := by
  simp only [delete, key, Leaves.find_eq_some_iff.mpr stored, true_and]
  exact fun i key' o => Leaves.mem_erase

theorem delete_missing {t : Index → Leaves Obj} {obj : Obj} {pk : Bytes}
    (key : S.primaryKey obj = .ok pk) (missing : ∀ old, (pk, old) ∉ (t S.primary).val) :
    ∃ fault, (delete S t obj).2 = .error fault := by
  cases found : (t S.primary).find pk with
  | none => exact ⟨_, by simp only [delete, key, found]; rfl⟩
  | some old => exact absurd (Leaves.mem_of_find found) (missing old)

theorem delete_subset {t : Index → Leaves Obj} {obj : Obj} (i : Index) :
    ∀ entry ∈ ((delete S t obj).1 i).val, entry ∈ (t i).val := by
  intro entry member
  unfold delete at member
  split at member
  · exact member
  · split at member
    · exact member
    · exact (Leaves.mem_erase.mp member).1

end SortedEngine

/-- An engine that keeps each index as a sorted list. A failed insert or
delete leaves its table alone. -/
def sortedEngine (S : Schema Index Obj) : Engine S where
  Txn := Index → Leaves Obj
  entries t i := (t i).val
  empty := fun _ => ⟨[], .nil⟩
  insert := SortedEngine.insert S
  delete := SortedEngine.delete S
  first t i key := (t i).find key
  reverseLowerBound t i bound := ((t i).val.filter (fun e => e.1 ≤ bound)).reverse.map Prod.snd
  entries_sorted t i := (t i).property
  entries_empty _ := rfl
  insert_ok _ _ _ := SortedEngine.insert_ok
  insert_fault _ _ := SortedEngine.insert_fault
  delete_ok _ _ _ _ key stored _ _ := SortedEngine.delete_ok key stored
  delete_missing _ _ _ := SortedEngine.delete_missing
  delete_subset _ _ i := SortedEngine.delete_subset i
  first_unique _ _ _ _ _ _ := Leaves.find_eq_some_iff
  first_mem _ _ key _ found := ⟨key, Leaves.mem_of_find found⟩
  reverseLowerBound_eq _ _ _ := rfl

end MultiIndex
