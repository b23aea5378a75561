import Casm.Lib.Bytes
import Casm.Lib.Fault

namespace MultiIndex

abbrev Bytes := List UInt8

/-- The schema of one table of a multi-index store. An indexer gives the
values of an object under its index, `none` when the object has no value
there, or a fault. Only the index list is finite data; the rest is code. -/
structure Schema (Index Obj : Type) where
  indexes : List Index
  complete : ∀ i, i ∈ indexes
  primary : Index
  unique : Index → Bool
  primary_unique : unique primary = true
  allowMissing : Index → Bool
  fromObject : Index → Obj → Except Fault (Option (List Bytes))

variable {Index Obj : Type}

theorem sorted_functional {entries : List (Bytes × Obj)} {key : Bytes} {a b : Obj}
    (sorted : entries.Pairwise (fun a b => a.1 < b.1))
    (left : (key, a) ∈ entries) (right : (key, b) ∈ entries) : a = b := by
  have nodup : (entries.map Prod.fst).Nodup := by
    rw [List.nodup_iff_pairwise_ne, List.pairwise_map]
    refine sorted.imp ?_
    intro a b less same
    exact List.lt_irrefl a.1 (same ▸ less)
  exact congrArg Prod.snd (List.inj_on_of_nodup_map nodup left right rfl)

namespace Schema

variable (S : Schema Index Obj)

def primaryKey (obj : Obj) : Except Fault Bytes :=
  match S.fromObject S.primary obj with
  | .error fault => .error fault
  | .ok (some [key]) => .ok key
  | .ok _ => .error (.error "object missing primary index")

/-- The keys an object is filed under. A unique index files it under the bare
value, any other index under the value followed by the primary key. -/
def keys (i : Index) (obj : Obj) : List Bytes :=
  match S.primaryKey obj, S.fromObject i obj with
  | .ok pk, .ok (some vals) => if S.unique i then vals else vals.map (· ++ pk)
  | _, _ => []

/-- Every indexer accepts the object, and none that must have a value lacks it. -/
structure Indexable (obj : Obj) : Prop where
  primary : ∃ pk, S.primaryKey obj = .ok pk
  values : ∀ i, ∃ vals, S.fromObject i obj = .ok vals ∧ (vals = none → S.allowMissing i = true)

theorem keys_primary {obj : Obj} {pk : Bytes} (key : S.primaryKey obj = .ok pk) :
    S.keys S.primary obj = [pk] := by
  have values : S.fromObject S.primary obj = .ok (some [pk]) := by
    unfold primaryKey at key
    split at key <;> simp_all
  simp only [keys, key, values, S.primary_unique, if_true]

/-- Two objects filed under one key of this index have one primary key. -/
def Separated (i : Index) : Prop :=
  ∀ a b key, key ∈ S.keys i a → key ∈ S.keys i b → S.primaryKey a = S.primaryKey b

end Schema

/-- What a program may rely on from a transactional multi-index store in the
manner of go-memdb. `Txn` is the table as one transaction sees it, `entries`
the leaves of the radix tree of an index in key order. A failed insert says
nothing about the table it leaves behind. -/
structure Engine (S : Schema Index Obj) where
  Txn : Type
  entries : Txn → Index → List (Bytes × Obj)
  empty : Txn
  insert : Txn → Obj → Txn × Except Fault Unit
  delete : Txn → Obj → Txn × Except Fault Unit
  first : Txn → Index → Bytes → Option Obj
  reverseLowerBound : Txn → Index → Bytes → List Obj
  entries_sorted : ∀ t i, (entries t i).Pairwise (fun a b => a.1 < b.1)
  entries_empty : ∀ i, entries empty i = []
  insert_ok : ∀ t obj pk, S.primaryKey obj = .ok pk → S.Indexable obj →
    (∀ old, (pk, old) ∈ entries t S.primary → S.Indexable old) →
    (insert t obj).2 = .ok () ∧ ∀ i key o, (key, o) ∈ entries (insert t obj).1 i ↔
      key ∈ S.keys i obj ∧ o = obj ∨ key ∉ S.keys i obj ∧ (key, o) ∈ entries t i ∧
        ∀ old, (pk, old) ∈ entries t S.primary → key ∉ S.keys i old
  insert_fault : ∀ t obj, ¬ S.Indexable obj → ∃ fault, (insert t obj).2 = .error fault
  delete_ok : ∀ t obj pk old, S.primaryKey obj = .ok pk → (pk, old) ∈ entries t S.primary →
    S.primaryKey old = .ok pk → S.Indexable old →
    (delete t obj).2 = .ok () ∧ ∀ i key o, (key, o) ∈ entries (delete t obj).1 i ↔
      (key, o) ∈ entries t i ∧ key ∉ S.keys i old
  delete_missing : ∀ t obj pk, S.primaryKey obj = .ok pk →
    (∀ old, (pk, old) ∉ entries t S.primary) → ∃ fault, (delete t obj).2 = .error fault
  delete_subset : ∀ t obj i, ∀ entry ∈ entries (delete t obj).1 i, entry ∈ entries t i
  first_unique : ∀ t i key o, S.unique i = true → key ≠ [] →
    (first t i key = some o ↔ (key, o) ∈ entries t i)
  first_mem : ∀ t i key o, first t i key = some o → ∃ key', (key', o) ∈ entries t i
  reverseLowerBound_eq : ∀ t i bound, reverseLowerBound t i bound =
    ((entries t i).filter (fun entry => entry.1 ≤ bound)).reverse.map Prod.snd

namespace Engine

variable {S : Schema Index Obj} (E : Engine S)

theorem entries_functional {t : E.Txn} {i : Index} {key : Bytes} {a b : Obj}
    (left : (key, a) ∈ E.entries t i) (right : (key, b) ∈ E.entries t i) : a = b :=
  sorted_functional (E.entries_sorted t i) left right

/-- The object is in the table: it is stored under its own primary key. -/
def Holds (t : E.Txn) (obj : Obj) : Prop :=
  ∃ pk, S.primaryKey obj = .ok pk ∧ (pk, obj) ∈ E.entries t S.primary

/-- No dangling entries: whatever an index leads to is in the table and is
filed under one of its own keys. Entries may be missing, never stale. -/
structure Consistent (t : E.Txn) : Prop where
  indexable : ∀ obj, E.Holds t obj → S.Indexable obj
  filed : ∀ i key obj, (key, obj) ∈ E.entries t i → E.Holds t obj ∧ key ∈ S.keys i obj

/-- Every object of the table is found under each of its keys of this index. -/
def Mirrors (i : Index) (t : E.Txn) : Prop :=
  ∀ obj, E.Holds t obj → ∀ key ∈ S.keys i obj, (key, obj) ∈ E.entries t i

theorem empty_not_holds (obj : Obj) : ¬ E.Holds E.empty obj := by
  rintro ⟨pk, _, member⟩
  rw [E.entries_empty] at member
  exact List.not_mem_nil member

theorem empty_consistent : E.Consistent E.empty where
  indexable obj held := absurd held (E.empty_not_holds obj)
  filed i key obj member := by
    rw [E.entries_empty] at member
    exact absurd member List.not_mem_nil

theorem empty_mirrors (i : Index) : E.Mirrors i E.empty :=
  fun obj held => absurd held (E.empty_not_holds obj)

variable {E}

theorem Holds.unique {t : E.Txn} {a b : Obj} (left : E.Holds t a) (right : E.Holds t b)
    (same : S.primaryKey a = S.primaryKey b) : a = b := by
  obtain ⟨pk, keyA, atA⟩ := left
  obtain ⟨pk', keyB, atB⟩ := right
  have equal : pk = pk' := Except.ok.inj (keyA.symm.trans (same.trans keyB))
  subst equal
  exact E.entries_functional atA atB

/-- In a consistent table a primary entry sits under its object's own key. -/
theorem Consistent.primaryKey {t : E.Txn} (consistent : E.Consistent t) {pk : Bytes} {obj : Obj}
    (member : (pk, obj) ∈ E.entries t S.primary) : S.primaryKey obj = .ok pk := by
  obtain ⟨⟨pk', key, _⟩, filed⟩ := consistent.filed _ _ _ member
  rw [S.keys_primary key, List.mem_singleton] at filed
  rw [filed, key]

section Insert

variable {t : E.Txn} {obj : Obj} (consistent : E.Consistent t) (indexable : S.Indexable obj)

include consistent indexable

theorem insert_entries {pk : Bytes} (key : S.primaryKey obj = .ok pk) :
    (E.insert t obj).2 = .ok () ∧ ∀ i key o, (key, o) ∈ E.entries (E.insert t obj).1 i ↔
      key ∈ S.keys i obj ∧ o = obj ∨ key ∉ S.keys i obj ∧ (key, o) ∈ E.entries t i ∧
        ∀ old, (pk, old) ∈ E.entries t S.primary → key ∉ S.keys i old :=
  E.insert_ok t obj pk key indexable fun old member =>
    consistent.indexable old ⟨pk, consistent.primaryKey member, member⟩

theorem insert_returns : (E.insert t obj).2 = .ok () := by
  obtain ⟨pk, key⟩ := indexable.primary
  exact (insert_entries consistent indexable key).1

theorem insert_holds (o : Obj) : E.Holds (E.insert t obj).1 o ↔
    o = obj ∨ E.Holds t o ∧ S.primaryKey o ≠ S.primaryKey obj := by
  obtain ⟨pk, key⟩ := indexable.primary
  have entries := (insert_entries consistent indexable key).2 S.primary
  simp only [S.keys_primary key, List.mem_singleton] at entries
  constructor
  · rintro ⟨pk', key', member⟩
    rcases (entries pk' o).mp member with ⟨_, same⟩ | ⟨other, old, _⟩
    · exact Or.inl same
    · refine Or.inr ⟨⟨pk', key', old⟩, ?_⟩
      rw [key, key']
      exact fun same => other (Except.ok.inj same)
  · rintro (same | ⟨⟨pk', key', member⟩, other⟩)
    · subst o
      exact ⟨pk, key, (entries pk obj).mpr (Or.inl ⟨rfl, rfl⟩)⟩
    · have different : pk' ≠ pk := by
        intro same
        exact other (key'.trans (by rw [same, key]))
      refine ⟨pk', key', (entries pk' o).mpr (Or.inr ⟨different, member, ?_⟩)⟩
      intro old atOld
      rw [S.keys_primary (consistent.primaryKey atOld), List.mem_singleton]
      exact different

theorem insert_consistent : E.Consistent (E.insert t obj).1 where
  indexable o held := by
    rcases (insert_holds consistent indexable o).mp held with same | ⟨old, _⟩
    · exact same ▸ indexable
    · exact consistent.indexable o old
  filed i key o member := by
    obtain ⟨pk, keyObj⟩ := indexable.primary
    rcases ((insert_entries consistent indexable keyObj).2 i key o).mp member with
      ⟨filed, same⟩ | ⟨_, old, kept⟩
    · subst o
      exact ⟨(insert_holds consistent indexable obj).mpr (Or.inl rfl), filed⟩
    · obtain ⟨held, filed⟩ := consistent.filed _ _ _ old
      refine ⟨(insert_holds consistent indexable o).mpr (Or.inr ⟨held, ?_⟩), filed⟩
      intro same
      obtain ⟨pk', key', atO⟩ := held
      have equal : pk' = pk := Except.ok.inj (key'.symm.trans (same.trans keyObj))
      exact kept o (equal ▸ atO) filed

/-- Once every object is filed under its keys, an insert keeps it so exactly when
none of the new keys is a key of another object. -/
theorem insert_mirrors_iff {i : Index} (mirrors : E.Mirrors i t) : E.Mirrors i (E.insert t obj).1 ↔
    ∀ o, E.Holds t o → S.primaryKey o ≠ S.primaryKey obj → ∀ key ∈ S.keys i o, key ∉ S.keys i obj := by
  obtain ⟨pk, keyObj⟩ := indexable.primary
  have entries := (insert_entries consistent indexable keyObj).2 i
  have holds := insert_holds consistent indexable
  constructor
  · intro mirrors' o held other key filed shared
    have atO := mirrors' o ((holds o).mpr (Or.inr ⟨held, other⟩)) key filed
    have atObj := mirrors' obj ((holds obj).mpr (Or.inl rfl)) key shared
    exact other (congrArg S.primaryKey (E.entries_functional atO atObj))
  · intro apart o held key filed
    refine (entries key o).mpr ?_
    rcases (holds o).mp held with same | ⟨old, other⟩
    · exact Or.inl ⟨same ▸ filed, same⟩
    · refine Or.inr ⟨apart o old other key filed, mirrors o old key filed, ?_⟩
      intro replaced atReplaced shared
      have atKey := consistent.primaryKey atReplaced
      have same := E.entries_functional (mirrors o old key filed) (mirrors replaced ⟨pk, atKey, atReplaced⟩ key shared)
      exact other (same ▸ atKey.trans keyObj.symm)

theorem insert_mirrors {i : Index} (separated : S.Separated i) (mirrors : E.Mirrors i t) :
    E.Mirrors i (E.insert t obj).1 :=
  (insert_mirrors_iff consistent indexable mirrors).mpr fun o _ other key filed shared =>
    other (separated o obj key filed shared)

end Insert

section Delete

variable {t : E.Txn} {obj : Obj} (consistent : E.Consistent t) (held : E.Holds t obj)

include consistent held

theorem delete_entries : (E.delete t obj).2 = .ok () ∧ ∀ i key o,
    (key, o) ∈ E.entries (E.delete t obj).1 i ↔ (key, o) ∈ E.entries t i ∧ key ∉ S.keys i obj := by
  obtain ⟨pk, key, member⟩ := held
  exact E.delete_ok t obj pk obj key member key (consistent.indexable obj ⟨pk, key, member⟩)

theorem delete_holds (o : Obj) : E.Holds (E.delete t obj).1 o ↔
    E.Holds t o ∧ S.primaryKey o ≠ S.primaryKey obj := by
  have entries := (delete_entries consistent held).2 S.primary
  obtain ⟨pk, key, _⟩ := held
  simp only [S.keys_primary key, List.mem_singleton] at entries
  constructor
  · rintro ⟨pk', key', member⟩
    obtain ⟨old, other⟩ := (entries pk' o).mp member
    exact ⟨⟨pk', key', old⟩, fun same => other (Except.ok.inj (key'.symm.trans (same.trans key)))⟩
  · rintro ⟨⟨pk', key', member⟩, other⟩
    refine ⟨pk', key', (entries pk' o).mpr ⟨member, fun same => other ?_⟩⟩
    rw [key', key, same]

theorem delete_consistent : E.Consistent (E.delete t obj).1 where
  indexable o kept := consistent.indexable o ((delete_holds consistent held o).mp kept).1
  filed i key o member := by
    obtain ⟨old, gone⟩ := ((delete_entries consistent held).2 i key o).mp member
    obtain ⟨heldO, filed⟩ := consistent.filed _ _ _ old
    refine ⟨(delete_holds consistent held o).mpr ⟨heldO, fun same => ?_⟩, filed⟩
    exact gone (heldO.unique held same ▸ filed)

/-- Objects that are filed under their keys have no key in common, so that deleting
one leaves the others filed. -/
theorem delete_mirrors {i : Index} (mirrors : E.Mirrors i t) : E.Mirrors i (E.delete t obj).1 := by
  intro o kept key filed
  obtain ⟨old, other⟩ := (delete_holds consistent held o).mp kept
  have atO := mirrors o old key filed
  refine ((delete_entries consistent held).2 i key o).mpr ⟨atO, fun shared => other ?_⟩
  exact congrArg S.primaryKey (E.entries_functional atO (mirrors obj held key shared))

end Delete

section Scan

variable {t : E.Txn} {i : Index} {bound : Bytes}

theorem mem_reverseLowerBound {obj : Obj} :
    obj ∈ E.reverseLowerBound t i bound ↔ ∃ key, (key, obj) ∈ E.entries t i ∧ key ≤ bound := by
  simp [E.reverseLowerBound_eq]

/-- A scan of an index that files each object under at most one key meets
every primary key at most once. -/
theorem reverseLowerBound_distinct (consistent : E.Consistent t)
    (single : ∀ obj, ∀ key ∈ S.keys i obj, ∀ key' ∈ S.keys i obj, key = key') :
    (E.reverseLowerBound t i bound).Pairwise (fun a b => S.primaryKey a ≠ S.primaryKey b) := by
  rw [E.reverseLowerBound_eq, List.pairwise_map, List.pairwise_reverse]
  refine ((E.entries_sorted t i).imp_of_mem ?_).sublist List.filter_sublist
  rintro ⟨keyA, a⟩ ⟨keyB, b⟩ memberA memberB less same
  obtain ⟨heldA, filedA⟩ := consistent.filed _ _ _ memberA
  obtain ⟨heldB, filedB⟩ := consistent.filed _ _ _ memberB
  have equal := heldA.unique heldB same.symm
  subst equal
  have sameKey := single a keyA filedA keyB filedB
  exact List.lt_irrefl keyA (sameKey ▸ less)

end Scan

variable (E) in
/-- Delete the objects one after the other, stopping at the first failure. -/
def deleteAll : E.Txn → List Obj → E.Txn × Except Fault Unit
  | t, [] => (t, .ok ())
  | t, obj :: rest =>
    match E.delete t obj with
    | (t', .ok ()) => deleteAll t' rest
    | (t', .error fault) => (t', .error fault)

theorem deleteAll_subset (objs : List Obj) (t : E.Txn) (i : Index) :
    ∀ entry ∈ E.entries (E.deleteAll t objs).1 i, entry ∈ E.entries t i := by
  induction objs generalizing t with
  | nil => exact fun _ member => member
  | cons obj rest ih =>
    intro entry member
    apply E.delete_subset t obj i entry
    unfold deleteAll at member
    split at member
    · rename_i equal
      rw [equal]
      exact ih _ entry member
    · rename_i equal
      rw [equal]
      exact member

/-- Deleting objects of the table with distinct primary keys never fails and
removes exactly these objects. -/
theorem deleteAll_spec {objs : List Obj} {t : E.Txn} (consistent : E.Consistent t)
    (held : ∀ obj ∈ objs, E.Holds t obj)
    (distinct : objs.Pairwise (fun a b => S.primaryKey a ≠ S.primaryKey b)) :
    (E.deleteAll t objs).2 = .ok () ∧ E.Consistent (E.deleteAll t objs).1 ∧
      (∀ o, E.Holds (E.deleteAll t objs).1 o ↔ E.Holds t o ∧ o ∉ objs) ∧
      ∀ i, E.Mirrors i t → E.Mirrors i (E.deleteAll t objs).1 := by
  induction objs generalizing t with
  | nil => simp [deleteAll, consistent]
  | cons obj rest ih =>
    have heldObj := held obj List.mem_cons_self
    have returned := (delete_entries consistent heldObj).1
    have holds := delete_holds consistent heldObj
    obtain ⟨others, distinctRest⟩ := List.pairwise_cons.mp distinct
    have step : E.deleteAll t (obj :: rest) = E.deleteAll (E.delete t obj).1 rest := by
      rw [deleteAll]
      split
      · rename_i equal
        rw [equal]
      · rename_i equal
        rw [equal] at returned
        simp at returned
    have heldRest : ∀ o ∈ rest, E.Holds (E.delete t obj).1 o := fun o member =>
      (holds o).mpr ⟨held o (List.mem_cons_of_mem _ member), (others o member).symm⟩
    obtain ⟨done, consistent', holds', mirrors'⟩ :=
      ih (delete_consistent consistent heldObj) heldRest distinctRest
    rw [step]
    refine ⟨done, consistent', fun o => ?_, fun i mirrors =>
      mirrors' i (delete_mirrors consistent heldObj mirrors)⟩
    rw [holds', holds, List.mem_cons, not_or]
    constructor
    · rintro ⟨⟨heldO, other⟩, notRest⟩
      exact ⟨heldO, fun same => other (congrArg S.primaryKey same), notRest⟩
    · rintro ⟨heldO, notObj, notRest⟩
      exact ⟨⟨heldO, fun same => notObj (heldO.unique heldObj same)⟩, notRest⟩

end Engine

end MultiIndex
