import Casm.Lib.MultiIndex

namespace MultiIndex

variable {Index Obj : Type}

/-- In a list that is sorted by keys, a smaller key stands before a larger one. -/
theorem rel_of_sorted {α : Type} {key : α → Bytes} {R : α → α → Prop} {l : List α}
    (sorted : l.Pairwise fun a b => key a < key b) (related : l.Pairwise R) {a b : α} (memberA : a ∈ l)
    (memberB : b ∈ l) (less : key a < key b) : R a b := by
  induction l with
  | nil => cases memberA
  | cons first rest ih =>
    obtain ⟨firstLess, restSorted⟩ := List.pairwise_cons.mp sorted
    obtain ⟨firstRelated, restRelated⟩ := List.pairwise_cons.mp related
    rcases List.mem_cons.mp memberA with isFirstA | inRestA
    · rcases List.mem_cons.mp memberB with isFirstB | inRestB
      · rw [isFirstA, isFirstB] at less
        exact absurd less (List.lt_irrefl _)
      · rw [isFirstA]
        exact firstRelated b inRestB
    · rcases List.mem_cons.mp memberB with isFirstB | inRestB
      · rw [isFirstB] at less
        exact absurd (List.lt_trans less (firstLess a inRestA)) (List.lt_irrefl _)
      · exact ih restSorted restRelated inRestA inRestB

namespace Schema

variable (S : Schema Index Obj)

/-- The values of an object under an index. -/
def values (i : Index) (obj : Obj) : List Bytes :=
  match S.fromObject i obj with
  | .ok (some vals) => vals
  | _ => []

/-- What the key of an object has after the value. -/
def tail (i : Index) (obj : Obj) : Bytes :=
  if S.unique i then [] else
    match S.primaryKey obj with
    | .ok pk => pk
    | .error _ => []

/-- The key that an object is filed under for one of its values. -/
def fileKey (i : Index) (obj : Obj) (value : Bytes) : Bytes :=
  value ++ S.tail i obj

/-- The value that a key of the object is for. -/
def valueOf (i : Index) (obj : Obj) (key : Bytes) : Bytes :=
  key.take (key.length - (S.tail i obj).length)

variable {S} {i : Index} {obj : Obj} {value key : Bytes}

theorem valueOf_fileKey : S.valueOf i obj (S.fileKey i obj value) = value := by
  have length : (S.fileKey i obj value).length - (S.tail i obj).length = value.length := by
    rw [fileKey, List.length_append]
    omega
  rw [valueOf, length, fileKey, List.take_left]

theorem tail_of_unique (unique : S.unique i = true) : S.tail i obj = [] := by
  rw [tail, if_pos unique]

theorem fileKey_of_unique (unique : S.unique i = true) : S.fileKey i obj value = value := by
  rw [fileKey, tail_of_unique unique, List.append_nil]

theorem tail_of_primaryKey {pk : Bytes} (notUnique : S.unique i = false) (primary : S.primaryKey obj = .ok pk) :
    S.tail i obj = pk := by
  rw [tail, notUnique, primary]
  rfl

theorem mem_keys_iff {pk : Bytes} (primary : S.primaryKey obj = .ok pk) :
    key ∈ S.keys i obj ↔ ∃ value ∈ S.values i obj, key = S.fileKey i obj value := by
  cases found : S.fromObject i obj with
  | error fault => simp [keys, values, primary, found]
  | ok vals =>
    cases vals with
    | none => simp [keys, values, primary, found]
    | some vals =>
      cases unique : S.unique i with
      | true => simp [keys, values, primary, found, unique, fileKey_of_unique unique]
      | false =>
        simp only [keys, values, primary, found, unique, fileKey, tail_of_primaryKey unique primary,
          Bool.false_eq_true, if_false, List.mem_map]
        exact exists_congr fun _ => and_congr_right fun _ => eq_comm

end Schema

namespace Engine

variable {S : Schema Index Obj} (E : Engine S)

/-- The entries of an index whose keys pass the test, in key order, each as the
object and the value that it is filed for. -/
def scan (t : E.Txn) (i : Index) (test : Bytes → Bool) : List (Obj × Bytes) :=
  ((E.entries t i).filter fun entry => test entry.1).map fun entry => (entry.2, S.valueOf i entry.2 entry.1)

/-- `Get` goes through the keys that start with the bytes it is given. -/
def get (t : E.Txn) (i : Index) (v : Bytes) : List Obj :=
  ((E.entries t i).filter fun entry => v <+: entry.1).map Prod.snd

def getReverse (t : E.Txn) (i : Index) (v : Bytes) : List Obj :=
  ((E.entries t i).filter fun entry => v <+: entry.1).reverse.map Prod.snd

/-- `LowerBound` goes through the keys from the bound upwards. -/
def lowerBound (t : E.Txn) (i : Index) (bound : Bytes) : List Obj :=
  ((E.entries t i).filter fun entry => bound ≤ entry.1).map Prod.snd

/-- The object is in the table with the value, and its entry for the value is there. -/
structure Filed (t : E.Txn) (i : Index) (obj : Obj) (value : Bytes) : Prop where
  holds : E.Holds t obj
  isValue : value ∈ S.values i obj
  entry : (S.fileKey i obj value, obj) ∈ E.entries t i

variable {E} {t : E.Txn} {i : Index} {test : Bytes → Bool} {obj : Obj} {value v : Bytes}

theorem get_eq : E.get t i v = (E.scan t i fun key => v <+: key).map Prod.fst := by
  rw [get, scan, List.map_map]
  rfl

theorem lowerBound_eq : E.lowerBound t i v = (E.scan t i fun key => v ≤ key).map Prod.fst := by
  rw [lowerBound, scan, List.map_map]
  rfl

theorem reverseLowerBound_eq_scan :
    E.reverseLowerBound t i v = (E.scan t i fun key => key ≤ v).reverse.map Prod.fst := by
  rw [E.reverseLowerBound_eq, scan, ← List.map_reverse, List.map_map]
  rfl

/-- In a consistent table an entry is for a value of an object of the table. -/
theorem Consistent.entry_filed (consistent : E.Consistent t) {key : Bytes} (member : (key, obj) ∈ E.entries t i) :
    ∃ value, E.Filed t i obj value ∧ key = S.fileKey i obj value := by
  obtain ⟨held, filed⟩ := consistent.filed i key obj member
  obtain ⟨pk, primary, _⟩ := held
  obtain ⟨value, isValue, isKey⟩ := (Schema.mem_keys_iff primary).mp filed
  exact ⟨value, ⟨⟨pk, primary, ‹_›⟩, isValue, isKey ▸ member⟩, isKey⟩

theorem mem_scan (consistent : E.Consistent t) :
    (obj, value) ∈ E.scan t i test ↔ E.Filed t i obj value ∧ test (S.fileKey i obj value) = true := by
  rw [scan, List.mem_map]
  constructor
  · intro ⟨⟨key, o⟩, member, equal⟩
    obtain ⟨isEntry, passes⟩ := List.mem_filter.mp member
    obtain ⟨value', filed, isKey⟩ := consistent.entry_filed isEntry
    simp only [Prod.mk.injEq] at equal
    obtain ⟨sameObj, sameValue⟩ := equal
    subst sameObj isKey
    rw [Schema.valueOf_fileKey] at sameValue
    subst sameValue
    exact ⟨filed, passes⟩
  · intro ⟨filed, passes⟩
    exact ⟨_, List.mem_filter.mpr ⟨filed.entry, passes⟩, by rw [Schema.valueOf_fileKey]⟩

/-- A scan goes through its objects and values in the order of their keys. -/
theorem scan_sorted (consistent : E.Consistent t) :
    (E.scan t i test).Pairwise fun a b => S.fileKey i a.1 a.2 < S.fileKey i b.1 b.2 := by
  rw [scan, List.pairwise_map]
  refine ((E.entries_sorted t i).sublist List.filter_sublist).imp_of_mem ?_
  intro a b memberA memberB less
  obtain ⟨valueA, _, keyA⟩ := consistent.entry_filed (List.mem_of_mem_filter memberA)
  obtain ⟨valueB, _, keyB⟩ := consistent.entry_filed (List.mem_of_mem_filter memberB)
  simp only [keyA, keyB, Schema.valueOf_fileKey]
  rw [← keyA, ← keyB]
  exact less

theorem scan_nodup (consistent : E.Consistent t) : (E.scan t i test).Nodup := by
  rw [List.nodup_iff_pairwise_ne]
  refine (scan_sorted consistent).imp ?_
  intro a b less same
  rw [same] at less
  exact List.lt_irrefl _ less

/-- Where every object is filed, the filed values are the values. -/
theorem Mirrors.filed (mirrors : E.Mirrors i t) (held : E.Holds t obj) (isValue : value ∈ S.values i obj) :
    E.Filed t i obj value := by
  obtain ⟨pk, primary, member⟩ := held
  have held : E.Holds t obj := ⟨pk, primary, member⟩
  exact ⟨held, isValue, mirrors obj held _ ((Schema.mem_keys_iff primary).mpr ⟨value, isValue, rfl⟩)⟩

/-- The objects of the primary index are never lost. -/
theorem primary_mirrors : E.Mirrors S.primary t := by
  intro obj held key filed
  obtain ⟨pk, primary, member⟩ := held
  rw [S.keys_primary primary, List.mem_singleton] at filed
  rw [filed]
  exact member

/-- The primary index has the objects of the table under their keys. -/
theorem mem_get_primary (consistent : E.Consistent t) :
    obj ∈ E.get t S.primary v ↔ E.Holds t obj ∧ ∃ key, S.primaryKey obj = .ok key ∧ v <+: key := by
  simp only [get, List.mem_map, List.mem_filter, Prod.exists, exists_eq_right, decide_eq_true_eq]
  constructor
  · rintro ⟨key, member, starts⟩
    exact ⟨(consistent.filed _ _ _ member).1, key, consistent.primaryKey member, starts⟩
  · rintro ⟨⟨key, isKey, member⟩, key', isKey', starts⟩
    cases isKey.symm.trans isKey'
    exact ⟨key, member, starts⟩

/-- It is gone through in the order of the keys. -/
theorem get_primary_sorted (consistent : E.Consistent t) : (E.get t S.primary v).Pairwise fun a b =>
    ∀ keyA keyB, S.primaryKey a = .ok keyA → S.primaryKey b = .ok keyB → keyA < keyB := by
  rw [get, List.pairwise_map]
  refine ((E.entries_sorted t S.primary).sublist List.filter_sublist).imp_of_mem ?_
  intro a b memberA memberB less keyA keyB isKeyA isKeyB
  have sameA := consistent.primaryKey (List.mem_of_mem_filter memberA)
  have sameB := consistent.primaryKey (List.mem_of_mem_filter memberB)
  cases sameA.symm.trans isKeyA
  cases sameB.symm.trans isKeyB
  exact less

/-- The first object has the least key. -/
theorem head_get_primary_le (consistent : E.Consistent t) {first : Obj} {keyFirst key : Bytes}
    (isHead : (E.get t S.primary v).head? = some first) (member : obj ∈ E.get t S.primary v)
    (isFirst : S.primaryKey first = .ok keyFirst) (isKey : S.primaryKey obj = .ok key) : keyFirst ≤ key := by
  have sorted := get_primary_sorted (v := v) consistent
  obtain ⟨rest, rows⟩ := List.head?_eq_some_iff.mp isHead
  rw [rows] at member sorted
  rcases List.mem_cons.mp member with rfl | later
  · cases isFirst.symm.trans isKey
    exact List.le_refl _
  · exact List.le_of_lt ((List.pairwise_cons.mp sorted).1 obj later keyFirst key isFirst isKey)

/-- An object comes before those whose keys extend its own. -/
theorem head_get_primary (consistent : E.Consistent t) (held : E.Holds t obj) (isKey : S.primaryKey obj = .ok v) :
    (E.get t S.primary v).head? = some obj := by
  have member : obj ∈ E.get t S.primary v := (mem_get_primary consistent).mpr ⟨held, v, isKey, List.prefix_rfl⟩
  have sorted := get_primary_sorted (v := v) consistent
  cases rows : E.get t S.primary v with
  | nil =>
    rw [rows] at member
    cases member
  | cons first rest =>
    rw [rows] at member sorted
    rcases List.mem_cons.mp member with rfl | later
    · rfl
    · obtain ⟨-, key, isFirst, starts⟩ := (mem_get_primary (v := v) consistent).mp (rows ▸ List.mem_cons_self)
      have less := (List.pairwise_cons.mp sorted).1 obj later key v isFirst isKey
      exact absurd less (List.not_lt.mpr starts.le)

end Engine

end MultiIndex
