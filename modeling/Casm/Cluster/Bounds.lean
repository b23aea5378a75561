import Casm.Cluster.Query

namespace Casm.Query
open MultiIndex
open Routing

variable {E : Engine schema} {b58 : Bytes → Bytes} {q : TableQuery E} {c : Column} {v : Bytes}

/-- The records that `LowerBound` goes through, with the values that they are filed for. -/
def above (q : TableQuery E) (c : Column) (v : Bytes) : List (DeadlineRecord × Bytes) :=
  E.scan q.tx c fun key => v ≤ key

/-- The records that `ReverseLowerBound` goes through. -/
def below (q : TableQuery E) (c : Column) (v : Bytes) : List (DeadlineRecord × Bytes) :=
  (E.scan q.tx c fun key => key ≤ v).reverse

/-- From an index on, a query goes through the values that are at least the bound in
ascending order, its reverse through those that are at most the bound in descending
order; together they have the whole column, and twice only the values equal to
the bound. -/
structure Ordered (b58 : Bytes → Bytes) (q : TableQuery E) (ix : Index) (c : Column) (v : Bytes) : Prop where
  forward : startingFrom ix (q.snapshot b58) = .ok (Iter.result ((above q c v).map Prod.fst))
  backward : startingFrom ix (reversed (q.snapshot b58)) = .ok (Iter.result ((below q c v).map Prod.fst))
  aboveOnce : (above q c v).Nodup
  belowOnce : (below q c v).Nodup
  mem_above : ∀ r x, (r, x) ∈ above q c v ↔ q.Has c r x ∧ v ≤ x
  mem_below : ∀ r x, (r, x) ∈ below q c v ↔ q.Has c r x ∧ x ≤ v
  ascending : (above q c v).Pairwise fun a b => a.2 ≤ b.2
  descending : (below q c v).Pairwise fun a b => b.2 ≤ a.2
  covers : ∀ r x, q.Has c r x → (r, x) ∈ above q c v ∨ (r, x) ∈ below q c v
  overlap : ∀ r x, (r, x) ∈ above q c v ∧ (r, x) ∈ below q c v ↔ q.Has c r x ∧ x = v

/-- Every value has its entry, and the keys lie to the bound and to each other as
the values do. -/
structure KeysFollow (q : TableQuery E) (c : Column) (v : Bytes) : Prop where
  filed : ∀ r x, q.Has c r x → E.Filed q.tx c r x
  lower : ∀ r x, q.Has c r x → (v ≤ schema.fileKey c r x ↔ v ≤ x)
  upper : ∀ r x, q.Has c r x → (schema.fileKey c r x ≤ v ↔ x ≤ v)
  order : ∀ r x r' x', q.Has c r x → q.Has c r' x' → schema.fileKey c r x < schema.fileKey c r' x' →
    (v ≤ x ∧ v ≤ x') ∨ (x ≤ v ∧ x' ≤ v) → x ≤ x'

theorem mem_above_iff {r : DeadlineRecord} {x : Bytes} :
    (r, x) ∈ above q c v ↔ E.Filed q.tx c r x ∧ v ≤ schema.fileKey c r x := by
  rw [above, Engine.mem_scan q.consistent, decide_eq_true_eq]

theorem mem_below_iff {r : DeadlineRecord} {x : Bytes} :
    (r, x) ∈ below q c v ↔ E.Filed q.tx c r x ∧ schema.fileKey c r x ≤ v := by
  rw [below, List.mem_reverse, Engine.mem_scan q.consistent, decide_eq_true_eq]

theorem startingFrom_eq {ix : Index} (resolves : ix.getIndexValue b58 = .ok (c, v)) :
    startingFrom ix (q.snapshot b58) = .ok (Iter.result ((above q c v).map Prod.fst)) := by
  have bounded : (q.snapshot b58).lowerBound ix = .ok ((above q c v).map Prod.fst) :=
    (TableQuery.iterate_eq resolves).trans (congrArg Except.ok Engine.lowerBound_eq)
  rw [startingFrom, bounded]
  rfl

theorem startingFrom_reversed_eq {ix : Index} (resolves : ix.getIndexValue b58 = .ok (c, v)) :
    startingFrom ix (reversed (q.snapshot b58)) = .ok (Iter.result ((below q c v).map Prod.fst)) := by
  have bounded : (reversed (q.snapshot b58)).lowerBound ix = .ok ((below q c v).map Prod.fst) :=
    (TableQuery.iterate_eq resolves).trans (congrArg Except.ok Engine.reverseLowerBound_eq_scan)
  rw [startingFrom, bounded]
  rfl

theorem KeysFollow.mem_above (follow : KeysFollow q c v) {r : DeadlineRecord} {x : Bytes} :
    (r, x) ∈ above q c v ↔ q.Has c r x ∧ v ≤ x := by
  rw [mem_above_iff]
  constructor
  · intro ⟨filed, bounded⟩
    have has := TableQuery.has_of_filed filed
    exact ⟨has, (follow.lower r x has).mp bounded⟩
  · intro ⟨has, bounded⟩
    exact ⟨follow.filed r x has, (follow.lower r x has).mpr bounded⟩

theorem KeysFollow.mem_below (follow : KeysFollow q c v) {r : DeadlineRecord} {x : Bytes} :
    (r, x) ∈ below q c v ↔ q.Has c r x ∧ x ≤ v := by
  rw [mem_below_iff]
  constructor
  · intro ⟨filed, bounded⟩
    have has := TableQuery.has_of_filed filed
    exact ⟨has, (follow.upper r x has).mp bounded⟩
  · intro ⟨has, bounded⟩
    exact ⟨follow.filed r x has, (follow.upper r x has).mpr bounded⟩

theorem KeysFollow.ascending (follow : KeysFollow q c v) : (above q c v).Pairwise fun a b => a.2 ≤ b.2 := by
  refine (Engine.scan_sorted q.consistent).imp_of_mem ?_
  intro a b memberA memberB less
  obtain ⟨hasA, boundA⟩ := follow.mem_above.mp memberA
  obtain ⟨hasB, boundB⟩ := follow.mem_above.mp memberB
  exact follow.order _ _ _ _ hasA hasB less (Or.inl ⟨boundA, boundB⟩)

theorem KeysFollow.descending (follow : KeysFollow q c v) : (below q c v).Pairwise fun a b => b.2 ≤ a.2 := by
  rw [below, List.pairwise_reverse]
  refine (Engine.scan_sorted q.consistent).imp_of_mem ?_
  intro a b memberA memberB less
  obtain ⟨hasA, boundA⟩ := follow.mem_below.mp (List.mem_reverse.mpr memberA)
  obtain ⟨hasB, boundB⟩ := follow.mem_below.mp (List.mem_reverse.mpr memberB)
  exact follow.order _ _ _ _ hasA hasB less (Or.inr ⟨boundA, boundB⟩)

theorem KeysFollow.ordered (follow : KeysFollow q c v) {ix : Index}
    (resolves : ix.getIndexValue b58 = .ok (c, v)) : Ordered b58 q ix c v where
  forward := startingFrom_eq resolves
  backward := startingFrom_reversed_eq resolves
  aboveOnce := Engine.scan_nodup q.consistent
  belowOnce := List.nodup_reverse.mpr (Engine.scan_nodup q.consistent)
  mem_above _ _ := follow.mem_above
  mem_below _ _ := follow.mem_below
  ascending := follow.ascending
  descending := follow.descending
  covers r x has := by
    rcases List.le_total v x with isAbove | isBelow
    · exact Or.inl (follow.mem_above.mpr ⟨has, isAbove⟩)
    · exact Or.inr (follow.mem_below.mpr ⟨has, isBelow⟩)
  overlap r x := by
    rw [follow.mem_above, follow.mem_below]
    constructor
    · intro ⟨⟨has, isAbove⟩, _, isBelow⟩
      exact ⟨has, List.le_antisymm isBelow isAbove⟩
    · intro ⟨has, same⟩
      rw [same]
      exact ⟨⟨same ▸ has, List.le_refl v⟩, same ▸ has, List.le_refl v⟩

theorem Ordered.keysFollow {ix : Index} (ordered : Ordered b58 q ix c v) : KeysFollow q c v := by
  have filed : ∀ r x, q.Has c r x → E.Filed q.tx c r x := by
    intro r x has
    rcases ordered.covers r x has with isAbove | isBelow
    · exact (mem_above_iff.mp isAbove).1
    · exact (mem_below_iff.mp isBelow).1
  refine ⟨filed, fun r x has => ?_, fun r x has => ?_, fun r x r' x' has has' less sides => ?_⟩
  · have member := ordered.mem_above r x
    rw [mem_above_iff, and_iff_right has, and_iff_right (filed r x has)] at member
    exact member
  · have member := ordered.mem_below r x
    rw [mem_below_iff, and_iff_right has, and_iff_right (filed r x has)] at member
    exact member
  · rcases sides with ⟨isAbove, isAbove'⟩ | ⟨isBelow, isBelow'⟩
    · exact rel_of_sorted (Engine.scan_sorted q.consistent) ordered.ascending
        ((ordered.mem_above r x).mpr ⟨has, isAbove⟩) ((ordered.mem_above r' x').mpr ⟨has', isAbove'⟩) less
    · have descending := ordered.descending
      rw [below, List.pairwise_reverse] at descending
      exact rel_of_sorted (Engine.scan_sorted q.consistent) descending
        (List.mem_reverse.mp ((ordered.mem_below r x).mpr ⟨has, isBelow⟩))
        (List.mem_reverse.mp ((ordered.mem_below r' x').mpr ⟨has', isBelow'⟩)) less

/-- A query from an index on and its reverse are ordered and complete exactly when
the keys of the column follow its values. -/
theorem ordered_iff_keysFollow (q : TableQuery E) {ix : Index} {c : Column} {v : Bytes}
    (resolves : ix.getIndexValue b58 = .ok (c, v)) : Ordered b58 q ix c v ↔ KeysFollow q c v :=
  ⟨fun ordered => ordered.keysFollow, fun follow => follow.ordered resolves⟩

/-- The keys of a unique index are the values themselves, so only lost entries matter. -/
theorem keysFollow_of_unique (unique : schema.unique c = true) (filed : ∀ r x, q.Has c r x → E.Filed q.tx c r x) :
    KeysFollow q c v := by
  have isValue (r : DeadlineRecord) (x : Bytes) : schema.fileKey c r x = x := Schema.fileKey_of_unique unique
  refine ⟨filed, fun r x _ => by rw [isValue], fun r x _ => by rw [isValue], fun r x r' x' _ _ less _ => ?_⟩
  rw [isValue, isValue] at less
  exact List.le_of_lt less

/-- The id column is always in order. -/
theorem keysFollow_id (q : TableQuery E) (v : Bytes) : KeysFollow q .id v := by
  refine keysFollow_of_unique rfl fun r x has => ?_
  have mirrors : E.Mirrors .id q.tx := Engine.primary_mirrors
  exact mirrors.filed has.1 has.2

/-- An index with the ID of a peer. -/
def peerBytesIndex (p : Bytes) : Index :=
  { allIndex with peerBytes := some (.ok p), record_methods := Index.no_methods }

/-- The bound is between the two peers. -/
theorem ordered_iff_keysFollow_between : (peerBytesIndex [1, 0]).getIndexValue id = .ok (.id, [1, 0]) ∧
    (above otherHosts .id [1, 0]).map Prod.snd = [[2]] ∧ (below otherHosts .id [1, 0]).map Prod.snd = [[1]] ∧
    Ordered id otherHosts (peerBytesIndex [1, 0]) .id [1, 0] := by
  have resolves : (peerBytesIndex [1, 0]).getIndexValue id = .ok (.id, [1, 0]) := rfl
  exact ⟨resolves, by decide, by decide,
    (ordered_iff_keysFollow otherHosts resolves).mpr (keysFollow_id otherHosts [1, 0])⟩

/-- The key of the host that equals the bound is above it, so the reverse leaves it out. -/
theorem reverse_misses_bound :
    startingFrom (hostIndex [97] false) (reversed (oneHost.snapshot id)) = .ok (Iter.result []) ∧
      oneHost.Has .host (hostRecord 1 [97]) [97] ∧ ¬ Ordered id oneHost (hostIndex [97] false) .host [97] := by
  have has : oneHost.Has .host (hostRecord 1 [97]) [97] := ⟨⟨[1], rfl, by decide⟩, by decide⟩
  refine ⟨rfl, has, fun ordered => ?_⟩
  have missed := (ordered.mem_below _ _).mpr ⟨has, List.le_refl _⟩
  revert missed
  decide

end Casm.Query
