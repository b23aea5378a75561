import Casm.Lib.IndexScan
import Casm.Lib.Machine
import Casm.Routing.ExpiringMap

namespace Casm.Routing
open MultiIndex

theorem mem_values_server {r : DeadlineRecord} {x : Bytes} :
    x ∈ schema.values .server r ↔ x = marshalText r.record.server :=
  List.mem_singleton

theorem mem_values_host {r : DeadlineRecord} {x : Bytes} :
    x ∈ schema.values .host r ↔ r.hostBytes = .ok x ∧ x ≠ [] := by
  have values : schema.fromObject .host r = hostnameIndexer r := rfl
  rw [Schema.values, values, hostnameIndexer]
  cases r.hostBytes with
  | error fault => simp [Bind.bind, Except.bind]
  | ok name =>
    cases name with
    | nil => simp [Bind.bind, Except.bind, pure, Except.pure, eq_comm]
    | cons byte rest =>
      simp only [Bind.bind, Except.bind, pure, Except.pure, List.length_cons, ne_eq, Nat.add_eq_zero_iff,
        one_ne_zero, and_false, not_false_eq_true, if_true, List.mem_singleton, Except.ok.injEq]
      constructor
      · intro same
        exact ⟨same.symm, by rw [same]; exact List.cons_ne_nil _ _⟩
      · intro found
        exact found.1.symm

theorem mapM_id_eq_ok {fields : List (Except Fault Bytes)} {vals : List Bytes} :
    fields.mapM id = .ok vals ↔ fields = vals.map .ok := by
  induction fields generalizing vals with
  | nil => cases vals <;> simp [pure, Except.pure]
  | cons field rest ih =>
    rw [List.mapM_cons, Except.bind_eq_ok]
    constructor
    · intro ⟨value, isField, further⟩
      obtain ⟨values, isRest, result⟩ := Except.bind_eq_ok.mp further
      cases result
      rw [List.map_cons, ← ih.mp isRest]
      exact congrArg (· :: rest) isField
    · intro equal
      cases vals with
      | nil => cases equal
      | cons value values =>
        rw [List.map_cons, List.cons.injEq] at equal
        refine ⟨value, equal.1, Except.bind_eq_ok.mpr ⟨values, ih.mpr equal.2, rfl⟩⟩

theorem mem_values_metadata {r : DeadlineRecord} {x : Bytes} : x ∈ schema.values .metadata r ↔
    ∃ vals : List Bytes, r.record.metadata = .ok (vals.map .ok) ∧ x ∈ vals := by
  have values : schema.fromObject .metadata r = metaIndexer r := rfl
  rw [Schema.values, values, metaIndexer]
  cases found : r.record.metadata with
  | error fault => simp [Bind.bind, Except.bind]
  | ok fields =>
    by_cases empty : fields.length = 0
    · have isNil : fields = [] := List.eq_nil_of_length_eq_zero empty
      simp [isNil, Bind.bind, Except.bind, pure, Except.pure]
    · simp only [Bind.bind, Except.bind, empty, if_false, Except.ok.injEq, ← mapM_id_eq_ok]
      cases fields.mapM id with
      | error fault => simp
      | ok vals => simp [pure, Except.pure]

variable {E : Engine schema} {b58 : Bytes → Bytes} {table : Table E}

namespace Table

/-- Every record of the table is found by a lookup of its server ID, of its host and
of each of its metadata fields, and what a lookup finds is a record of the table. -/
structure Indexed (table : Table E) : Prop where
  server : ∀ r, table.Stores r → r ∈ E.get table.records .server (marshalText r.record.server)
  host : ∀ r name, table.Stores r → r.hostBytes = .ok name → name ≠ [] → r ∈ E.get table.records .host name
  metadata : ∀ r fields field, table.Stores r → r.record.metadata = .ok fields → .ok field ∈ fields →
    r ∈ E.get table.records .metadata field
  stored : ∀ i v r, r ∈ E.get table.records i v → table.Stores r

/-- The record that is accepted can be read, and it has no key in common with the
record of another peer. -/
def Apart (b58 : Bytes → Bytes) (table : Table E) : Call → Prop
  | .upsert rec => valid b58 table.records rec = .ok true → rec.Readable ∧
      ∀ r, table.Stores r → schema.primaryKey r ≠ schema.primaryKey (table.withDeadline rec) →
        ∀ i ∈ [Column.server, .host, .metadata], ∀ key ∈ schema.keys i r,
          key ∉ schema.keys i (table.withDeadline rec)
  | .advance _ => True

/-- A table as its calls change it. -/
def machine (b58 : Bytes → Bytes) (t0 : Int) : Machine (Table E) Call where
  start := new t0
  step table c := some (table.call b58 c).1

/-- No index has lost or kept an entry that it should not. -/
structure Filed (table : Table E) : Prop where
  consistent : E.Consistent table.records
  mirrors : ∀ i, E.Mirrors i table.records

theorem Filed.indexed (filed : table.Filed) : table.Indexed := by
  have found {i : Column} {r : DeadlineRecord} {x : Bytes} (stored : table.Stores r)
      (isValue : x ∈ schema.values i r) : r ∈ E.get table.records i x := by
    have isFiled := (filed.mirrors i).filed stored isValue
    rw [Engine.get_eq, List.mem_map]
    refine ⟨(r, x), (Engine.mem_scan filed.consistent).mpr ⟨isFiled, ?_⟩, rfl⟩
    rw [decide_eq_true_eq]
    exact List.prefix_append x _
  constructor
  · intro r stored
    exact found stored (mem_values_server.mpr rfl)
  · intro r name stored isHost nonempty
    exact found stored (mem_values_host.mpr ⟨isHost, nonempty⟩)
  · intro r fields field stored isMeta member
    have readable := indexable_iff.mp (filed.consistent.indexable r stored)
    obtain ⟨fields', isMeta', readableFields⟩ := readable.metadata
    rw [isMeta, Except.ok.injEq] at isMeta'
    obtain ⟨vals, isVals⟩ := mapM_id_ok_iff.mpr readableFields
    have equal := mapM_id_eq_ok.mp isVals
    refine found stored (mem_values_metadata.mpr ⟨vals, by rw [isMeta, isMeta', ← equal], ?_⟩)
    rw [isMeta', equal] at member
    obtain ⟨value, isValue, same⟩ := List.mem_map.mp member
    rw [← Except.ok.inj same]
    exact isValue
  · intro i v r member
    obtain ⟨⟨key, _⟩, inFilter, same⟩ := List.mem_map.mp member
    subst same
    exact (filed.consistent.filed i key _ (List.mem_of_mem_filter inFilter)).1

theorem filed_new (t0 : Int) : (new t0 : Table E).Filed where
  consistent := E.empty_consistent
  mirrors := E.empty_mirrors

theorem upsert_cases (b58 : Bytes → Bytes) (table : Table E) (rec : Record) : (table.upsert b58 rec).1 = table ∨
    valid b58 table.records rec = .ok true ∧ (table.upsert b58 rec).1 =
      { table with records := (E.insert table.records (table.withDeadline rec)).1 } := by
  unfold upsert
  split
  · exact Or.inl rfl
  · exact Or.inl rfl
  · rename_i accepted
    refine Or.inr ⟨accepted, ?_⟩
    rw [write_eq]
    split
    · rename_i equal
      exact (congrArg Prod.fst equal).symm
    · rename_i equal
      exact (congrArg Prod.fst equal).symm

theorem advance_cases (table : Table E) (t : Int) : (table.advance t).1.records = table.records ∨
    (table.advance t).1.records =
      (E.deleteAll table.records (E.reverseLowerBound table.records .ttl (timeToBytes t))).1 := by
  unfold advance
  split
  · split
    · rw [dropExpired_eq]
      exact Or.inr rfl
    · exact Or.inl rfl
  · exact Or.inl rfl

/-- The records of the ttl index are deleted without leaving anything behind. -/
theorem deleteExpired_spec (consistent : E.Consistent table.records) (t : Int) :
    let kept := (E.deleteAll table.records (E.reverseLowerBound table.records .ttl (timeToBytes t))).1
    E.Consistent kept ∧ (∀ r, E.Holds kept r → E.Holds table.records r) ∧
      ∀ i, E.Mirrors i table.records → E.Mirrors i kept := by
  have held : ∀ r ∈ E.reverseLowerBound table.records .ttl (timeToBytes t), E.Holds table.records r := by
    intro r member
    obtain ⟨key, isEntry, _⟩ := Engine.mem_reverseLowerBound.mp member
    exact (consistent.filed _ _ _ isEntry).1
  have distinct : (E.reverseLowerBound table.records .ttl (timeToBytes t)).Pairwise
      (fun a b => schema.primaryKey a ≠ schema.primaryKey b) :=
    Engine.reverseLowerBound_distinct consistent keys_ttl_single
  obtain ⟨_, consistent', holds, mirrors⟩ := Engine.deleteAll_spec consistent held distinct
  exact ⟨consistent', fun r stored => ((holds r).mp stored).1, mirrors⟩

theorem Filed.advance (filed : table.Filed) (t : Int) : (table.advance t).1.Filed := by
  obtain ⟨consistent, _, mirrors⟩ := deleteExpired_spec filed.consistent t
  rcases table.advance_cases t with same | dropped
  · exact ⟨same ▸ filed.consistent, same ▸ filed.mirrors⟩
  · exact ⟨dropped ▸ consistent, dropped ▸ fun i => mirrors i (filed.mirrors i)⟩

/-- An accepted record leaves the indexes in order exactly when it is apart. -/
theorem Filed.insert_iff (filed : table.Filed) {rec : Record} (readable : rec.Readable) :
    Filed { table with records := (E.insert table.records (table.withDeadline rec)).1 } ↔
      ∀ r, table.Stores r → schema.primaryKey r ≠ schema.primaryKey (table.withDeadline rec) →
        ∀ i ∈ [Column.server, .host, .metadata], ∀ key ∈ schema.keys i r,
          key ∉ schema.keys i (table.withDeadline rec) := by
  have indexable : schema.Indexable (table.withDeadline rec) := indexable_iff.mpr readable
  have mirrors (i : Column) := Engine.insert_mirrors_iff filed.consistent indexable (filed.mirrors i)
  constructor
  · intro after r stored other i _ key isKey
    exact (mirrors i).mp (after.mirrors i) r stored other key isKey
  · intro apart
    refine ⟨Engine.insert_consistent filed.consistent indexable, fun i => ?_⟩
    cases i with
    | id => exact Engine.primary_mirrors
    | ttl => exact Engine.insert_mirrors filed.consistent indexable ttl_separated (filed.mirrors .ttl)
    | server => exact (mirrors .server).mpr fun r stored other => apart r stored other .server (by simp)
    | host => exact (mirrors .host).mpr fun r stored other => apart r stored other .host (by simp)
    | metadata => exact (mirrors .metadata).mpr fun r stored other => apart r stored other .metadata (by simp)

theorem Filed.call (filed : table.Filed) {c : Call} (apart : table.Apart b58 c) : (table.call b58 c).1.Filed := by
  cases c with
  | advance t => exact filed.advance t
  | upsert rec =>
    show (table.upsert b58 rec).1.Filed
    rcases table.upsert_cases b58 rec with same | ⟨accepted, inserted⟩
    · rw [same]
      exact filed
    · obtain ⟨readable, others⟩ := apart accepted
      rw [inserted]
      exact (filed.insert_iff readable).mpr others

/-- As long as every record that is accepted is apart from those of other peers,
every lookup finds what it should. -/
theorem indexed_of_apart (b58 : Bytes → Bytes) (t0 : Int) {calls : List Call}
    (apart : (machine b58 t0 : Machine (Table E) Call).Throughout (fun _ table c => table.Apart b58 c) calls) :
    (machine b58 t0 : Machine (Table E) Call).Always (fun _ table => table.Indexed) calls := by
  have filed : (machine b58 t0 : Machine (Table E) Call).Always (fun _ table => table.Filed) calls := by
    refine Machine.always_of_throughout (Machine.invariant_true _) (filed_new t0) ?_ apart
    intro _ table c table' _ isFiled isApart step
    cases step
    exact isFiled.call isApart
  exact fun before table isBefore reached => (filed before table isBefore reached).indexed

end Table

/-- A record of the peer, with its ID as the id key. -/
def plainRecord (peer : UInt8) (server : UInt64) (host : Bytes) (fields : List Bytes) : Record where
  server := server
  peer := [peer]
  seq := .ok 1
  ttl := 10
  metadata := .ok (fields.map .ok)
  peerIndex := some (.ok [peer])
  hostIndex := some (.ok host)

theorem plainRecord_readable (peer : UInt8) (server : UInt64) (host : Bytes) (fields : List Bytes) :
    (plainRecord peer server host fields).Readable where
  peer := ⟨[peer], rfl⟩
  host := ⟨host, rfl⟩
  metadata := by
    refine ⟨fields.map .ok, rfl, fun field member => ?_⟩
    obtain ⟨bytes, _, same⟩ := List.mem_map.mp member
    exact ⟨bytes, same.symm⟩

abbrev plainMachine : Machine (Table (sortedEngine schema)) Call :=
  Table.machine id 0

theorem indexed_of_apart_two : plainMachine.Always (fun _ table => table.Indexed)
    [.upsert (plainRecord 1 7 [97] [[98]]), .upsert (plainRecord 2 8 [97] [[98]])] := by
  refine Table.indexed_of_apart id 0 ?_
  refine Machine.throughout_concat.mpr ⟨Machine.throughout_concat.mpr ⟨Machine.throughout_nil, ?_⟩, ?_⟩
  · intro table _ reached _ _
    cases reached
    exact ⟨plainRecord_readable .., fun r stored => absurd stored (Engine.empty_not_holds _ r)⟩
  · intro table _ reached _ _
    cases reached
    refine ⟨plainRecord_readable .., fun r ⟨pk, _, member⟩ _ => ?_⟩
    have isFirst : (pk, r) = ([1], ⟨plainRecord 1 7 [97] [[98]], 10⟩) := List.mem_singleton.mp member
    cases isFirst
    decide

/-- Two peers with one server ID: the entry of the first is overwritten. -/
theorem lost_by_equal_server : ∃ table, plainMachine.run
    [.upsert (plainRecord 1 7 [] []), .upsert (plainRecord 2 7 [] [])] = some table ∧ ¬ table.Indexed := by
  refine ⟨_, rfl, fun indexed => ?_⟩
  have lost := indexed.server ⟨plainRecord 1 7 [] [], 10⟩ ⟨[1], rfl, by decide⟩
  revert lost
  decide

end Casm.Routing
