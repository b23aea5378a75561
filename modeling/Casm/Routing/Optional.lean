import Casm.Routing.Indexes

namespace Casm.Routing
open MultiIndex

/-- No accessor of the record fails. The fast indexes need not be there. -/
structure Record.Answers (rec : Record) : Prop where
  seq : ∃ n, rec.seq = .ok n
  metadata : ∃ fields, rec.metadata = .ok fields ∧ ∀ field ∈ fields, ∃ bytes, field = .ok bytes
  peerIndex : ∀ index, rec.peerIndex = some index → ∃ key, index = .ok key
  hostIndex : ∀ index, rec.hostIndex = some index → ∃ name, index = .ok name

variable {E : Engine schema} {b58 : Bytes → Bytes} {table : Table E} {rec : Record}

namespace Table

/-- A call with a record that answers, which does not panic. -/
def Quiet (b58 : Bytes → Bytes) (table : Table E) (c : Call) : Prop :=
  (∀ rec, c = .upsert rec → rec.Answers) ∧ (table.call b58 c).2.NoPanic

/-- The tables that such calls lead to. -/
def Reached (b58 : Bytes → Bytes) (table : Table E) : Prop :=
  ∃ t0 calls, (machine b58 t0).Throughout (fun _ (t : Table E) c => t.Quiet b58 c) calls ∧
    (machine b58 t0).run calls = some table

/-- What `Upsert` should do with a record. The record that is stored has its key from
the wrapper; `valid` takes the key from the record itself. -/
structure Serves (b58 : Bytes → Bytes) (table : Table E) (rec : Record) : Prop where
  quiet : (table.upsert b58 rec).2.NoPanic
  sameKey : ∃ key, idFromArgs b58 rec = .ok key ∧ (table.withDeadline rec).peerBytes = .ok key
  found : (table.upsert b58 rec).2 = .ok true → ∀ key, idFromArgs b58 rec = .ok key →
    (key, table.withDeadline rec) ∈ E.entries (table.upsert b58 rec).1.records .id ∧
      (key ≠ [] → E.first (table.upsert b58 rec).1.records .id key = some (table.withDeadline rec))

/-- The indexes lead to records that `valid` can compare with. -/
structure Sound (table : Table E) : Prop where
  consistent : E.Consistent table.records
  seq : ∀ r, E.Holds table.records r → ∃ n, r.record.seq = .ok n

theorem sound_new (t0 : Int) : (new t0 : Table E).Sound where
  consistent := E.empty_consistent
  seq r held := absurd held (E.empty_not_holds r)

theorem upsert_of_valid (accepted : valid b58 table.records rec = .ok true) :
    table.upsert b58 rec = ({ table with records := (E.insert table.records (table.withDeadline rec)).1 },
      ((E.insert table.records (table.withDeadline rec)).2.mapError Fault.raise).map fun _ => true) := by
  simp only [upsert, accepted, write_eq]
  cases (E.insert table.records (table.withDeadline rec)).2 with
  | ok _ => rfl
  | error fault => rfl

theorem upsert_of_not_valid {result : Except Fault Bool} (checked : valid b58 table.records rec = result)
    (refused : result ≠ .ok true) : table.upsert b58 rec = (table, result) := by
  unfold upsert
  rw [checked]
  cases result with
  | error fault => rfl
  | ok accepted =>
    cases accepted with
    | false => rfl
    | true => exact absurd rfl refused

/-- An insert that fails is a panic of `Upsert`. -/
theorem indexable_of_quiet (accepted : valid b58 table.records rec = .ok true)
    (quiet : (table.upsert b58 rec).2.NoPanic) : schema.Indexable (table.withDeadline rec) := by
  by_contra notIndexable
  obtain ⟨fault, failed⟩ := E.insert_fault table.records _ notIndexable
  rw [upsert_of_valid accepted, failed] at quiet
  cases fault with
  | error msg => exact quiet msg rfl
  | panic msg => exact quiet msg rfl

theorem Sound.upsert (sound : table.Sound) (answers : rec.Answers) (quiet : (table.upsert b58 rec).2.NoPanic) :
    (table.upsert b58 rec).1.Sound := by
  by_cases accepted : valid b58 table.records rec = .ok true
  · have indexable := indexable_of_quiet accepted quiet
    rw [upsert_of_valid accepted]
    refine ⟨Engine.insert_consistent sound.consistent indexable, fun r held => ?_⟩
    rcases (Engine.insert_holds sound.consistent indexable r).mp held with rfl | ⟨old, -⟩
    · exact answers.seq
    · exact sound.seq r old
  · rw [upsert_of_not_valid rfl accepted]
    exact sound

theorem Sound.advance (sound : table.Sound) (t : Int) : (table.advance t).1.Sound := by
  obtain ⟨consistent, stored, _⟩ := deleteExpired_spec sound.consistent t
  rcases table.advance_cases t with same | dropped
  · exact ⟨same ▸ sound.consistent, same ▸ sound.seq⟩
  · refine ⟨dropped ▸ consistent, fun r kept => ?_⟩
    rw [dropped] at kept
    exact sound.seq r (stored r kept)

theorem Reached.sound (reached : table.Reached b58) : table.Sound := by
  obtain ⟨t0, calls, quiet, run⟩ := reached
  have always : (machine b58 t0 : Machine (Table E) Call).Always (fun _ table => table.Sound) calls := by
    refine Machine.always_of_throughout (Machine.invariant_true _) (sound_new t0) ?_ quiet
    intro _ table c table' _ sound isQuiet step
    cases step
    cases c with
    | advance t => exact sound.advance t
    | upsert rec =>
      refine sound.upsert (isQuiet.1 rec rfl) fun msg failed => ?_
      exact isQuiet.2 msg (congrArg (Except.map some) failed)
  exact always calls table List.prefix_rfl run

theorem reached_new (t0 : Int) : (new t0 : Table E).Reached b58 :=
  ⟨t0, [], Machine.throughout_nil, rfl⟩

theorem valid_of_none {key : Bytes} {tx : E.Txn} (atKey : idFromArgs b58 rec = .ok key)
    (missing : E.first tx .id key = none) : valid b58 tx rec = .ok true := by
  simp only [valid, atKey, missing]

/-- Nothing that `valid` reads fails. -/
theorem Sound.valid_returns (sound : table.Sound) (answers : rec.Answers) {key : Bytes}
    (atKey : idFromArgs b58 rec = .ok key) : ∃ accepted, valid b58 table.records rec = .ok accepted := by
  cases found : E.first table.records .id key with
  | none => exact ⟨true, valid_of_none atKey found⟩
  | some old =>
    obtain ⟨key', member⟩ := E.first_mem _ _ _ _ found
    obtain ⟨n, oldSeq⟩ := sound.seq old (sound.consistent.filed _ _ _ member).1
    obtain ⟨n', seq⟩ := answers.seq
    simp only [valid, atKey, found, oldSeq, seq, Except.ok_bind]
    split
    · exact ⟨_, rfl⟩
    · exact ⟨_, rfl⟩

theorem Sound.serves (sound : table.Sound) (answers : rec.Answers) (peer : rec.peerIndex.isSome)
    (host : rec.hostIndex.isSome) : table.Serves b58 rec := by
  obtain ⟨index, isIndex⟩ := Option.isSome_iff_exists.mp peer
  obtain ⟨key, rfl⟩ := answers.peerIndex index isIndex
  obtain ⟨nameIndex, isName⟩ := Option.isSome_iff_exists.mp host
  obtain ⟨name, rfl⟩ := answers.hostIndex nameIndex isName
  have atKey : idFromArgs b58 rec = .ok key := by
    rw [idFromArgs, isIndex]
    rfl
  have stored : (table.withDeadline rec).peerBytes = .ok key := DeadlineRecord.peerBytes_eq_ok.mpr isIndex
  have indexable : schema.Indexable (table.withDeadline rec) :=
    indexable_iff.mpr ⟨⟨key, isIndex⟩, ⟨name, isName⟩, answers.metadata⟩
  have primary : schema.primaryKey (table.withDeadline rec) = .ok key := (schema_primaryKey _).trans stored
  obtain ⟨returned, entries⟩ := Engine.insert_entries sound.consistent indexable primary
  obtain ⟨accepted, checked⟩ := sound.valid_returns answers atKey
  cases accepted with
  | false =>
    have result := upsert_of_not_valid checked (fun same => by cases same)
    refine ⟨?_, ⟨key, atKey, stored⟩, fun inserted => ?_⟩
    · rw [result]
      exact Except.noPanic_ok false
    · rw [result] at inserted
      cases inserted
  | true =>
    have result := upsert_of_valid checked
    rw [returned] at result
    refine ⟨?_, ⟨key, atKey, stored⟩, fun _ key' atKey' => ?_⟩
    · rw [result]
      exact Except.noPanic_ok true
    · cases atKey.symm.trans atKey'
      have isKey : key ∈ schema.keys .id (table.withDeadline rec) := by
        have keys := schema.keys_primary primary
        rw [show schema.primary = Column.id from rfl] at keys
        rw [keys]
        exact List.mem_singleton_self key
      have filed := (entries .id key (table.withDeadline rec)).mpr (.inl ⟨isKey, rfl⟩)
      rw [result]
      exact ⟨filed, fun nonempty => (E.first_unique _ _ _ _ rfl nonempty).mpr filed⟩

/-- In a new table every record is accepted. -/
theorem valid_new (t0 : Int) {key : Bytes} (atKey : idFromArgs b58 rec = .ok key) :
    valid b58 (new t0 : Table E).records rec = .ok true := by
  cases found : E.first (new t0 : Table E).records .id key with
  | none => exact valid_of_none atKey found
  | some old =>
    obtain ⟨key', member⟩ := E.first_mem _ _ _ _ found
    rw [new, E.entries_empty] at member
    cases member

variable (E b58) in
/-- Tables serve a record whose accessors do not fail exactly if it has both fast
indexes: the wrapper offers them for every record, and panics where the record has
none. -/
theorem optional_indexes_iff (rec : Record) (answers : rec.Answers) :
    (∀ table : Table E, table.Reached b58 → table.Serves b58 rec) ↔ rec.peerIndex.isSome ∧ rec.hostIndex.isSome := by
  constructor
  · intro all
    have serves := all (new 0) (reached_new 0)
    obtain ⟨key, atKey, -⟩ := serves.sameKey
    have readable := indexable_iff.mp (indexable_of_quiet (valid_new 0 atKey) serves.quiet)
    obtain ⟨_, isIndex⟩ := readable.peer
    obtain ⟨_, isName⟩ := readable.host
    exact ⟨Option.isSome_of_eq_some isIndex, Option.isSome_of_eq_some isName⟩
  · rintro ⟨peer, host⟩ table reached
    exact reached.sound.serves answers peer host

end Table

theorem plainRecord_answers (peer : UInt8) (server : UInt64) (host : Bytes) (fields : List Bytes) :
    (plainRecord peer server host fields).Answers where
  seq := ⟨1, rfl⟩
  metadata := (plainRecord_readable peer server host fields).metadata
  peerIndex _ same := ⟨[peer], (Option.some.inj same).symm⟩
  hostIndex _ same := ⟨host, (Option.some.inj same).symm⟩

theorem optional_indexes_iff_plain :
    (plainRecord 1 1 [97] []).Answers ∧
      ∀ table : Table (sortedEngine schema), table.Reached id → table.Serves id (plainRecord 1 1 [97] []) :=
  ⟨plainRecord_answers 1 1 [97] [], (Table.optional_indexes_iff _ id _ (plainRecord_answers 1 1 [97] [])).mpr ⟨rfl, rfl⟩⟩

/-- A record with plain accessors only. -/
def accessorRecord : Record :=
  { plainRecord 1 1 [97] [] with peerIndex := none, hostIndex := none }

theorem accessorRecord_panics :
    accessorRecord.Answers ∧ (Table.new 0 : Table (sortedEngine schema)).Reached id ∧
      ¬ (Table.new 0 : Table (sortedEngine schema)).Serves id accessorRecord ∧
      ∃ msg, ((Table.new 0 : Table (sortedEngine schema)).upsert id accessorRecord).2 = .error (.panic msg) := by
  refine ⟨⟨⟨1, rfl⟩, (plainRecord_readable 1 1 [97] []).metadata, fun _ same => ?_, fun _ same => ?_⟩,
    Table.reached_new 0, fun serves => ?_, _, rfl⟩
  · cases same
  · cases same
  · obtain ⟨key, -, stored⟩ := serves.sameKey
    cases stored

end Casm.Routing
