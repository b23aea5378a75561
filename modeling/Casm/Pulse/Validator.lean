import Casm.Lib.SortedEngine
import Casm.Routing.ExpiringMap

namespace Casm.Pulse
open MultiIndex Routing

/-- A decoded heartbeat. Reading the root is not enough to know that its
pointers are sound, so the host and metadata accessors may still fail. -/
structure Heartbeat where
  ttl : UInt32
  server : UInt64
  host : Except Fault Bytes
  metadata : Except Fault (List (Except Fault Bytes))

/-- Ten seconds, in nanoseconds. -/
def defaultTTL : Int := 10 * 10 ^ 9

def Heartbeat.duration (h : Heartbeat) : Int :=
  if 10 ^ 6 * (h.ttl.toNat : Int) = 0 then defaultTTL else 10 ^ 6 * (h.ttl.toNat : Int)

/-- The parts of a pubsub message that the validator reads. -/
structure Message where
  sender : Bytes
  seqno : Bytes
  data : Bytes

inductive ValidationResult where
  | accept | reject | ignore
  deriving DecidableEq, Repr

/-- `binary.BigEndian.Uint64`: the first eight bytes, a panic if there are fewer. -/
def bigEndianUint64 (bytes : Bytes) : Except Fault UInt64 :=
  if bytes.length < 8 then .error (.panic "runtime error: index out of range")
  else .ok (UInt64.ofNat ((bytes.take 8).foldl (fun value b => 256 * value + b.toNat) 0))

section Validator

variable (decode : Bytes → Except String Heartbeat) (b58 : Bytes → Bytes)

/-- The methods of `routingRecord`. The two optional index interfaces are both
there: `PeerBytes` encodes the sender, `HostBytes` is the heartbeat's own. -/
def routingRecord (m : Message) (h : Heartbeat) : Record where
  server := h.server
  peer := m.sender
  seq := bigEndianUint64 m.seqno
  ttl := h.duration
  metadata := h.metadata
  peerIndex := some (.ok (b58 m.sender))
  hostIndex := some h.host

/-- `record`: unpack the message and read the root of the heartbeat. -/
def readRecord (m : Message) : Except String Record := do
  return routingRecord b58 m (← decode m.data)

theorem readRecord_of_decode {m : Message} {h : Heartbeat} (decoded : decode m.data = .ok h) :
    readRecord decode b58 m = .ok (routingRecord b58 m h) := by
  rw [readRecord, decoded]
  rfl

theorem readRecord_of_error {m : Message} {msg : String} (failed : decode m.data = .error msg) :
    readRecord decode b58 m = .error msg := by
  rw [readRecord, failed]
  rfl

variable {E : Engine schema}

/-- The function that `NewValidator` returns, with the table it leaves behind. -/
def validate (table : Table E) (m : Message) : Table E × Except Fault ValidationResult :=
  match readRecord decode b58 m with
  | .error _ => (table, .ok .reject)
  | .ok rec =>
    match table.upsert b58 rec with
    | (table', .ok true) => (table', .ok .accept)
    | (table', .ok false) => (table', .ok .ignore)
    | (table', .error fault) => (table', .error fault)

/-- The tables that validated messages and ticks of the clock lead to, none of
which panicked. -/
inductive Reachable (t0 : Int) : Table E → Prop
  | new : Reachable t0 (Table.new t0)
  | validate {table table' m result} : Reachable t0 table →
      Pulse.validate decode b58 table m = (table', .ok result) → Reachable t0 table'
  | advance {table table' t} : Reachable t0 table → table.advance t = (table', .ok ()) →
      Reachable t0 table'

/-- The validator returns, and leaves the table alone unless it accepts. -/
def Safe (table : Table E) (m : Message) : Prop :=
  ∃ result, (validate decode b58 table m).2 = .ok result ∧
    (result ≠ .accept → (validate decode b58 table m).1 = table)

/-- The accessors behind the host and the metadata index succeed. -/
def Heartbeat.Readable (h : Heartbeat) : Prop :=
  (∃ name, h.host = .ok name) ∧
    ∃ fields, h.metadata = .ok fields ∧ ∀ field ∈ fields, ∃ bytes, field = .ok bytes

/-- The acceptance rule of `Table.valid` between two records. -/
def prefers (old rec : Record) : Bool :=
  if old.server = rec.server then old.seqNo < rec.seqNo else old.seqNo > rec.seqNo

/-- Nothing in the message or in the record it is compared with blows up: both
sequence numbers have eight bytes if they are compared, and the heartbeat can
be indexed if it is to be stored. -/
def Tolerates (table : Table E) (m : Message) : Prop :=
  ∀ h, decode m.data = .ok h →
    match E.first table.records .id (b58 m.sender) with
    | none => h.Readable
    | some old => (∃ n, old.record.seq = .ok n) ∧ 8 ≤ m.seqno.length ∧
        (prefers old.record (routingRecord b58 m h) = true → h.Readable)

variable {decode b58}

theorem bigEndianUint64_ok_iff {bytes : Bytes} :
    (∃ n, bigEndianUint64 bytes = .ok n) ↔ 8 ≤ bytes.length := by
  unfold bigEndianUint64
  split
  · rename_i short
    simp [not_le.mpr short]
  · rename_i long
    simp [not_lt.mp long]

theorem routingRecord_readable {m : Message} {h : Heartbeat} :
    (routingRecord b58 m h).Readable ↔ h.Readable := by
  constructor
  · intro readable
    obtain ⟨name, host⟩ := readable.host
    exact ⟨⟨name, Option.some.inj host⟩, readable.metadata⟩
  · intro readable
    obtain ⟨⟨name, host⟩, fields⟩ := readable
    exact ⟨⟨b58 m.sender, rfl⟩, ⟨name, congrArg some host⟩, fields⟩

/-- Whatever the id index leads to went through all five indexers once. -/
def Indexed (table : Table E) : Prop :=
  ∀ key r, (key, r) ∈ E.entries table.records .id → schema.Indexable r

theorem indexed_new (t0 : Int) : Indexed (Table.new t0 : Table E) := by
  intro key r member
  rw [Table.new, E.entries_empty] at member
  exact absurd member List.not_mem_nil

theorem Indexed.of_subset {table table' : Table E} (inv : Indexed table)
    (subset : ∀ entry ∈ E.entries table'.records .id, entry ∈ E.entries table.records .id) :
    Indexed table' :=
  fun key r member => inv key r (subset _ member)

/-- Storing a record succeeds exactly when its accessors do: the record it
replaces was indexed before, so its old entries can be computed again. -/
theorem Indexed.write_ok_iff {table : Table E} (inv : Indexed table) {rec : Record} :
    (table.write rec).2 = .ok () ↔ rec.Readable := by
  rw [Table.write_eq]
  constructor
  · intro returned
    by_contra unreadable
    have rejected : ¬ schema.Indexable (table.withDeadline rec) := fun indexable =>
      unreadable (indexable_iff.mp indexable)
    obtain ⟨fault, failed⟩ := E.insert_fault table.records _ rejected
    rw [failed] at returned
    cases returned
  · intro readable
    have indexable : schema.Indexable (table.withDeadline rec) := indexable_iff.mpr readable
    obtain ⟨pk, key⟩ := indexable.primary
    have inserted := (E.insert_ok table.records _ pk key indexable fun old member => inv pk old member).1
    rw [inserted]
    rfl

theorem Indexed.write {table : Table E} (inv : Indexed table) {rec : Record}
    (returned : (table.write rec).2 = .ok ()) : Indexed (table.write rec).1 := by
  have indexable : schema.Indexable (table.withDeadline rec) :=
    indexable_iff.mpr (inv.write_ok_iff.mp returned)
  obtain ⟨pk, key⟩ := indexable.primary
  have entries := (E.insert_ok table.records _ pk key indexable fun old member => inv pk old member).2 .id
  rw [Table.write_eq]
  intro key' r member
  rcases (entries key' r).mp member with ⟨_, fresh⟩ | ⟨_, old, _⟩
  · rw [fresh]
    exact indexable
  · exact inv key' r old

theorem Indexed.advance {table : Table E} (inv : Indexed table) (t : Int) :
    Indexed (table.advance t).1 := by
  unfold Table.advance
  split
  · split
    · rw [Table.dropExpired_eq]
      exact inv.of_subset (Engine.deleteAll_subset _ _ Column.id)
    · exact inv
  · exact inv

/-- What a call that stores or keeps a record can have done. -/
theorem upsert_cases {table table' : Table E} {rec : Record} {accepted : Bool}
    (step : table.upsert b58 rec = (table', .ok accepted)) :
    Table.valid b58 table.records rec = .ok accepted ∧
      (accepted = false ∧ table' = table ∨ accepted = true ∧ table.write rec = (table', .ok ())) := by
  unfold Table.upsert at step
  split at step
  · cases step
  · rename_i stale
    cases step
    exact ⟨stale, Or.inl ⟨rfl, rfl⟩⟩
  · rename_i fresh
    split at step
    · rename_i stored
      cases step
      exact ⟨fresh, Or.inr ⟨rfl, stored⟩⟩
    · cases step

theorem validate_cases {table table' : Table E} {m : Message} {result : ValidationResult}
    (step : validate decode b58 table m = (table', .ok result)) :
    table' = table ∧ result ≠ .accept ∨
      ∃ rec, table.write rec = (table', .ok ()) ∧ result = .accept := by
  unfold validate at step
  split at step
  · cases step
    exact Or.inl ⟨rfl, nofun⟩
  · split at step
    · rename_i returned
      cases step
      obtain ⟨_, ⟨stale, _⟩ | ⟨_, stored⟩⟩ := upsert_cases returned
      · cases stale
      · exact Or.inr ⟨_, stored, rfl⟩
    · rename_i returned
      cases step
      obtain ⟨_, ⟨_, same⟩ | ⟨fresh, _⟩⟩ := upsert_cases returned
      · exact Or.inl ⟨same, nofun⟩
      · cases fresh
    · cases step

theorem Reachable.indexed {t0 : Int} {table : Table E} (reach : Reachable decode b58 t0 table) :
    Indexed table := by
  induction reach with
  | new => exact indexed_new t0
  | validate reach step ih =>
    rcases validate_cases step with ⟨same, _⟩ | ⟨rec, stored, _⟩
    · rw [same]
      exact ih
    · have kept := ih.write (congrArg Prod.snd stored)
      rwa [stored] at kept
  | @advance _ _ t reach step ih =>
    have kept := ih.advance t
    rwa [step] at kept

/-- A message that decodes is handled safely when the acceptance rule returns
and, if it favours the message, the write goes through. -/
theorem safe_iff_valid {table : Table E} {m : Message} {h : Heartbeat} (decoded : decode m.data = .ok h) :
    Safe decode b58 table m ↔ ∃ fresh,
      Table.valid b58 table.records (routingRecord b58 m h) = .ok fresh ∧
        (fresh = true → (table.write (routingRecord b58 m h)).2 = .ok ()) := by
  unfold Safe validate
  rw [readRecord_of_decode decode b58 decoded]
  simp only [Table.upsert]
  cases checked : Table.valid b58 table.records (routingRecord b58 m h) with
  | error fault => simp
  | ok fresh =>
    cases fresh with
    | false => simp
    | true =>
      rcases table.write (routingRecord b58 m h) with ⟨table', _ | _⟩
      · simp
      · simp

theorem valid_routingRecord {table : Table E} {m : Message} {h : Heartbeat} :
    Table.valid b58 table.records (routingRecord b58 m h) =
      match E.first table.records .id (b58 m.sender) with
      | none => .ok true
      | some old => do
        let oldSeq ← old.record.seq
        let seq ← bigEndianUint64 m.seqno
        if old.record.server = h.server then return oldSeq < seq else return oldSeq > seq :=
  rfl

/-- The rule compares two sequence numbers, and returns if both can be read. -/
theorem valid_of_stored {table : Table E} {m : Message} {h : Heartbeat} {old : DeadlineRecord} {fresh : Bool}
    (stored : E.first table.records .id (b58 m.sender) = some old) :
    Table.valid b58 table.records (routingRecord b58 m h) = .ok fresh ↔
      (∃ n, old.record.seq = .ok n) ∧ 8 ≤ m.seqno.length ∧
        fresh = prefers old.record (routingRecord b58 m h) := by
  have same : (routingRecord b58 m h).seq = bigEndianUint64 m.seqno := rfl
  rw [valid_routingRecord, stored, ← bigEndianUint64_ok_iff]
  simp only [prefers, Record.seqNo, same]
  cases old.record.seq with
  | error fault => simp [Bind.bind, Except.bind]
  | ok oldSeq =>
    cases bigEndianUint64 m.seqno with
    | error fault => simp [Bind.bind, Except.bind]
    | ok seq =>
      simp only [Bind.bind, Except.bind, pure, Except.pure, Except.ok.injEq, exists_eq', true_and]
      rw [eq_comm]
      split <;> simp [routingRecord, *]

/-- On every reachable table, the validator is safe on exactly the messages
that the table tolerates. -/
theorem validate_safe_iff {t0 : Int} {table : Table E} (reach : Reachable decode b58 t0 table)
    (m : Message) : Safe decode b58 table m ↔ Tolerates decode b58 table m := by
  cases decoded : decode m.data with
  | error msg =>
    refine iff_of_true ⟨.reject, ?_, fun _ => ?_⟩ ?_
    · rw [validate, readRecord_of_error decode b58 decoded]
    · rw [validate, readRecord_of_error decode b58 decoded]
    · intro h ok
      rw [decoded] at ok
      cases ok
  | ok h =>
    have tolerates : Tolerates decode b58 table m ↔
        match E.first table.records .id (b58 m.sender) with
        | none => h.Readable
        | some old => (∃ n, old.record.seq = .ok n) ∧ 8 ≤ m.seqno.length ∧
            (prefers old.record (routingRecord b58 m h) = true → h.Readable) := by
      simp only [Tolerates, decoded, Except.ok.injEq, forall_eq']
    rw [safe_iff_valid decoded, tolerates]
    simp only [reach.indexed.write_ok_iff, routingRecord_readable]
    cases stored : E.first table.records .id (b58 m.sender) with
    | none => simp [valid_routingRecord, stored]
    | some old =>
      simp only [valid_of_stored stored]
      constructor
      · intro safe
        obtain ⟨fresh, ⟨oldSeq, long, rule⟩, readable⟩ := safe
        exact ⟨oldSeq, long, fun preferred => readable (rule.trans preferred)⟩
      · intro tolerated
        obtain ⟨oldSeq, long, readable⟩ := tolerated
        exact ⟨_, ⟨oldSeq, long, rfl⟩, readable⟩

end Validator

/-- A well-formed heartbeat, and a message that carries it with a sequence
number of one byte. -/
def plainHeartbeat : Heartbeat where
  ttl := 0
  server := 1
  host := .ok []
  metadata := .ok []

def decodePlain (_ : Bytes) : Except String Heartbeat :=
  .ok plainHeartbeat

def shortMessage : Message where
  sender := [1]
  seqno := [7]
  data := []

def afterShort : Table (sortedEngine schema) :=
  (validate decodePlain id (Table.new 0) shortMessage).1

theorem afterShort_reachable : Reachable decodePlain id 0 afterShort := by
  have accepted : validate decodePlain id (Table.new 0) shortMessage = (afterShort, .ok .accept) := rfl
  exact .validate .new accepted

theorem validate_safe_new :
    Reachable decodePlain id 0 (Table.new 0 : Table (sortedEngine schema)) ∧
      Safe decodePlain id (Table.new 0 : Table (sortedEngine schema)) shortMessage :=
  ⟨.new, (validate_safe_iff .new shortMessage).mpr
    fun _ decoded => Except.ok.inj decoded ▸ ⟨⟨[], rfl⟩, [], rfl, by simp⟩⟩

/-- A first message with a short sequence number is accepted and stored. The
next one from its sender makes the validator read both numbers, and panic. -/
theorem short_seqno_panics :
    Reachable decodePlain id 0 afterShort ∧ ¬ Safe decodePlain id afterShort shortMessage := by
  refine ⟨afterShort_reachable, ?_⟩
  rintro ⟨result, returned, _⟩
  have panics : (validate decodePlain id afterShort shortMessage).2 =
      .error (.panic "runtime error: index out of range") := rfl
  rw [panics] at returned
  cases returned

end Casm.Pulse
