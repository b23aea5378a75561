import Casm.Lib.SortedEngine
import Casm.Routing.Table

namespace Casm.Routing
open MultiIndex

/-- The sequence number of a record whose `Seq` does not panic. -/
def Record.seqNo (rec : Record) : UInt64 :=
  match rec.seq with
  | .ok n => n
  | .error _ => 0

/-- What the routing table is for: a clock and, for each peer, the record
last accepted with the time it expires. -/
structure ExpiringMap where
  clock : Int
  entries : Bytes → Option DeadlineRecord

namespace ExpiringMap

def new (t0 : Int) : ExpiringMap where
  clock := t0
  entries := fun _ => none

def accepts (m : ExpiringMap) (rec : Record) : Bool :=
  match m.entries rec.peer with
  | none => true
  | some old =>
    if old.record.server = rec.server then old.record.seqNo < rec.seqNo
    else rec.seqNo < old.record.seqNo

def put (m : ExpiringMap) (rec : Record) : ExpiringMap where
  clock := m.clock
  entries := Function.update m.entries rec.peer (some ⟨rec, m.clock + rec.ttl⟩)

theorem put_self (m : ExpiringMap) (rec : Record) :
    (m.put rec).entries rec.peer = some ⟨rec, m.clock + rec.ttl⟩ :=
  Function.update_self ..

theorem put_other (m : ExpiringMap) (rec : Record) {p : Bytes} (other : p ≠ rec.peer) :
    (m.put rec).entries p = m.entries p :=
  Function.update_of_ne other ..

theorem put_cases {m : ExpiringMap} {rec : Record} {p : Bytes} {r : DeadlineRecord}
    (found : (m.put rec).entries p = some r) :
    p = rec.peer ∧ r = ⟨rec, m.clock + rec.ttl⟩ ∨ m.entries p = some r := by
  by_cases same : p = rec.peer
  · rw [same, put_self, Option.some.injEq] at found
    exact Or.inl ⟨same, found.symm⟩
  · exact Or.inr ((put_other m rec same).symm.trans found)

def upsert (m : ExpiringMap) (rec : Record) : ExpiringMap × Bool :=
  if m.accepts rec then (m.put rec, true) else (m, false)

def advance (m : ExpiringMap) (t : Int) : ExpiringMap :=
  if t ≤ m.clock then m
  else { clock := t, entries := fun peer => (m.entries peer).filter fun r => ¬ r.deadline < t }

def call (m : ExpiringMap) : Call → ExpiringMap × Option Bool
  | .upsert rec => ((m.upsert rec).1, some (m.upsert rec).2)
  | .advance t => (m.advance t, none)

def run (m : ExpiringMap) : List Call → ExpiringMap × List (Option Bool)
  | [] => (m, [])
  | c :: rest => (((m.call c).1.run rest).1, (m.call c).2 :: ((m.call c).1.run rest).2)

/-- The deadlines and clock values that a run sets, in order. -/
def times (m : ExpiringMap) : List Call → List Int
  | [] => []
  | .upsert rec :: rest =>
    (if m.accepts rec then [m.clock + rec.ttl] else []) ++ (m.upsert rec).1.times rest
  | .advance t :: rest => (if m.clock < t then [t] else []) ++ (m.advance t).times rest

theorem times_cons (m : ExpiringMap) (c : Call) (rest : List Call) :
    m.times (c :: rest) = m.times [c] ++ (m.call c).1.times rest := by
  cases c <;> simp [times, call]

end ExpiringMap

/-- `UnixNano` of the time is a non-negative signed 64-bit number. -/
def Representable (t : Int) : Prop :=
  0 ≤ t ∧ t < 2 ^ 63

instance (t : Int) : Decidable (Representable t) :=
  inferInstanceAs (Decidable (0 ≤ t ∧ t < 2 ^ 63))

/-- How peer IDs become id keys: injectively, and never the empty key. -/
structure IdKeys (idKey : Bytes → Bytes) : Prop where
  injective : ∀ p q, p ≠ [] → q ≠ [] → idKey p = idKey q → p = q
  nonempty : ∀ p, p ≠ [] → idKey p ≠ []

/-- A record of a named peer that implements the fast indexes and whose
accessors do not fail. -/
structure Record.Conforms (idKey : Bytes → Bytes) (rec : Record) : Prop where
  named : rec.peer ≠ []
  peerIndex : rec.peerIndex = some (.ok (idKey rec.peer))
  hostIndex : ∃ name, rec.hostIndex = some (.ok name)
  metadata : ∃ fields, rec.metadata = .ok fields ∧ ∀ field ∈ fields, ∃ bytes, field = .ok bytes
  seq : ∃ n, rec.seq = .ok n

theorem Record.Conforms.readable {idKey : Bytes → Bytes} {rec : Record} (conforms : rec.Conforms idKey) :
    rec.Readable :=
  ⟨⟨_, conforms.peerIndex⟩, conforms.hostIndex, conforms.metadata⟩

theorem Record.Conforms.seq_eq {idKey : Bytes → Bytes} {rec : Record} (conforms : rec.Conforms idKey) :
    rec.seq = .ok rec.seqNo := by
  obtain ⟨n, value⟩ := conforms.seq
  rw [seqNo, value]

/-- The table holds what the map holds: the records of the primary index are
exactly those of the map, the ttl index leads to all of them, and no index
leads anywhere else. -/
structure Represents (idKey : Bytes → Bytes) {E : Engine schema} (table : Table E)
    (m : ExpiringMap) : Prop where
  clock : table.clock = m.clock
  consistent : E.Consistent table.records
  mirrors : E.Mirrors .ttl table.records
  holds : ∀ r, E.Holds table.records r ↔ m.entries r.record.peer = some r
  peers : ∀ p r, m.entries p = some r → r.record.peer = p
  conforms : ∀ p r, m.entries p = some r → r.record.Conforms idKey

namespace Represents

variable {E : Engine schema} {idKey : Bytes → Bytes} {table : Table E} {m : ExpiringMap}

theorem initially (idKey : Bytes → Bytes) (t0 : Int) :
    Represents idKey (Table.new t0 : Table E) (ExpiringMap.new t0) where
  clock := rfl
  consistent := E.empty_consistent
  mirrors := E.empty_mirrors .ttl
  holds r := iff_of_false (E.empty_not_holds r) (by simp [ExpiringMap.new])
  peers p r stored := by simp [ExpiringMap.new] at stored
  conforms p r stored := by simp [ExpiringMap.new] at stored

theorem primaryKey (inv : Represents idKey table m) {r : DeadlineRecord} (held : E.Holds table.records r) :
    schema.primaryKey r = .ok (idKey r.record.peer) := by
  rw [schema_primaryKey, DeadlineRecord.peerBytes_eq_ok]
  exact (inv.conforms _ _ ((inv.holds r).mp held)).peerIndex

/-- A lookup by a peer's key finds the record that the map has for the peer. -/
theorem first_eq (keys : IdKeys idKey) (inv : Represents idKey table m) {peer : Bytes}
    (named : peer ≠ []) : E.first table.records .id (idKey peer) = m.entries peer := by
  apply Option.ext
  intro r
  rw [E.first_unique _ _ _ _ rfl (keys.nonempty peer named)]
  constructor
  · intro member
    have held := (inv.consistent.filed _ _ _ member).1
    have stored := (inv.holds r).mp held
    have sameKey := Except.ok.inj ((inv.consistent.primaryKey member).symm.trans (inv.primaryKey held))
    rw [keys.injective _ _ named (inv.conforms _ _ stored).named sameKey]
    exact stored
  · intro stored
    have peers := inv.peers _ _ stored
    obtain ⟨pk, key, member⟩ := (inv.holds r).mpr (by rw [peers]; exact stored)
    have same := Except.ok.inj (key.symm.trans (inv.primaryKey ⟨pk, key, member⟩))
    rw [same, peers] at member
    exact member

theorem valid_eq (keys : IdKeys idKey) (inv : Represents idKey table m) {rec : Record}
    (conforms : rec.Conforms idKey) (b58 : Bytes → Bytes) :
    Table.valid b58 table.records rec = .ok (m.accepts rec) := by
  have key : idFromArgs b58 rec = .ok (idKey rec.peer) := by
    rw [idFromArgs, conforms.peerIndex]
    rfl
  simp only [Table.valid, key, first_eq keys inv conforms.named, ExpiringMap.accepts]
  cases stored : m.entries rec.peer with
  | none => rfl
  | some old =>
    simp only [(inv.conforms _ _ stored).seq_eq, conforms.seq_eq]
    split <;> rfl

theorem write_spec (keys : IdKeys idKey) (inv : Represents idKey table m) {rec : Record}
    (conforms : rec.Conforms idKey) :
    (table.write rec).2 = .ok () ∧ Represents idKey (table.write rec).1 (m.put rec) := by
  have indexable : schema.Indexable (table.withDeadline rec) := indexable_iff.mpr conforms.readable
  have returned := Engine.insert_returns inv.consistent indexable
  have stored : table.withDeadline rec = ⟨rec, m.clock + rec.ttl⟩ := by
    rw [Table.withDeadline, inv.clock]
  have unfolded : table.write rec =
      ({ table with records := (E.insert table.records (table.withDeadline rec)).1 }, .ok ()) := by
    rw [Table.write_eq, returned]
    rfl
  rw [unfolded]
  refine ⟨rfl, inv.clock, Engine.insert_consistent inv.consistent indexable,
    Engine.insert_mirrors inv.consistent indexable ttl_separated inv.mirrors, ?_, ?_, ?_⟩
  · intro r
    rw [Engine.insert_holds inv.consistent indexable, stored]
    have freshKey : schema.primaryKey ⟨rec, m.clock + rec.ttl⟩ = .ok (idKey rec.peer) := by
      rw [schema_primaryKey, DeadlineRecord.peerBytes_eq_ok]
      exact conforms.peerIndex
    by_cases same : r.record.peer = rec.peer
    · have updated : (m.put rec).entries r.record.peer = some ⟨rec, m.clock + rec.ttl⟩ := by
        rw [same, m.put_self]
      have replaced : ¬ (E.Holds table.records r ∧
          schema.primaryKey r ≠ schema.primaryKey ⟨rec, m.clock + rec.ttl⟩) := by
        rintro ⟨held, other⟩
        exact other (by rw [inv.primaryKey held, freshKey, same])
      rw [updated, or_iff_left replaced, Option.some.injEq, eq_comm]
    · have different : r ≠ ⟨rec, m.clock + rec.ttl⟩ := fun equal => same (by rw [equal])
      rw [m.put_other rec same, ← inv.holds, or_iff_right different, and_iff_left_iff_imp]
      intro held sameKey
      rw [inv.primaryKey held, freshKey] at sameKey
      exact same (keys.injective _ _ (inv.conforms _ _ ((inv.holds r).mp held)).named conforms.named
        (Except.ok.inj sameKey))
  · intro p r found
    rcases ExpiringMap.put_cases found with ⟨same, fresh⟩ | old
    · rw [fresh, same]
    · exact inv.peers p r old
  · intro p r found
    rcases ExpiringMap.put_cases found with ⟨_, fresh⟩ | old
    · rw [fresh]
      exact conforms
    · exact inv.conforms p r old

theorem upsert_spec (keys : IdKeys idKey) (inv : Represents idKey table m) {rec : Record}
    (conforms : rec.Conforms idKey) (b58 : Bytes → Bytes) :
    (table.upsert b58 rec).2 = .ok (m.upsert rec).2 ∧
      Represents idKey (table.upsert b58 rec).1 (m.upsert rec).1 := by
  have checked := valid_eq keys inv conforms b58
  cases accepted : m.accepts rec with
  | false =>
    simp only [Table.upsert, checked, accepted, ExpiringMap.upsert]
    exact ⟨rfl, inv⟩
  | true =>
    obtain ⟨returned, represents⟩ := write_spec keys inv conforms
    simp only [Table.upsert, checked, accepted, ExpiringMap.upsert, if_true]
    split
    · rename_i equal
      rw [equal] at represents
      exact ⟨rfl, represents⟩
    · rename_i equal
      rw [equal] at returned
      simp at returned

/-- A scan of the ttl index up to a time finds the records that expire strictly
before it: an entry due at that very time is longer than the bound. -/
theorem mem_scan (keys : IdKeys idKey) (inv : Represents idKey table m) {t : Int}
    (time : Representable t) (deadlines : ∀ p r, m.entries p = some r → Representable r.deadline)
    {r : DeadlineRecord} : r ∈ E.reverseLowerBound table.records .ttl (timeToBytes t) ↔
      E.Holds table.records r ∧ r.deadline < t := by
  have order (held : E.Holds table.records r) (peer : Bytes) (named : peer ≠ []) :
      timeToBytes r.deadline ++ peer ≤ timeToBytes t ↔ r.deadline < t := by
    have due := deadlines _ _ ((inv.holds r).mp held)
    have width : (256 : Nat) ^ 8 = 2 ^ 64 := by norm_num
    unfold Representable at time due
    rw [timeToBytes, timeToBytes, Bytes.bigEndian_append_le_iff (by omega) (by omega)]
    simp only [named, and_false, or_false]
    omega
  rw [Engine.mem_reverseLowerBound]
  constructor
  · rintro ⟨key, member, bound⟩
    obtain ⟨held, filed⟩ := inv.consistent.filed _ _ _ member
    obtain ⟨peer, atPeer, value⟩ := mem_keys_ttl.mp filed
    have conforms := inv.conforms _ _ ((inv.holds r).mp held)
    have same := DeadlineRecord.peerBytes_eq_ok.mp atPeer
    rw [conforms.peerIndex, Option.some.injEq, Except.ok.injEq] at same
    rw [value, ← same] at bound
    exact ⟨held, (order held _ (keys.nonempty _ conforms.named)).mp bound⟩
  · rintro ⟨held, due⟩
    have conforms := inv.conforms _ _ ((inv.holds r).mp held)
    have filed : timeToBytes r.deadline ++ idKey r.record.peer ∈ schema.keys .ttl r :=
      mem_keys_ttl.mpr ⟨_, DeadlineRecord.peerBytes_eq_ok.mpr conforms.peerIndex, rfl⟩
    exact ⟨_, inv.mirrors r held _ filed, (order held _ (keys.nonempty _ conforms.named)).mpr due⟩

theorem advance_spec (keys : IdKeys idKey) (inv : Represents idKey table m) {t : Int}
    (time : m.clock < t → Representable t)
    (deadlines : ∀ p r, m.entries p = some r → Representable r.deadline) :
    (table.advance t).2 = .ok () ∧ Represents idKey (table.advance t).1 (m.advance t) := by
  by_cases later : m.clock < t
  · have scan {r : DeadlineRecord} := inv.mem_scan keys (time later) deadlines (r := r)
    have distinct : (E.reverseLowerBound table.records .ttl (timeToBytes t)).Pairwise
        (fun a b => schema.primaryKey a ≠ schema.primaryKey b) :=
      Engine.reverseLowerBound_distinct inv.consistent keys_ttl_single
    obtain ⟨returned, consistent, holds, mirrors⟩ :=
      Engine.deleteAll_spec inv.consistent (fun r member => (scan.mp member).1) distinct
    have entries (p : Bytes) (r : DeadlineRecord) :
        (m.advance t).entries p = some r ↔ m.entries p = some r ∧ ¬ r.deadline < t := by
      simp [ExpiringMap.advance, not_le.mpr later, Option.filter_eq_some_iff]
    have dropped : Represents idKey
        { clock := t, records := (E.deleteAll table.records
          (E.reverseLowerBound table.records .ttl (timeToBytes t))).1 : Table E } (m.advance t) := by
      refine ⟨by simp [ExpiringMap.advance, not_le.mpr later], consistent,
        mirrors .ttl inv.mirrors, fun r => ?_, fun p r found =>
        inv.peers p r ((entries p r).mp found).1, fun p r found => inv.conforms p r ((entries p r).mp found).1⟩
      rw [holds, scan, entries, ← inv.holds]
      tauto
    have unfolded : table.advance t = ({ clock := t, records := (E.deleteAll table.records
        (E.reverseLowerBound table.records .ttl (timeToBytes t))).1 }, .ok ()) := by
      rw [Table.advance, inv.clock, if_pos later, Table.expiredRecords]
      cases expired : E.reverseLowerBound table.records .ttl (timeToBytes t) with
      | nil => rfl
      | cons r rest =>
        rw [expired] at returned
        simp only [Table.dropExpired_eq, expired, returned, List.isEmpty_cons, Bool.not_false, if_true]
        rfl
    rw [unfolded]
    exact ⟨rfl, dropped⟩
  · have stays : m.advance t = m := by rw [ExpiringMap.advance, if_pos (not_lt.mp later)]
    have idle : table.advance t = (table, .ok ()) := by
      rw [Table.advance, inv.clock, if_neg later]
    rw [stays, idle]
    exact ⟨rfl, inv⟩

end Represents

/-- The content of the table read off the map: the primary and the ttl index
hold the map's records under exactly their keys, and every entry of any index
leads to a record of the map by one of its keys. -/
structure SameContent (idKey : Bytes → Bytes) {E : Engine schema} (table : Table E)
    (m : ExpiringMap) : Prop where
  clock : table.clock = m.clock
  id : ∀ key r, (key, r) ∈ E.entries table.records .id ↔
    ∃ peer, m.entries peer = some r ∧ key = idKey peer
  ttl : ∀ key r, (key, r) ∈ E.entries table.records .ttl ↔
    ∃ peer, m.entries peer = some r ∧ key = timeToBytes r.deadline ++ idKey peer
  filed : ∀ column key r, (key, r) ∈ E.entries table.records column →
    ∃ peer, m.entries peer = some r ∧ key ∈ schema.keys column r

theorem Represents.sameContent {E : Engine schema} {idKey : Bytes → Bytes} {table : Table E}
    {m : ExpiringMap} (inv : Represents idKey table m) : SameContent idKey table m := by
  have filed (column key r) (member : (key, r) ∈ E.entries table.records column) :
      ∃ peer, m.entries peer = some r ∧ key ∈ schema.keys column r := by
    obtain ⟨held, atKey⟩ := inv.consistent.filed column key r member
    exact ⟨r.record.peer, (inv.holds r).mp held, atKey⟩
  have held {peer : Bytes} {r : DeadlineRecord} (stored : m.entries peer = some r) :
      E.Holds table.records r :=
    (inv.holds r).mpr (by rw [inv.peers _ _ stored]; exact stored)
  refine ⟨inv.clock, fun key r => ⟨fun member => ?_, ?_⟩, fun key r => ⟨fun member => ?_, ?_⟩, filed⟩
  · obtain ⟨peer, stored, _⟩ := filed .id key r member
    refine ⟨peer, stored, ?_⟩
    rw [← inv.peers _ _ stored]
    exact Except.ok.inj ((inv.consistent.primaryKey member).symm.trans (inv.primaryKey (held stored)))
  · rintro ⟨peer, stored, rfl⟩
    obtain ⟨pk, key, member⟩ := held stored
    have same := Except.ok.inj (key.symm.trans (inv.primaryKey (held stored)))
    rwa [same, inv.peers _ _ stored] at member
  · obtain ⟨peer, stored, atKey⟩ := filed .ttl key r member
    obtain ⟨bytes, atPeer, value⟩ := mem_keys_ttl.mp atKey
    have same := DeadlineRecord.peerBytes_eq_ok.mp atPeer
    rw [(inv.conforms _ _ stored).peerIndex, Option.some.injEq, Except.ok.injEq] at same
    exact ⟨peer, stored, by rw [value, ← same, inv.peers _ _ stored]⟩
  · rintro ⟨peer, stored, rfl⟩
    refine inv.mirrors r (held stored) _ (mem_keys_ttl.mpr ⟨idKey peer, ?_, rfl⟩)
    rw [DeadlineRecord.peerBytes_eq_ok, (inv.conforms _ _ stored).peerIndex, inv.peers _ _ stored]

section Runs

variable {E : Engine schema} {idKey : Bytes → Bytes} (keys : IdKeys idKey)

include keys

/-- One call keeps the representation and answers as the map does, as long as
the times it sets are representable; the map's deadlines then stay so. -/
theorem Represents.call_spec {table : Table E} {m : ExpiringMap} (inv : Represents idKey table m)
    (deadlines : ∀ p r, m.entries p = some r → Representable r.deadline) (b58 : Bytes → Bytes)
    (c : Call) (conforms : ∀ rec, c = .upsert rec → rec.Conforms idKey)
    (range : ∀ t ∈ m.times [c], Representable t) :
    (table.call b58 c).2 = .ok (m.call c).2 ∧ Represents idKey (table.call b58 c).1 (m.call c).1 ∧
      ∀ p r, (m.call c).1.entries p = some r → Representable r.deadline := by
  cases c with
  | upsert rec =>
    obtain ⟨reply, represents⟩ := inv.upsert_spec keys (conforms rec rfl) b58
    simp only [Table.call, ExpiringMap.call, reply]
    refine ⟨rfl, represents, fun p r found => ?_⟩
    simp only [ExpiringMap.times, List.append_nil] at range
    unfold ExpiringMap.upsert at found
    split at found
    · rename_i accepted
      rcases ExpiringMap.put_cases found with ⟨_, fresh⟩ | old
      · rw [fresh]
        exact range _ (by simp [accepted])
      · exact deadlines p r old
    · exact deadlines p r found
  | advance t =>
    have time : m.clock < t → Representable t := fun later =>
      range t (by simp [ExpiringMap.times, later])
    obtain ⟨reply, represents⟩ := inv.advance_spec keys time deadlines
    simp only [Table.call, ExpiringMap.call, reply]
    refine ⟨rfl, represents, fun p r found => ?_⟩
    unfold ExpiringMap.advance at found
    split at found
    · exact deadlines p r found
    · exact deadlines p r (Option.filter_eq_some_iff.mp found).1

theorem Represents.run_spec (b58 : Bytes → Bytes) (calls : List Call) {table : Table E}
    {m : ExpiringMap} (inv : Represents idKey table m)
    (deadlines : ∀ p r, m.entries p = some r → Representable r.deadline)
    (conforms : ∀ rec, .upsert rec ∈ calls → rec.Conforms idKey)
    (range : ∀ t ∈ m.times calls, Representable t) :
    (table.run b58 calls).2 = (m.run calls).2.map .ok ∧
      Represents idKey (table.run b58 calls).1 (m.run calls).1 := by
  induction calls generalizing table m with
  | nil => exact ⟨rfl, inv⟩
  | cons c rest ih =>
    rw [ExpiringMap.times_cons, List.forall_mem_append] at range
    obtain ⟨reply, represents, deadlines'⟩ := inv.call_spec keys deadlines b58 c
      (fun rec same => conforms rec (by simp [same])) range.1
    obtain ⟨replies, final⟩ := ih represents deadlines'
      (fun rec member => conforms rec (List.mem_cons_of_mem _ member)) range.2
    simp only [Table.run, ExpiringMap.run, List.map_cons, reply, replies]
    exact ⟨trivial, final⟩

/-- Every sequence of calls on a new table answers as the expiring map does and
leaves the table with the map's content. In particular no call panics, and a
record goes only when its own deadline has passed. -/
theorem Table.run_refines_expiringMap (t0 : Int) (b58 : Bytes → Bytes) (calls : List Call)
    (conforms : ∀ rec, .upsert rec ∈ calls → rec.Conforms idKey)
    (range : ∀ t ∈ (ExpiringMap.new t0).times calls, Representable t) :
    ((Table.new t0 : Table E).run b58 calls).2 = ((ExpiringMap.new t0).run calls).2.map .ok ∧
      SameContent idKey ((Table.new t0 : Table E).run b58 calls).1 ((ExpiringMap.new t0).run calls).1 := by
  have start := Represents.initially idKey t0 (E := E)
  obtain ⟨replies, represents⟩ := start.run_spec keys b58 calls
    (fun p r found => by simp [ExpiringMap.new] at found) conforms range
  exact ⟨replies, represents.sameContent⟩

end Runs

/-- A record of one peer that answers with its raw ID as index. -/
def sampleRecord (server seq : UInt64) (ttl : Int) : Record where
  server := server
  peer := [1]
  seq := .ok seq
  ttl := ttl
  metadata := .ok []
  peerIndex := some (.ok [1])
  hostIndex := some (.ok [])

theorem idKeys_id : IdKeys id where
  injective _ _ _ _ same := same
  nonempty _ named := named

theorem sampleRecord_conforms (server seq : UInt64) (ttl : Int) :
    (sampleRecord server seq ttl).Conforms id where
  named := by simp [sampleRecord]
  peerIndex := rfl
  hostIndex := ⟨_, rfl⟩
  metadata := ⟨_, rfl, by simp⟩
  seq := ⟨_, rfl⟩

/-- A record due at 10 is refreshed at 5, survives its first deadline and goes
after its second. -/
def refreshCalls : List Call :=
  [.upsert (sampleRecord 7 1 10), .advance 5, .upsert (sampleRecord 7 2 10), .advance 12,
    .upsert (sampleRecord 7 1 10), .advance 16, .upsert (sampleRecord 7 1 10)]

theorem run_refines_expiringMap_refresh :
    ((Table.new 0 : Table (sortedEngine schema)).run id refreshCalls).2 =
        [some true, none, some true, none, some false, none, some true].map .ok ∧
      SameContent id ((Table.new 0 : Table (sortedEngine schema)).run id refreshCalls).1
        ((ExpiringMap.new 0).run refreshCalls).1 := by
  refine Table.run_refines_expiringMap idKeys_id 0 id refreshCalls ?_ (by decide)
  intro rec member
  simp only [refreshCalls, List.mem_cons, Call.upsert.injEq, reduceCtorEq, false_or, List.not_mem_nil,
    or_false] at member
  rcases member with rfl | rfl | rfl | rfl <;> exact sampleRecord_conforms ..

end Casm.Routing
