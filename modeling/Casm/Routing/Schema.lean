import Casm.Lib.MultiIndex

namespace Casm.Routing
open MultiIndex

/-- A routing record as its methods answer. An optional index interface that
the implementation lacks is `none`; `seq` fails where `Seq` panics, and the
elements of `metadata` fail where `BytesAt` does. -/
structure Record where
  server : UInt64
  peer : Bytes
  seq : Except Fault UInt64
  ttl : Int
  metadata : Except Fault (List (Except Fault Bytes))
  peerIndex : Option (Except Fault Bytes)
  hostIndex : Option (Except Fault Bytes)
  deriving DecidableEq

/-- The wrapper the table stores: a record with the deadline computed when
it was accepted. Times are nanoseconds since the Unix epoch. -/
structure DeadlineRecord where
  record : Record
  deadline : Int
  deriving DecidableEq

/-- The type assertion of the wrapper panics on a record that has no fast index. -/
def DeadlineRecord.peerBytes (r : DeadlineRecord) : Except Fault Bytes :=
  r.record.peerIndex.getD
    (.error (.panic "interface conversion: not a routing.PeerIndex: missing method PeerBytes"))

def DeadlineRecord.hostBytes (r : DeadlineRecord) : Except Fault Bytes :=
  r.record.hostIndex.getD
    (.error (.panic "interface conversion: not a routing.HostIndex: missing method HostBytes"))

theorem DeadlineRecord.peerBytes_eq_ok {r : DeadlineRecord} {key : Bytes} :
    r.peerBytes = .ok key ↔ r.record.peerIndex = some (.ok key) := by
  unfold peerBytes
  cases r.record.peerIndex <;> simp

theorem DeadlineRecord.hostBytes_eq_ok {r : DeadlineRecord} {name : Bytes} :
    r.hostBytes = .ok name ↔ r.record.hostIndex = some (.ok name) := by
  unfold hostBytes
  cases r.record.hostIndex <;> simp

def hexDigit (nibble : UInt8) : UInt8 :=
  if nibble < 10 then 48 + nibble else 87 + nibble

def hexEncode (bytes : Bytes) : Bytes :=
  bytes.flatMap fun b => [hexDigit (b / 16), hexDigit (b % 16)]

/-- `ID.MarshalText`: sixteen lower-case hexadecimal digits. -/
def marshalText (id : UInt64) : Bytes :=
  hexEncode (Bytes.bigEndian 8 id.toNat)

/-- The eight big-endian bytes of `UnixNano`, which wraps as a 64-bit integer. -/
def timeToBytes (t : Int) : Bytes :=
  Bytes.bigEndian 8 (t % 2 ^ 64).toNat

inductive Column where
  | id | server | ttl | host | metadata
  deriving DecidableEq, Repr

abbrev IndexValue := Except Fault (Option (List Bytes))

def idIndexer (r : DeadlineRecord) : IndexValue := do
  return some [← r.peerBytes]

/-- The wrapper does not promote `ServerBytes`, so this is the plain accessor. -/
def serverIndexer (r : DeadlineRecord) : IndexValue :=
  return some [marshalText r.record.server]

def timeIndexer (r : DeadlineRecord) : IndexValue :=
  return some [timeToBytes r.deadline]

def hostnameIndexer (r : DeadlineRecord) : IndexValue := do
  let index ← r.hostBytes
  return if index.length ≠ 0 then some [index] else none

/-- `Meta.Index` stops at the first field that cannot be read. -/
def metaIndexer (r : DeadlineRecord) : IndexValue := do
  let fields ← r.record.metadata
  if fields.length = 0 then return none
  return some (← fields.mapM id)

/-- The indexers' `FromObject` on the only type the table stores. -/
def fromObject : Column → DeadlineRecord → IndexValue
  | .id => idIndexer
  | .server => serverIndexer
  | .ttl => timeIndexer
  | .host => hostnameIndexer
  | .metadata => metaIndexer

def schema : Schema Column DeadlineRecord where
  indexes := [.id, .server, .ttl, .host, .metadata]
  complete := by intro i; cases i <;> decide
  primary := .id
  unique
    | .id | .server => true
    | .ttl | .host | .metadata => false
  primary_unique := rfl
  allowMissing
    | .id | .server | .ttl => false
    | .host | .metadata => true
  fromObject := fromObject

theorem schema_primaryKey (r : DeadlineRecord) : schema.primaryKey r = r.peerBytes := by
  have values : schema.fromObject schema.primary r = idIndexer r := rfl
  unfold Schema.primaryKey
  rw [values, idIndexer]
  cases r.peerBytes <;> rfl

theorem timeToBytes_length (t : Int) : (timeToBytes t).length = 8 :=
  Bytes.bigEndian_length 8 _

theorem mem_keys_ttl {r : DeadlineRecord} {key : Bytes} :
    key ∈ schema.keys .ttl r ↔ ∃ peer, r.peerBytes = .ok peer ∧ key = timeToBytes r.deadline ++ peer := by
  have values : schema.fromObject .ttl r = .ok (some [timeToBytes r.deadline]) := rfl
  have bare : schema.unique .ttl = false := rfl
  simp only [Schema.keys, schema_primaryKey, values, bare]
  cases r.peerBytes with
  | error fault => simp
  | ok peer => simp

/-- A deadline always takes eight bytes, so the rest of a ttl key is the
primary key and no two peers share one. -/
theorem ttl_separated : schema.Separated .ttl := by
  intro a b key memberA memberB
  obtain ⟨peerA, atA, keyA⟩ := mem_keys_ttl.mp memberA
  obtain ⟨peerB, atB, keyB⟩ := mem_keys_ttl.mp memberB
  have width : (timeToBytes a.deadline).length = (timeToBytes b.deadline).length := by
    rw [timeToBytes_length, timeToBytes_length]
  have same := (List.append_inj (keyA.symm.trans keyB) width).2
  rw [schema_primaryKey, schema_primaryKey, atA, atB, same]

theorem keys_ttl_single (r : DeadlineRecord) :
    ∀ key ∈ schema.keys .ttl r, ∀ key' ∈ schema.keys .ttl r, key = key' := by
  intro key member key' member'
  obtain ⟨peer, atPeer, value⟩ := mem_keys_ttl.mp member
  obtain ⟨peer', atPeer', value'⟩ := mem_keys_ttl.mp member'
  rw [value, value', Except.ok.inj (atPeer.symm.trans atPeer')]

/-- The accessors that an insert goes through all succeed. -/
structure Record.Readable (rec : Record) : Prop where
  peer : ∃ key, rec.peerIndex = some (.ok key)
  host : ∃ name, rec.hostIndex = some (.ok name)
  metadata : ∃ fields, rec.metadata = .ok fields ∧ ∀ field ∈ fields, ∃ bytes, field = .ok bytes

theorem mapM_id_ok_iff {fields : List (Except Fault Bytes)} :
    (∃ values, fields.mapM id = .ok values) ↔ ∀ field ∈ fields, ∃ bytes, field = .ok bytes := by
  induction fields with
  | nil => simp [pure, Except.pure]
  | cons field rest ih =>
    rw [List.mapM_cons, List.forall_mem_cons, ← ih]
    cases field with
    | error fault => simp [Bind.bind, Except.bind]
    | ok bytes => cases rest.mapM id <;> simp [Bind.bind, Except.bind, pure, Except.pure]

theorem metaIndexer_ok_iff {r : DeadlineRecord} : (∃ vals, metaIndexer r = .ok vals) ↔
    ∃ fields, r.record.metadata = .ok fields ∧ ∀ field ∈ fields, ∃ bytes, field = .ok bytes := by
  unfold metaIndexer
  cases r.record.metadata with
  | error fault => simp [Bind.bind, Except.bind]
  | ok fields =>
    cases fields with
    | nil => simp [Bind.bind, Except.bind, pure, Except.pure]
    | cons field rest =>
      simp only [Except.ok.injEq, exists_eq_left', ← mapM_id_ok_iff]
      simp only [Bind.bind, Except.bind, List.length_cons, Nat.add_eq_zero_iff, one_ne_zero, and_false,
        if_false]
      cases (field :: rest).mapM id <;> simp [pure, Except.pure]

/-- An insert is accepted exactly when the accessors behind the five indexers
succeed; the server and ttl indexers never fail. -/
theorem indexable_iff {r : DeadlineRecord} : schema.Indexable r ↔ r.record.Readable := by
  constructor
  · rintro ⟨⟨pk, key⟩, values⟩
    rw [schema_primaryKey] at key
    obtain ⟨hostVals, host, _⟩ := values .host
    obtain ⟨name, atName, _⟩ := Except.bind_eq_ok.mp host
    obtain ⟨metaVals, fields, _⟩ := values .metadata
    exact ⟨⟨pk, DeadlineRecord.peerBytes_eq_ok.mp key⟩, ⟨name, DeadlineRecord.hostBytes_eq_ok.mp atName⟩,
      metaIndexer_ok_iff.mp ⟨metaVals, fields⟩⟩
  · rintro ⟨⟨key, peer⟩, ⟨name, host⟩, fields⟩
    have atPeer := DeadlineRecord.peerBytes_eq_ok.mpr peer
    have atHost := DeadlineRecord.hostBytes_eq_ok.mpr host
    refine ⟨⟨key, (schema_primaryKey r).trans atPeer⟩, fun i => ?_⟩
    cases i with
    | id => exact ⟨some [key], by show idIndexer r = _; rw [idIndexer, atPeer]; rfl, by simp⟩
    | server => exact ⟨_, rfl, by simp⟩
    | ttl => exact ⟨_, rfl, by simp⟩
    | host => exact ⟨_, by show hostnameIndexer r = _; rw [hostnameIndexer, atHost]; rfl, fun _ => rfl⟩
    | metadata =>
      obtain ⟨vals, found⟩ := metaIndexer_ok_iff.mpr fields
      exact ⟨vals, found, fun _ => rfl⟩

end Casm.Routing
