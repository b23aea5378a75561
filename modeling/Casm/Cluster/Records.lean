import Casm.Cluster.Handler
import Casm.Pulse.Heartbeat

namespace Casm.Cluster
open MultiIndex (Bytes)
open Pulse (Heartbeat Message bigEndianUint64 newHeartbeat defaultTTL)

/-- The TTL of a router after `setup`. -/
def Router.setupTTL (ttl : Int) : Int :=
  if ttl ≤ 0 then defaultTTL else ttl

/-- The heartbeat that `Router.heartbeat` prepares for its announcements. -/
def Router.preparedHeartbeat (ttl : Int) (id : UInt64) : Heartbeat :=
  (newHeartbeat.setTTL (setupTTL ttl)).setServer id

/-- What the methods of the interface `routing.Record` return. -/
structure Methods where
  server : UInt64
  peer : Bytes
  seq : Except Fault UInt64
  ttl : Int
  host : Except Fault Bytes
  metadata : Except Fault (List (Except Fault Bytes))

/-- A `routing.Record`, with its `BindRecord` if its type is a `RecordBinder`. -/
structure AnyRecord where
  methods : Methods
  bindRecord : Option (ViewRecord → Except Fault ViewRecord)

/-- The setters of capnp store what they are given. -/
def ViewRecord.setPeer (rec : ViewRecord) (peer : Bytes) : ViewRecord :=
  { rec with peer := .ok peer }

def ViewRecord.setSeq (rec : ViewRecord) (seq : UInt64) : ViewRecord :=
  { rec with seq := seq }

def ViewRecord.setHeartbeat (rec : ViewRecord) (hb : Heartbeat) : ViewRecord :=
  { rec with heartbeat := .ok hb }

/-- `routingRecord.BindRecord`. -/
def bindRoutingRecord (m : Message) (h : Heartbeat) (rec : ViewRecord) : Except Fault ViewRecord := do
  let named := rec.setPeer m.sender
  let seq ← bigEndianUint64 m.seqno
  return (named.setSeq seq).setHeartbeat h

/-- The `routingRecord` of a message and its heartbeat. -/
def routingMethods (m : Message) (h : Heartbeat) : Methods where
  server := h.server
  peer := m.sender
  seq := bigEndianUint64 m.seqno
  ttl := h.duration
  host := h.host
  metadata := h.metadata

def routingRecord (m : Message) (h : Heartbeat) : AnyRecord where
  methods := routingMethods m h
  bindRecord := some (bindRoutingRecord m h)

/-- The record that the validator gives to the table answers with these methods. -/
theorem validated_eq_routingMethods (b58 : Bytes → Bytes) (m : Message) (h : Heartbeat) :
    Pulse.routingRecord b58 m h =
      { server := (routingMethods m h).server
        peer := (routingMethods m h).peer
        seq := (routingMethods m h).seq
        ttl := (routingMethods m h).ttl
        metadata := (routingMethods m h).metadata
        peerIndex := some (.ok (b58 (routingMethods m h).peer))
        hostIndex := some (routingMethods m h).host } :=
  rfl

/-- A record as the table stores it: the methods of the interface are promoted, and
`BindRecord` is not one of them. -/
def AnyRecord.wrapped (r : AnyRecord) : AnyRecord where
  methods := r.methods
  bindRecord := none

def copyHost (hb : Heartbeat) (r : Methods) : Except Fault Heartbeat :=
  r.host.map fun name => hb.setHost name

def copyMeta (hb : Heartbeat) (r : Methods) : Except Fault Heartbeat :=
  r.metadata.map fun list => { hb with metadata := .ok list }

/-- `copyRecord`. The heartbeat that it fills is the one of the struct. -/
def copyRecord (rec : ViewRecord) (r : AnyRecord) : Except Fault ViewRecord :=
  match r.bindRecord with
  | some bind => bind rec
  | none => do
    let named := rec.setPeer r.methods.peer
    let seq ← r.methods.seq
    let hb := (newHeartbeat.setTTL r.methods.ttl).setServer r.methods.server
    let hb ← copyHost hb r.methods
    let hb ← copyMeta hb r.methods
    return (named.setSeq seq).setHeartbeat hb

/-- The heartbeat of a `clientRecord`; one that cannot be read is a null struct. -/
def ViewRecord.clientHeartbeat (rec : ViewRecord) : Heartbeat :=
  match rec.heartbeat with
  | .error _ => newHeartbeat
  | .ok hb => hb

/-- The methods of a `clientRecord`. -/
def ViewRecord.clientMethods (rec : ViewRecord) : Methods where
  server := rec.clientHeartbeat.server
  peer :=
    match rec.peer with
    | .error _ => []
    | .ok peer => peer
  seq := .ok rec.seq
  ttl := rec.clientHeartbeat.duration
  host := rec.clientHeartbeat.host
  metadata := rec.clientHeartbeat.metadata

/-- The client accepts the struct, and its record answers as the methods say. -/
def Delivers (filled : Except Fault ViewRecord) (r : Methods) : Prop :=
  ∃ rec client, filled = .ok rec ∧ newRecord rec = .ok client ∧ client.clientMethods = r

/-- The lifetime that is advertised is the one that was asked for, in whole
milliseconds, if there is at least one of them and they fit in 32 bits. -/
theorem advertised_ttl_iff {d : Int} (positive : 0 < d) (id : UInt64) :
    ((Router.preparedHeartbeat d id).duration = 10 ^ 6 * (d / 10 ^ 6) ∧ (Router.preparedHeartbeat d id).duration ≤ d) ↔
      10 ^ 6 ≤ d ∧ d < 2 ^ 32 * 10 ^ 6 := by
  have kept : Router.setupTTL d = d := if_neg (by omega)
  have read : (Router.preparedHeartbeat d id).duration = (newHeartbeat.setTTL d).duration := by
    rw [Router.preparedHeartbeat, kept]
    rfl
  rw [read]
  constructor
  · rintro ⟨rounded, -⟩
    rw [Pulse.duration_setTTL _ positive.le, defaultTTL] at rounded
    split at rounded <;> omega
  · rintro ⟨least, fits⟩
    rw [Pulse.duration_setTTL_of_fits _ least fits]
    exact ⟨rfl, by omega⟩

theorem advertised_ttl_default :
    (Router.preparedHeartbeat defaultTTL 1).duration = 10 ^ 6 * (defaultTTL / 10 ^ 6) ∧
      (Router.preparedHeartbeat defaultTTL 1).duration ≤ defaultTTL :=
  (advertised_ttl_iff (by decide) 1).mpr (by decide)

/-- A lifetime of one nanosecond is advertised as ten seconds, and one of 2³² + 1
milliseconds as one millisecond. -/
theorem short_ttl_advertised_as_default :
    (Router.preparedHeartbeat 1 1).duration = 10 * 10 ^ 9 ∧
      ¬ ((Router.preparedHeartbeat 1 1).duration = 10 ^ 6 * (1 / 10 ^ 6) ∧ (Router.preparedHeartbeat 1 1).duration ≤ 1) ∧
    (Router.preparedHeartbeat ((2 ^ 32 + 1) * 10 ^ 6) 1).duration = 10 ^ 6 ∧
      ¬ (Router.preparedHeartbeat ((2 ^ 32 + 1) * 10 ^ 6) 1).duration = 10 ^ 6 * ((2 ^ 32 + 1) * 10 ^ 6 / 10 ^ 6) := by
  decide

section Encoders

variable {m : Message} {h : Heartbeat}

theorem newRecord_ok {rec : ViewRecord} {peer name : Bytes} {hb : Heartbeat} {list : List (Except Fault Bytes)}
    (isPeer : rec.peer = .ok peer) (isHeartbeat : rec.heartbeat = .ok hb) (isHost : hb.host = .ok name)
    (isMeta : hb.metadata = .ok list) : newRecord rec = .ok rec := by
  rw [newRecord, isHeartbeat, isPeer]
  simp only [Except.mapError, Except.ok_bind, isHost, isMeta]
  rfl

theorem clientMethods_eq {rec : ViewRecord} {peer : Bytes} {hb : Heartbeat} (isPeer : rec.peer = .ok peer)
    (isHeartbeat : rec.heartbeat = .ok hb) :
    rec.clientMethods = ⟨hb.server, peer, .ok rec.seq, hb.duration, hb.host, hb.metadata⟩ := by
  rw [ViewRecord.clientMethods, ViewRecord.clientHeartbeat, isPeer, isHeartbeat]

/-- Both ways to encode a record let the client see what the record itself says. -/
theorem encoders_agree {name : Bytes} {list : List (Except Fault Bytes)} (long : 8 ≤ m.seqno.length)
    (isHost : h.host = .ok name) (isMeta : h.metadata = .ok list) (rec : ViewRecord) :
    Delivers (bindRoutingRecord m h rec) (routingRecord m h).methods ∧
      Delivers (copyRecord rec (routingRecord m h).wrapped) (routingRecord m h).methods := by
  obtain ⟨seq, isSeq⟩ := Pulse.bigEndianUint64_ok_iff.mpr long
  have reports : (routingRecord m h).methods = ⟨h.server, m.sender, .ok seq, h.duration, h.host, h.metadata⟩ := by
    rw [← isSeq]
    rfl
  rw [reports]
  constructor
  · refine ⟨((rec.setPeer m.sender).setSeq seq).setHeartbeat h, _, ?_, newRecord_ok rfl rfl isHost isMeta, ?_⟩
    · rw [bindRoutingRecord, isSeq]
      rfl
    · exact clientMethods_eq rfl rfl
  · let hb : Heartbeat := ⟨(newHeartbeat.setTTL h.duration).ttl, h.server, .ok name, .ok list⟩
    have sameTTL : hb.duration = h.duration := Pulse.duration_setTTL_duration newHeartbeat h
    refine ⟨((rec.setPeer m.sender).setSeq seq).setHeartbeat hb, _, ?_, newRecord_ok rfl rfl rfl rfl, ?_⟩
    · simp only [copyRecord, AnyRecord.wrapped, reports, copyHost, copyMeta, isHost, isMeta, Except.ok_bind]
      rfl
    · rw [clientMethods_eq rfl rfl, sameTTL, isHost, isMeta]
      rfl

end Encoders

def plainMessage : Message where
  sender := [1]
  seqno := [0, 0, 0, 0, 0, 0, 0, 7]
  data := []

/-- A heartbeat of a host with one field, that leaves its lifetime to the default. -/
def namedHeartbeat : Heartbeat :=
  ⟨0, 5, .ok [97], .ok [.ok [107, 61, 118]]⟩

theorem encoders_agree_named : namedHeartbeat.host = .ok [97] ∧ namedHeartbeat.metadata = .ok [.ok [107, 61, 118]] ∧
    Delivers (bindRoutingRecord plainMessage namedHeartbeat ⟨.ok [], 0, .ok newHeartbeat⟩)
      (routingRecord plainMessage namedHeartbeat).methods ∧
    Delivers (copyRecord ⟨.ok [], 0, .ok newHeartbeat⟩ (routingRecord plainMessage namedHeartbeat).wrapped)
      (routingRecord plainMessage namedHeartbeat).methods :=
  ⟨rfl, rfl, encoders_agree (by decide) rfl rfl _⟩

end Casm.Cluster
