import Casm.Cluster.Records

namespace Casm.Cluster
open MultiIndex
open Routing
open Pulse (Heartbeat newHeartbeat)
open Query (Iter Iteration)

/-- The union of the struct `View.Index`. -/
inductive WireValue where
  | peer (text : Bytes)
  | server (data : Bytes)
  | host (text : Bytes)
  | metadata (text : Bytes)
  deriving DecidableEq

structure WireIndex where
  byPrefix : Bool
  value : WireValue
  deriving DecidableEq

inductive WireSelector where
  | all
  | matching (ix : WireIndex)
  | startingFrom (ix : WireIndex)

inductive WireConstraint where
  | limit (n : UInt64)
  | upTo (ix : WireIndex)

structure Request where
  selector : WireSelector
  constraints : List WireConstraint

section Client

variable (b58 : Bytes → Bytes)

/-- `peer.ID.String` is the base58 text of the ID. -/
def bindPeer (ix : Index) : Except Fault WireValue :=
  match ix.peerBytes, ix.peer with
  | some result, _ => result.map .peer
  | none, some (.id p) => .ok (.peer (b58 p))
  | none, _ => .error (.error "not a peer index")

def bindServer (ix : Index) : Except Fault WireValue :=
  match ix.serverBytes, ix.server with
  | some result, _ => result.map .server
  | none, some id => .ok (.server (marshalText id))
  | none, none => .error (.error "not a peer index")

def bindHost (ix : Index) : Except Fault WireValue :=
  match ix.hostBytes, ix.host with
  | some result, _ => result.map .host
  | none, some result => result.map .host
  | none, none => .error (.error "not a peer index")

def bindMeta (ix : Index) : Except Fault WireValue :=
  match ix.metaBytes, ix.metaField with
  | some result, _ => result.map .metadata
  | none, some field => field.map fun f => .metadata (Query.fieldString f)
  | none, none => .error (.error "not a metadata index")

def bindIndex (ix : Index) : Except Fault WireIndex :=
  Except.map (WireIndex.mk ix.byPrefix) <|
    match ix.name with
    | "id" | "peer" => bindPeer b58 ix
    | "server" => bindServer ix
    | "host" => bindHost ix
    | "meta" => bindMeta ix
    | _ => .error (.error ("invalid index: " ++ ix.name))

/-- The selectors `All`, `Match` and `From`. -/
inductive Selector where
  | all
  | matching (ix : Index)
  | startingFrom (ix : Index)

inductive Constraint where
  | limit (n : UInt64)
  | upTo (ix : Index)

def Selector.bind : Selector → Except Fault WireSelector
  | .all => .ok .all
  | .matching ix => (bindIndex b58 ix).map .matching
  | .startingFrom ix => (bindIndex b58 ix).map .startingFrom

def Constraint.bind : Constraint → Except Fault WireConstraint
  | .limit n => .ok (.limit n)
  | .upTo ix => (bindIndex b58 ix).map .upTo

/-- `NewQuery`, applied to the parameters of a call. -/
def newQuery (sel : Selector) (cs : List Constraint) : Except Fault Request := do
  let selector ← sel.bind b58
  let constraints ← cs.mapM (Constraint.bind b58)
  return ⟨selector, constraints⟩

end Client

namespace WireIndex

/-- The accessors for text read the pointer that all members of the union share.
Data that does not end in a zero byte is no text. -/
def textBytes (w : WireIndex) : Bytes :=
  match w.value with
  | .peer text | .host text | .metadata text => text
  | .server data => if data.getLast? = some 0 then data.dropLast else []

/-- The index that the server makes of the struct, by what the type `index` implements. -/
def index (w : WireIndex) : Index where
  name :=
    match w.value with
    | .peer _ => "id"
    | .server _ => "server"
    | .host _ => "host"
    | .metadata _ => "meta"
  byPrefix := w.byPrefix
  goType := "cluster.index"
  peerBytes := some (.ok w.textBytes)
  peer := some (.text (match w.value with
    | .peer text => .ok text
    | _ => .error (.panic "Which() != peer")))
  serverBytes := some (match w.value with
    | .server data => .ok data
    | _ => .error (.panic "Which() != server"))
  server := none
  hostBytes := some (.ok w.textBytes)
  host := some (match w.value with
    | .host text => .ok text
    | _ => .error (.panic "Which() != host"))
  metaBytes := some (.ok w.textBytes)
  metaField := none
  metaList := none
  isRecord := false
  record_methods := nofun

end WireIndex

/-- `selector`. -/
def WireSelector.selector : WireSelector → Query.Selector Iter
  | .all => Query.all
  | .matching w => Query.select w.index
  | .startingFrom w => Query.startingFrom w.index

/-- A record of the table, which promotes the methods of the record that it wraps. -/
def tableRecord (r : DeadlineRecord) : AnyRecord where
  methods := ⟨r.record.server, r.record.peer, r.record.seq, r.record.ttl, Query.host r, r.record.metadata⟩
  bindRecord := none

/-- The struct that `NewRecord` and `NewJust` allocate. -/
def emptyView : ViewRecord where
  peer := .ok []
  seq := 0
  heartbeat := .ok newHeartbeat

/-- `record`, and `maybe` for a record: the struct that is filled for it. -/
def recvParams (r : DeadlineRecord) : Except Fault ViewRecord :=
  copyRecord emptyView (tableRecord r)

/-- The function of `iterator`: one more call of `Recv`. If its parameters cannot be
filled, the call fails and the loop goes on; a panic ends the loop. -/
def recvCall (calls : List (Except Fault ViewRecord)) (r : DeadlineRecord) :
    Except Fault (List (Except Fault ViewRecord)) :=
  match recvParams r with
  | .error (.panic msg) => .error (.panic msg)
  | .error (.error msg) => .ok (calls ++ [.error (.error msg)])
  | .ok v => .ok (calls ++ [.ok v])

/-- `Server.bind`: the function is called with one record after the other, until it fails
or the iterator has no more. -/
def bindRecords {α : Type} (bind : α → DeadlineRecord → Except Fault α) (out : α) (i : Iteration) : Except Fault α := do
  let out ← i.records.foldlM bind out
  match i.panic with
  | none => return out
  | some fault => .error fault

/-- `Server.Iter`: the calls of `Recv` that are made to the handler. The constraints of
the request are not read. -/
def serverIter (snapshot : Snapshot) (req : Request) : Except Fault (List (Except Fault ViewRecord)) := do
  let it ← req.selector.selector snapshot
  bindRecords recvCall [] it.drain

/-- `Server.Lookup`: the struct of the result, which every record sets anew. -/
def serverLookup (snapshot : Snapshot) (req : Request) : Except Fault (Option ViewRecord) := do
  let it ← (req.selector.selector.bind (Query.first ())) snapshot
  bindRecords (fun _ r => (recvParams r).map some) none it.drain

/-- What the records of `View.Iter` answer, if no call of `Recv` fails. -/
def clientIter (snapshot : Snapshot) (req : Request) : Except Fault (List Methods) := do
  let calls ← serverIter snapshot req
  calls.mapM fun params => do
    let rec ← newRecord (← params)
    return rec.clientMethods

/-- `FutureRecord.Record`. -/
def futureRecord : Option ViewRecord → Except Fault (Option ViewRecord)
  | none => .ok none
  | some rec => (newRecord rec).map some

/-- What the record of `View.Lookup` answers. -/
def clientLookup (snapshot : Snapshot) (req : Request) : Except Fault (Option Methods) := do
  let found ← serverLookup snapshot req
  let rec ← futureRecord found
  return rec.map (·.clientMethods)

def Selector.asLocal : Selector → Query.Selector Iter
  | .all => Query.all
  | .matching ix => Query.select ix
  | .startingFrom ix => Query.startingFrom ix

/-- `query.Limit` takes an `int`. -/
def Constraint.asLocal : Constraint → Query.Constraint Iter
  | .limit n => Query.limit () n.toInt64.toInt
  | .upTo ix => Query.upTo () ix

/-- What the same query gives on the snapshot itself. -/
def localIter (snapshot : Snapshot) (sel : Selector) (cs : List Constraint) : Except Fault Iteration := do
  let it ← Query.iter snapshot sel.asLocal (cs.map Constraint.asLocal)
  return it.drain

variable {E : Engine schema} {b58 : Bytes → Bytes}

theorem getIndexValue_of_name {ix : Index} {name : String} {c : Column} (isName : ix.name = name)
    (plain : indexSchema name = some c) (prefixed : indexSchema (name ++ "_prefix") = some c) :
    ix.getIndexValue b58 = (ix.fromArgs b58 c).map fun v => (c, v) := by
  have found : indexSchema ix.indexName = some c := by
    rw [Index.indexName, isName]
    split
    · exact prefixed
    · exact plain
  simp only [Index.getIndexValue, found]
  cases ix.fromArgs b58 c with
  | error fault => rfl
  | ok v => rfl

/-- The column and the bytes that a struct stands for. -/
def WireValue.resolved : WireValue → Column × Bytes
  | .peer text => (.id, text)
  | .server data => (.server, data)
  | .host text => (.host, text)
  | .metadata text => (.metadata, text)

theorem wire_resolves (w : WireIndex) : w.index.getIndexValue b58 = .ok w.value.resolved := by
  obtain ⟨byPrefix, value⟩ := w
  cases value <;> cases byPrefix <;> rfl

section Bound

variable {ix : Index} {value : WireValue} {v : Bytes}

theorem value_of_map {f : Bytes → WireValue} {result : Except Fault Bytes} (bound : result.map f = .ok value)
    (resolves : result = .ok v) : value = f v := by
  rw [resolves] at bound
  exact (Except.ok.inj bound).symm

theorem bindPeer_agrees (bound : bindPeer b58 ix = .ok value) (resolves : ix.fromArgs b58 .id = .ok v) :
    value = .peer v := by
  cases index : ix.peerBytes with
  | some result =>
    simp only [bindPeer, Index.fromArgs, index] at bound resolves
    exact value_of_map bound resolves
  | none =>
    cases isRecord : ix.isRecord with
    | false => simp [Index.fromArgs, index, isRecord] at resolves
    | true =>
      obtain ⟨⟨p, isPeer⟩, _⟩ := ix.record_methods isRecord
      simp only [bindPeer, Index.fromArgs, index, isRecord, isPeer, Except.ok.injEq] at bound resolves
      rw [← bound, resolves]

theorem bindServer_agrees (bound : bindServer ix = .ok value) (resolves : ix.fromArgs b58 .server = .ok v) :
    value = .server v := by
  cases index : ix.serverBytes with
  | some result =>
    simp only [bindServer, Index.fromArgs, index] at bound resolves
    exact value_of_map bound resolves
  | none =>
    cases isRecord : ix.isRecord with
    | false => simp [Index.fromArgs, index, isRecord] at resolves
    | true =>
      obtain ⟨id, isServer⟩ := Option.isSome_iff_exists.mp (ix.record_methods isRecord).2.1
      simp only [bindServer, Index.fromArgs, index, isRecord, isServer, Except.ok.injEq] at bound resolves
      rw [← bound, resolves]

theorem bindHost_agrees (bound : bindHost ix = .ok value) (resolves : ix.fromArgs b58 .host = .ok v) :
    value = .host v := by
  cases index : ix.hostBytes with
  | some result =>
    simp only [bindHost, Index.fromArgs, index] at bound resolves
    exact value_of_map bound resolves
  | none =>
    cases isRecord : ix.isRecord with
    | false => simp [Index.fromArgs, index, isRecord] at resolves
    | true =>
      obtain ⟨name, isHost⟩ := Option.isSome_iff_exists.mp (ix.record_methods isRecord).2.2.1
      simp only [bindHost, Index.fromArgs, index, isRecord, isHost] at bound resolves
      exact value_of_map bound resolves

theorem bindMeta_agrees (bound : bindMeta ix = .ok value) (resolves : ix.fromArgs b58 .metadata = .ok v) :
    value = .metadata v := by
  cases index : ix.metaBytes with
  | none => simp [Index.fromArgs, index] at resolves
  | some result =>
    simp only [bindMeta, Index.fromArgs, index] at bound resolves
    exact value_of_map bound resolves

theorem resolved_of_name {name : String} {c : Column} {cv : Column × Bytes} (isName : ix.name = name)
    (plain : indexSchema name = some c) (prefixed : indexSchema (name ++ "_prefix") = some c)
    (agrees : ∀ v, ix.fromArgs b58 c = .ok v → value.resolved = (c, v))
    (resolves : ix.getIndexValue b58 = .ok cv) : value.resolved = cv := by
  rw [getIndexValue_of_name isName plain prefixed] at resolves
  obtain ⟨v, isArg, isPair⟩ := Except.map_eq_ok.mp resolves
  rw [← isPair]
  exact agrees v isArg

/-- An index that the table can resolve is bound to the column and bytes that it
resolves to. -/
theorem bindIndex_agrees {w : WireIndex} {cv : Column × Bytes} (bound : bindIndex b58 ix = .ok w)
    (resolves : ix.getIndexValue b58 = .ok cv) : w.value.resolved = cv := by
  obtain ⟨value, isBound, isIndex⟩ := Except.map_eq_ok.mp bound
  rw [← isIndex]
  show value.resolved = cv
  split at isBound
  case h_1 isName =>
    refine resolved_of_name isName rfl rfl (fun v isArg => ?_) resolves
    rw [bindPeer_agrees isBound isArg]
    rfl
  case h_2 isName =>
    -- the table has no index of this name
    have unknown : indexSchema ix.indexName = none := by
      rw [Index.indexName, isName]
      split <;> rfl
    rw [Index.getIndexValue, unknown] at resolves
    cases resolves
  case h_3 isName =>
    refine resolved_of_name isName rfl rfl (fun v isArg => ?_) resolves
    rw [bindServer_agrees isBound isArg]
    rfl
  case h_4 isName =>
    refine resolved_of_name isName rfl rfl (fun v isArg => ?_) resolves
    rw [bindHost_agrees isBound isArg]
    rfl
  case h_5 isName =>
    refine resolved_of_name isName rfl rfl (fun v isArg => ?_) resolves
    rw [bindMeta_agrees isBound isArg]
    rfl
  case h_6 => cases isBound

end Bound

section Selection

variable {q : TableQuery E} {ix : Index} {w : WireIndex} {sel : Selector} {bound : WireSelector} {it : Iter}

theorem iterate_wire (f : Column → Bytes → List DeadlineRecord) (w : WireIndex) :
    TableQuery.iterate b58 f w.index = .ok (f w.value.resolved.1 w.value.resolved.2) :=
  TableQuery.iterate_eq (wire_resolves w)

theorem iterate_bound {f : Column → Bytes → List DeadlineRecord} {rows : List DeadlineRecord}
    (binds : bindIndex b58 ix = .ok w) (found : TableQuery.iterate b58 f ix = .ok rows) :
    TableQuery.iterate b58 f w.index = .ok rows := by
  cases resolves : ix.getIndexValue b58 with
  | error fault =>
    rw [TableQuery.iterate, resolves] at found
    cases found
  | ok cv =>
    rw [TableQuery.iterate_eq resolves] at found
    rw [iterate_wire, bindIndex_agrees binds resolves]
    exact found

/-- Every struct selects records on the server. -/
theorem server_selects (b58 : Bytes → Bytes) (q : TableQuery E) (w : WireSelector) :
    ∃ rows, w.selector (q.snapshot b58) = .ok (.result rows) := by
  cases w with
  | all => exact ⟨_, rfl⟩
  | matching w => exact ⟨_, congrArg (Except.map Iter.result) (iterate_wire (E.get q.tx) w)⟩
  | startingFrom w => exact ⟨_, congrArg (Except.map Iter.result) (iterate_wire (E.lowerBound q.tx) w)⟩

/-- What a selector selects on the table, its struct selects on the server. -/
theorem selection_agrees (binds : sel.bind b58 = .ok bound) (found : sel.asLocal (q.snapshot b58) = .ok it) :
    bound.selector (q.snapshot b58) = .ok it := by
  cases sel with
  | all =>
    cases binds
    exact found
  | matching ix =>
    obtain ⟨w, isIndex, isSelector⟩ := Except.map_eq_ok.mp binds
    obtain ⟨rows, isRows, isIter⟩ := Except.bind_eq_ok.mp found
    rw [← isSelector]
    exact Except.bind_eq_ok.mpr ⟨rows, iterate_bound isIndex isRows, isIter⟩
  | startingFrom ix =>
    obtain ⟨w, isIndex, isSelector⟩ := Except.map_eq_ok.mp binds
    obtain ⟨rows, isRows, isIter⟩ := Except.bind_eq_ok.mp found
    rw [← isSelector]
    exact Except.bind_eq_ok.mpr ⟨rows, iterate_bound isIndex isRows, isIter⟩

end Selection

/-- The constraint lets so many records pass. -/
def Constraint.Loose (count : Nat) (c : Constraint) : Prop :=
  ∃ n, c = .limit n ∧ 0 < n.toInt64.toInt ∧ count ≤ n.toInt64.toInt

section Constraints

variable {s : Snapshot} {c : Constraint} {it it' : Iter}

theorem asLocal_limit (s : Snapshot) (it : Iter) {n : UInt64} (positive : 0 < n.toInt64.toInt) :
    ∃ k : Nat, n.toInt64.toInt = k ∧
      (Constraint.limit n).asLocal it s = .ok (.predicateIter (.limit k) it false) := by
  obtain ⟨k, isNat⟩ := Int.eq_ofNat_of_zero_le positive.le
  refine ⟨k, isNat, ?_⟩
  rw [Constraint.asLocal, Query.limit, if_neg (by omega), isNat]
  rfl

/-- A constraint takes away records, or makes the iteration panic, or is loose. -/
theorem asLocal_cases (applies : c.asLocal it s = .ok it') :
    it'.drain.records.length ≤ it.drain.records.length ∧
      (it'.drain.records.length < it.drain.records.length ∨ it'.drain.panic.isSome ∨
        it'.drain = it.drain ∧ c.Loose it.drain.records.length) := by
  cases c with
  | limit n =>
    by_cases positive : 0 < n.toInt64.toInt
    · obtain ⟨k, isNat, isIter⟩ := asLocal_limit s it positive
      rw [isIter] at applies
      cases applies
      rw [Iter.drain_limit, Iteration.take]
      by_cases less : k < it.drain.records.length
      · rw [if_pos less, List.length_take]
        exact ⟨by omega, Or.inl (by omega)⟩
      · rw [if_neg less]
        exact ⟨le_rfl, Or.inr (Or.inr ⟨rfl, n, rfl, positive, by omega⟩)⟩
    · rw [Constraint.asLocal, Query.limit, if_pos (by omega)] at applies
      cases applies
  | upTo ix =>
    rw [Constraint.asLocal, Query.upTo] at applies
    cases isMatch : Query.matchIndex ix with
    | error fault =>
      rw [isMatch] at applies
      cases applies
    | ok matching =>
      rw [isMatch] at applies
      cases applies
      obtain ⟨most, less | panics⟩ := Iter.drain_leq it matching false
      · exact ⟨most, Or.inl less⟩
      · exact ⟨most, Or.inr (Or.inl panics)⟩

theorem Constraint.Loose.applies (loose : c.Loose it.drain.records.length) :
    ∃ it', c.asLocal it s = .ok it' ∧ it'.drain = it.drain := by
  obtain ⟨n, isLimit, positive, most⟩ := loose
  obtain ⟨k, isNat, isIter⟩ := asLocal_limit s it positive
  rw [isLimit]
  refine ⟨_, isIter, ?_⟩
  rw [Iter.drain_limit, Iteration.take, if_neg (by omega)]

theorem iter_narrows {sel : Query.Selector Iter} (selects : sel s = .ok it) (cs : List Constraint) (it' : Iter)
    (found : Query.iter s sel (cs.map Constraint.asLocal) = .ok it') :
    it'.drain.records.length ≤ it.drain.records.length := by
  induction cs using List.reverseRecOn generalizing it' with
  | nil =>
    rw [List.map_nil, Query.iter, List.foldl_nil, selects] at found
    cases found
    exact le_rfl
  | append_singleton cs c ih =>
    rw [List.map_append, List.map_singleton, Query.iter_concat] at found
    obtain ⟨before, isBefore, applies⟩ := Except.bind_eq_ok.mp found
    exact (asLocal_cases applies).1.trans (ih before isBefore)

/-- Constraints that are all loose leave an iteration as it is. -/
theorem iter_of_loose {sel : Query.Selector Iter} (selects : sel s = .ok it) {cs : List Constraint}
    (loose : ∀ c ∈ cs, c.Loose it.drain.records.length) :
    ∃ it', Query.iter s sel (cs.map Constraint.asLocal) = .ok it' ∧ it'.drain = it.drain := by
  induction cs using List.reverseRecOn with
  | nil => exact ⟨it, selects, rfl⟩
  | append_singleton cs c ih =>
    obtain ⟨others, last⟩ := List.forall_mem_append.mp loose
    obtain ⟨before, isBefore, whole⟩ := ih others
    have isLoose := List.forall_mem_singleton.mp last
    rw [← whole] at isLoose
    obtain ⟨it', applies, kept⟩ := isLoose.applies (s := s)
    refine ⟨it', ?_, kept.trans whole⟩
    rw [List.map_append, List.map_singleton, Query.iter_concat]
    exact Except.bind_eq_ok.mpr ⟨before, isBefore, applies⟩

/-- Constraints that take nothing away and do not panic are all loose. -/
theorem loose_of_iter {sel : Query.Selector Iter} (selects : sel s = .ok it) {cs : List Constraint}
    (found : Query.iter s sel (cs.map Constraint.asLocal) = .ok it') (quiet : it'.drain.panic = none)
    (most : it.drain.records.length ≤ it'.drain.records.length) : ∀ c ∈ cs, c.Loose it.drain.records.length := by
  induction cs using List.reverseRecOn generalizing it' with
  | nil => exact List.forall_mem_nil _
  | append_singleton cs c ih =>
    rw [List.map_append, List.map_singleton, Query.iter_concat] at found
    obtain ⟨before, isBefore, applies⟩ := Except.bind_eq_ok.mp found
    have fewer := iter_narrows selects cs before isBefore
    obtain ⟨-, less | panics | ⟨kept, loose⟩⟩ := asLocal_cases applies
    · -- a record that is taken away does not come back
      omega
    · rw [quiet] at panics
      cases panics
    · rw [kept] at quiet most
      have same : before.drain.records.length = it.drain.records.length := by omega
      rw [same] at loose
      exact List.forall_mem_append.mpr ⟨ih isBefore quiet most, List.forall_mem_singleton.mpr loose⟩

theorem selects_of_iter {sel : Query.Selector Iter} {cs : List Constraint}
    (found : Query.iter s sel (cs.map Constraint.asLocal) = .ok it) : ∃ it₀, sel s = .ok it₀ := by
  induction cs using List.reverseRecOn generalizing it with
  | nil => exact ⟨it, found⟩
  | append_singleton cs c ih =>
    rw [List.map_append, List.map_singleton, Query.iter_concat] at found
    obtain ⟨before, isBefore, applies⟩ := Except.bind_eq_ok.mp found
    exact ih isBefore

end Constraints

/-- What the client needs to see a record as it is: a number and fields that can be read,
and a lifetime of whole milliseconds that fits in its field. -/
structure Transmits (r : DeadlineRecord) : Prop where
  seq : ∃ n, r.record.seq = .ok n
  ttl : 10 ^ 6 ∣ r.record.ttl ∧ 10 ^ 6 ≤ r.record.ttl ∧ r.record.ttl < 2 ^ 32 * 10 ^ 6
  host : ∃ name, Query.host r = .ok name
  metadata : ∃ list, r.record.metadata = .ok list

/-- The client accepts the struct of a record, and sees the record as it is. -/
def Received (r : DeadlineRecord) : Prop :=
  ∃ v, recvParams r = .ok v ∧ newRecord v = .ok v ∧ v.clientMethods = (tableRecord r).methods

section Encoder

variable {r : DeadlineRecord} {v : ViewRecord}

/-- The struct of a record whose fields can all be read. -/
def viewOf (r : DeadlineRecord) (seq : UInt64) (name : Bytes) (list : List (Except Fault Bytes)) : ViewRecord where
  peer := .ok r.record.peer
  seq := seq
  heartbeat := .ok ⟨(newHeartbeat.setTTL r.record.ttl).ttl, r.record.server, .ok name, .ok list⟩

theorem recvParams_eq_ok : recvParams r = .ok v ↔ ∃ seq name list, r.record.seq = .ok seq ∧
    Query.host r = .ok name ∧ r.record.metadata = .ok list ∧ viewOf r seq name list = v := by
  constructor
  · intro filled
    obtain ⟨seq, isSeq, filled⟩ := Except.bind_eq_ok.mp filled
    obtain ⟨hb, hosted, filled⟩ := Except.bind_eq_ok.mp filled
    obtain ⟨hb', copied, isView⟩ := Except.bind_eq_ok.mp filled
    obtain ⟨name, isName, rfl⟩ := Except.map_eq_ok.mp hosted
    obtain ⟨list, isList, rfl⟩ := Except.map_eq_ok.mp copied
    exact ⟨seq, name, list, isSeq, isName, isList, Except.ok.inj isView⟩
  · rintro ⟨seq, name, list, isSeq, isName, isList, rfl⟩
    simp only [recvParams, copyRecord, tableRecord, copyHost, copyMeta, isName, isList, isSeq]
    rfl

theorem newRecord_viewOf (r : DeadlineRecord) (seq : UInt64) (name : Bytes) (list : List (Except Fault Bytes)) :
    newRecord (viewOf r seq name list) = .ok (viewOf r seq name list) :=
  newRecord_ok rfl rfl rfl rfl

theorem clientMethods_viewOf (r : DeadlineRecord) (seq : UInt64) (name : Bytes) (list : List (Except Fault Bytes)) :
    (viewOf r seq name list).clientMethods = ⟨r.record.server, r.record.peer, .ok seq,
      (newHeartbeat.setTTL r.record.ttl).duration, .ok name, .ok list⟩ :=
  rfl

/-- The server cannot fill the struct of a record whose number cannot be read, and a
lifetime that does not fit is another one for the client. -/
theorem received_iff : Received r ↔ Transmits r := by
  constructor
  · rintro ⟨v, filled, -, isMethods⟩
    obtain ⟨seq, name, list, isSeq, isName, isList, rfl⟩ := recvParams_eq_ok.mp filled
    rw [clientMethods_viewOf] at isMethods
    have isTTL : (newHeartbeat.setTTL r.record.ttl).duration = r.record.ttl := congrArg Methods.ttl isMethods
    exact ⟨⟨seq, isSeq⟩, (Pulse.duration_setTTL_eq_iff _).mp isTTL, ⟨name, isName⟩, ⟨list, isList⟩⟩
  · rintro ⟨⟨seq, isSeq⟩, fits, ⟨name, isName⟩, ⟨list, isList⟩⟩
    refine ⟨_, recvParams_eq_ok.mpr ⟨seq, name, list, isSeq, isName, isList, rfl⟩, newRecord_viewOf .., ?_⟩
    rw [clientMethods_viewOf, (Pulse.duration_setTTL_eq_iff _).mpr fits, tableRecord, isSeq, isName, isList]

/-- What the client makes of the call of `Recv` for a record. -/
theorem received_of_call {m : Methods} (received : (do
      let rec ← newRecord (← recvParams r)
      return rec.clientMethods : Except Fault Methods) = .ok m) (isSame : m = (tableRecord r).methods) :
    Received r := by
  obtain ⟨v, filled, received⟩ := Except.bind_eq_ok.mp received
  obtain ⟨v', checked, isMethods⟩ := Except.bind_eq_ok.mp received
  obtain ⟨seq, name, list, -, -, -, rfl⟩ := recvParams_eq_ok.mp filled
  rw [newRecord_viewOf] at checked
  cases checked
  exact ⟨_, filled, newRecord_viewOf .., (Except.ok.inj isMethods).trans isSame⟩

/-- The structs of records that all reach the client. -/
theorem views_of_received {rows : List DeadlineRecord} (received : ∀ r ∈ rows, Received r) :
    ∃ views : List ViewRecord, rows.map recvParams = views.map .ok ∧ (∀ v ∈ views, newRecord v = .ok v) ∧
      views.map (·.clientMethods) = rows.map fun r => (tableRecord r).methods := by
  induction rows with
  | nil => exact ⟨[], rfl, fun v member => absurd member List.not_mem_nil, rfl⟩
  | cons r rows ih =>
    obtain ⟨⟨v, isView, wellFormed, isMethods⟩, others⟩ := List.forall_mem_cons.mp received
    obtain ⟨views, isViews, allFormed, areMethods⟩ := ih others
    refine ⟨v :: views, ?_, List.forall_mem_cons.mpr ⟨wellFormed, allFormed⟩, ?_⟩
    · rw [List.map_cons, List.map_cons, isView, isViews]
    · rw [List.map_cons, List.map_cons, isMethods, areMethods]

end Encoder

/-- The local query comes to its end, the client gets the same records in the same order,
and its lookup gives the first of them. -/
def Agrees (s : Snapshot) (sel : Selector) (cs : List Constraint) (req : Request) : Prop :=
  ∃ records, localIter s sel cs = .ok ⟨records, none⟩ ∧
    clientIter s req = .ok (records.map fun r => (tableRecord r).methods) ∧
    clientLookup s req = .ok (records.head?.map fun r => (tableRecord r).methods)

/-- The table resolves the selector, each constraint lets all that is selected pass, and
all that is selected can be transmitted. -/
def Unrestricted (s : Snapshot) (sel : Selector) (cs : List Constraint) : Prop :=
  ∃ rows, sel.asLocal s = .ok (.result rows) ∧ (∀ c ∈ cs, c.Loose rows.length) ∧ ∀ r ∈ rows, Transmits r

section Server

variable {s : Snapshot} {req : Request} {rows : List DeadlineRecord}

theorem foldlM_recvCall {calls out : List (Except Fault ViewRecord)} (made : rows.foldlM recvCall calls = .ok out) :
    out = calls ++ rows.map recvParams := by
  induction rows generalizing calls with
  | nil =>
    cases made
    rw [List.map_nil, List.append_nil]
  | cons r rows ih =>
    rw [List.foldlM_cons] at made
    obtain ⟨calls', isCall, isRest⟩ := Except.bind_eq_ok.mp made
    have isNext : calls' = calls ++ [recvParams r] := by
      rw [recvCall] at isCall
      split at isCall <;> cases isCall <;> rename_i isParams <;> rw [isParams]
    rw [ih isRest, isNext, List.append_assoc, List.map_cons, List.singleton_append]

theorem foldlM_recvCall_of_ok {views : List ViewRecord} {calls : List (Except Fault ViewRecord)}
    (filled : rows.map recvParams = views.map .ok) :
    rows.foldlM recvCall calls = .ok (calls ++ views.map .ok) := by
  induction rows generalizing calls views with
  | nil =>
    rw [← filled, List.map_nil, List.append_nil]
    rfl
  | cons r rows ih =>
    obtain ⟨v, views, rfl⟩ : ∃ v vs, views = v :: vs := by
      cases views with
      | nil => cases filled
      | cons v vs => exact ⟨v, vs, rfl⟩
    obtain ⟨isFirst, isRest⟩ := List.cons.inj filled
    have isCall : recvCall calls r = .ok (calls ++ [.ok v]) := by rw [recvCall, isFirst]
    rw [List.foldlM_cons, isCall, Except.ok_bind, ih isRest, List.append_assoc, List.map_cons, List.singleton_append]

theorem serverIter_eq (selects : req.selector.selector s = .ok (.result rows)) :
    serverIter s req = rows.foldlM recvCall [] := by
  rw [serverIter, selects, Except.ok_bind, bindRecords, Iter.drain_result]
  exact bind_pure _

/-- Records that can all be filled are streamed. -/
theorem serverIter_of_ok {views : List ViewRecord} (selects : req.selector.selector s = .ok (.result rows))
    (filled : rows.map recvParams = views.map .ok) : serverIter s req = .ok (views.map .ok) := by
  rw [serverIter_eq selects, foldlM_recvCall_of_ok filled, List.nil_append]

/-- A lookup fills the struct of the first record only. -/
theorem serverLookup_eq (selects : req.selector.selector s = .ok (.result rows)) :
    serverLookup s req = rows.head?.elim (.ok none) fun r => (recvParams r).map some := by
  have isFirst : (req.selector.selector.bind (Query.first ())) s =
      .ok (.predicateIter (.limit (1 : Nat)) (.result rows) false) := by
    rw [Query.Selector.bind, selects]
    rfl
  have onlyOne : (⟨rows, none⟩ : Iteration).take 1 = ⟨rows.head?.toList, none⟩ := by
    cases rows with
    | nil => rfl
    | cons r rest => cases rest <;> rfl
  rw [serverLookup, isFirst, Except.ok_bind, Iter.drain_limit, Iter.drain_result, onlyOne, bindRecords]
  cases rows with
  | nil => rfl
  | cons r rest =>
    rw [List.head?_cons, Option.toList_some, List.foldlM_cons, Option.elim_some]
    cases (recvParams r).map some <;> rfl

theorem clientLookup_eq (selects : req.selector.selector s = .ok (.result rows))
    (received : ∀ r, rows.head? = some r → Received r) :
    clientLookup s req = .ok (rows.head?.map fun r => (tableRecord r).methods) := by
  rw [clientLookup, serverLookup_eq selects]
  cases isHead : rows.head? with
  | none => rfl
  | some r =>
    obtain ⟨v, filled, checked, isMethods⟩ := received r isHead
    simp only [Option.elim_some, filled, Except.map, Except.ok_bind, futureRecord, checked, Option.map_some, isMethods]
    rfl

theorem length_of_clientIter {seen : List Methods} (selects : req.selector.selector s = .ok (.result rows))
    (delivered : clientIter s req = .ok seen) : rows.length = seen.length := by
  obtain ⟨calls, isCalls, each⟩ := Except.bind_eq_ok.mp delivered
  rw [serverIter_eq selects] at isCalls
  rw [← (Except.mapM_eq_ok.mp each).length_eq, foldlM_recvCall isCalls, List.nil_append, List.length_map]

/-- The client gets the records of a selection exactly if it gets each of them. -/
theorem clientIter_eq_ok_iff (selects : req.selector.selector s = .ok (.result rows)) :
    clientIter s req = .ok (rows.map fun r => (tableRecord r).methods) ↔ ∀ r ∈ rows, Received r := by
  constructor
  · intro delivered
    obtain ⟨calls, isCalls, each⟩ := Except.bind_eq_ok.mp delivered
    rw [serverIter_eq selects] at isCalls
    rw [foldlM_recvCall isCalls, List.nil_append, Except.mapM_eq_ok, List.forall₂_map_left_iff,
      List.forall₂_map_right_iff, List.forall₂_same] at each
    exact fun r member => received_of_call (each r member) rfl
  · intro received
    obtain ⟨views, filled, checked, areMethods⟩ := views_of_received received
    rw [clientIter, serverIter_of_ok selects filled, Except.ok_bind, ← areMethods, Except.mapM_eq_ok,
      List.forall₂_map_left_iff, List.forall₂_map_right_iff, List.forall₂_same]
    intro v member
    rw [Except.ok_bind, checked v member]
    rfl

end Server

/-- A bound query gives remotely what it gives on the table exactly when nothing restricts
its selection and all of it can be transmitted: the server does not read the constraints,
and copies every record into a struct. -/
theorem remote_agrees_iff (q : TableQuery E) {sel : Selector} {cs : List Constraint} {req : Request}
    (bound : newQuery b58 sel cs = .ok req) :
    Agrees (q.snapshot b58) sel cs req ↔ Unrestricted (q.snapshot b58) sel cs := by
  obtain ⟨selector, isSelector, isRest⟩ := Except.bind_eq_ok.mp bound
  obtain ⟨constraints, isConstraints, isRequest⟩ := Except.bind_eq_ok.mp isRest
  cases isRequest
  obtain ⟨rows, selects⟩ := server_selects b58 q selector
  have drained := Iter.drain_result rows
  constructor
  · rintro ⟨records, isLocal, delivered, -⟩
    obtain ⟨it, found, isDrained⟩ := Except.bind_eq_ok.mp isLocal
    have isDrained : it.drain = ⟨records, none⟩ := Except.ok.inj isDrained
    obtain ⟨it₀, isResult⟩ := selects_of_iter found
    obtain rfl : it₀ = .result rows := Except.ok.inj ((selection_agrees isSelector isResult).symm.trans selects)
    have count : rows.length = records.length := (length_of_clientIter selects delivered).trans (List.length_map _)
    have loose := loose_of_iter isResult found (by rw [isDrained]) (by rw [isDrained, drained, count])
    obtain ⟨it', found', same⟩ := iter_of_loose isResult loose
    have isAll : records = rows := by
      cases found.symm.trans found'
      rw [isDrained, drained] at same
      exact congrArg Iteration.records same
    rw [drained] at loose
    rw [isAll, clientIter_eq_ok_iff selects] at delivered
    exact ⟨rows, isResult, loose, fun r member => received_iff.mp (delivered r member)⟩
  · rintro ⟨rows₀, isResult, loose, transmits⟩
    cases Except.ok.inj ((selection_agrees isSelector isResult).symm.trans selects)
    have received : ∀ r ∈ rows, Received r := fun r member => received_iff.mpr (transmits r member)
    obtain ⟨it, found, kept⟩ := iter_of_loose isResult (by rw [drained]; exact loose)
    refine ⟨rows, ?_, (clientIter_eq_ok_iff selects).mpr received, ?_⟩
    · rw [localIter, found, ← drained, ← kept]
      rfl
    · exact clientLookup_eq selects fun r isHead => received r (List.mem_of_mem_head? isHead)

/-- A record of the peer on the host that lives for ten seconds. -/
def lastingRecord (peer : UInt8) (host : Bytes) : DeadlineRecord :=
  ⟨{ plainRecord peer peer.toUInt64 host [] with ttl := 10 ^ 10 }, 10 ^ 10⟩

theorem lastingRecord_readable (peer : UInt8) (host : Bytes) : (lastingRecord peer host).record.Readable :=
  let readable := plainRecord_readable peer peer.toUInt64 host []
  ⟨readable.peer, readable.host, readable.metadata⟩

theorem transmits_lastingRecord (peer : UInt8) (host : Bytes) : Transmits (lastingRecord peer host) where
  seq := ⟨1, rfl⟩
  ttl := by
    show (10 : Int) ^ 6 ∣ 10 ^ 10 ∧ (10 : Int) ^ 6 ≤ 10 ^ 10 ∧ (10 : Int) ^ 10 < 2 ^ 32 * 10 ^ 6
    decide
  host := ⟨host, rfl⟩
  metadata := ⟨[], rfl⟩

/-- A table with the hosts `a` and `b`. -/
def twoLasting : TableQuery (sortedEngine schema) :=
  (TableQuery.empty.insert (lastingRecord 1 [97]) (lastingRecord_readable ..)).insert (lastingRecord 2 [98])
    (lastingRecord_readable ..)

theorem remote_agrees_loose : newQuery id .all [.limit 2] = .ok ⟨.all, [.limit 2]⟩ ∧
    Agrees (twoLasting.snapshot id) .all [.limit 2] ⟨.all, [.limit 2]⟩ := by
  have bound : newQuery id .all [.limit 2] = .ok ⟨.all, [.limit 2]⟩ := rfl
  have selects : Selector.all.asLocal (twoLasting.snapshot id) =
      .ok (.result [lastingRecord 1 [97], lastingRecord 2 [98]]) := rfl
  refine ⟨bound, (remote_agrees_iff twoLasting bound).mpr ⟨_, selects, ?_, ?_⟩⟩
  · intro c isOnly
    exact ⟨2, List.mem_singleton.mp isOnly, by decide, by decide⟩
  · simp [transmits_lastingRecord]

/-- The client gets both records of a query for one. -/
theorem remote_exceeds_limit :
    newQuery id .all [.limit 1] = .ok ⟨.all, [.limit 1]⟩ ∧
      clientIter (twoLasting.snapshot id) ⟨.all, [.limit 1]⟩ =
        .ok [(tableRecord (lastingRecord 1 [97])).methods, (tableRecord (lastingRecord 2 [98])).methods] ∧
      localIter (twoLasting.snapshot id) .all [.limit 1] = .ok ⟨[lastingRecord 1 [97]], none⟩ ∧
      ¬ Agrees (twoLasting.snapshot id) .all [.limit 1] ⟨.all, [.limit 1]⟩ := by
  have streamed : clientIter (twoLasting.snapshot id) ⟨.all, [.limit 1]⟩ =
      .ok [(tableRecord (lastingRecord 1 [97])).methods, (tableRecord (lastingRecord 2 [98])).methods] := by
    have selects : (⟨.all, [.limit 1]⟩ : Request).selector.selector (twoLasting.snapshot id) =
        .ok (.result [lastingRecord 1 [97], lastingRecord 2 [98]]) := rfl
    refine (clientIter_eq_ok_iff selects).mpr ?_
    simp [received_iff, transmits_lastingRecord]
  have limited : localIter (twoLasting.snapshot id) .all [.limit 1] = .ok ⟨[lastingRecord 1 [97]], none⟩ := rfl
  refine ⟨rfl, streamed, limited, ?_⟩
  rintro ⟨records, isLocal, delivered, -⟩
  cases isLocal.symm.trans limited
  cases streamed.symm.trans delivered

end Casm.Cluster
