import Casm.Routing.Indexes

namespace Casm.Routing
open MultiIndex

/-- The method `Peer` of a type that has one: `Peer() peer.ID` or `Peer() (string, error)`. -/
inductive PeerMethod where
  | id (peer : Bytes)
  | text (result : Except Fault Bytes)
  deriving DecidableEq

structure MetaField where
  key : Bytes
  value : Bytes
  deriving DecidableEq

/-- A `routing.Index` by what it implements. A method that its type lacks is `none`;
a type that implements `Record` has all of that interface's methods. -/
structure Index where
  name : String
  byPrefix : Bool
  goType : String
  peerBytes : Option (Except Fault Bytes)
  peer : Option PeerMethod
  serverBytes : Option (Except Fault Bytes)
  server : Option UInt64
  hostBytes : Option (Except Fault Bytes)
  host : Option (Except Fault Bytes)
  metaBytes : Option (Except Fault Bytes)
  metaField : Option (Except Fault MetaField)
  metaList : Option (Except Fault (List (Except Fault Bytes)))
  isRecord : Bool
  record_methods : isRecord = true →
    (∃ p, peer = some (.id p)) ∧ server.isSome ∧ host.isSome ∧ metaList.isSome

namespace Index

/-- A type without any of the methods is no `Record`. -/
theorem no_methods : false = true → (∃ p, (none : Option PeerMethod) = some (.id p)) ∧
    (none : Option UInt64).isSome ∧ (none : Option (Except Fault Bytes)).isSome ∧
    (none : Option (Except Fault (List (Except Fault Bytes)))).isSome := by
  intro isRecord
  cases isRecord

/-- `index`. -/
def indexName (ix : Index) : String :=
  if ix.byPrefix then ix.name ++ "_prefix" else ix.name

def errType (ix : Index) : Fault :=
  .error ("invalid type: " ++ ix.goType)

/-- The indexers' `FromArgs`, which `PrefixFromArgs` calls too. An index is not a
`time.Time`. -/
def fromArgs (b58 : Bytes → Bytes) (ix : Index) : Column → Except Fault Bytes
  | .id =>
    match ix.peerBytes, ix.isRecord, ix.peer with
    | some result, _, _ => result
    | none, true, some (.id peer) => .ok (b58 peer)
    | _, _, _ => .error ix.errType
  | .server =>
    match ix.serverBytes, ix.isRecord, ix.server with
    | some result, _, _ => result
    | none, true, some server => .ok (marshalText server)
    | _, _, _ => .error ix.errType
  | .ttl => .error ix.errType
  | .host =>
    match ix.hostBytes, ix.isRecord, ix.host with
    | some result, _, _ => result
    | none, true, some name => name
    | _, _, _ => .error ix.errType
  | .metadata =>
    match ix.metaBytes with
    | some result => result
    | none => .error ix.errType

end Index

/-- The index that go-memdb finds under a name. All indexers but that of ttl support
prefix scans. -/
def indexSchema : String → Option Column
  | "id" | "id_prefix" => some .id
  | "server" | "server_prefix" => some .server
  | "ttl" => some .ttl
  | "host" | "host_prefix" => some .host
  | "meta" | "meta_prefix" => some .metadata
  | _ => none

/-- The index and the bytes that go-memdb looks for. -/
def Index.getIndexValue (b58 : Bytes → Bytes) (ix : Index) : Except Fault (Column × Bytes) :=
  match indexSchema ix.indexName with
  | none => .error (.error ("invalid index '" ++ ix.name ++ "'"))
  | some c =>
    match ix.fromArgs b58 c with
    | .error fault => .error fault
    | .ok v => .ok (c, v)

/-- The interface `Snapshot`: what the iterators go through until they return nil. -/
structure Snapshot where
  get : Index → Except Fault (List DeadlineRecord)
  getReverse : Index → Except Fault (List DeadlineRecord)
  lowerBound : Index → Except Fault (List DeadlineRecord)
  reverseLowerBound : Index → Except Fault (List DeadlineRecord)

/-- A read transaction on the table of records. -/
structure TableQuery (E : Engine schema) where
  tx : E.Txn
  consistent : E.Consistent tx

variable {E : Engine schema}

namespace TableQuery

def iterate (b58 : Bytes → Bytes) (f : Column → Bytes → List DeadlineRecord) (ix : Index) :
    Except Fault (List DeadlineRecord) :=
  match ix.getIndexValue b58 with
  | .error fault => .error fault
  | .ok (c, v) => .ok (f c v)

def snapshot (b58 : Bytes → Bytes) (q : TableQuery E) : Snapshot where
  get := iterate b58 (E.get q.tx)
  getReverse := iterate b58 (E.getReverse q.tx)
  lowerBound := iterate b58 (E.lowerBound q.tx)
  reverseLowerBound := iterate b58 (E.reverseLowerBound q.tx)

def empty : TableQuery E where
  tx := E.empty
  consistent := E.empty_consistent

def insert (q : TableQuery E) (r : DeadlineRecord) (readable : r.record.Readable) : TableQuery E where
  tx := (E.insert q.tx r).1
  consistent := Engine.insert_consistent q.consistent (indexable_iff.mpr readable)

/-- The record is in the table with the value in the column. -/
def Has (q : TableQuery E) (c : Column) (r : DeadlineRecord) (x : Bytes) : Prop :=
  E.Holds q.tx r ∧ x ∈ schema.values c r

/-- The records that start with the bytes, each with the value that it is found for. -/
def selected (q : TableQuery E) (c : Column) (v : Bytes) : List (DeadlineRecord × Bytes) :=
  E.scan q.tx c fun key => v <+: key

variable {b58 : Bytes → Bytes} {q : TableQuery E} {c : Column} {r : DeadlineRecord} {x v : Bytes}

theorem has_of_filed (filed : E.Filed q.tx c r x) : q.Has c r x :=
  ⟨filed.holds, filed.isValue⟩

theorem iterate_eq {f : Column → Bytes → List DeadlineRecord} {ix : Index}
    (resolves : ix.getIndexValue b58 = .ok (c, v)) : iterate b58 f ix = .ok (f c v) := by
  rw [iterate, resolves]

end TableQuery

/-- What the value of a column must be for the index to select it. -/
def Index.Matches (ix : Index) (v x : Bytes) : Prop :=
  if ix.byPrefix then v <+: x else v = x

namespace TableQuery

variable {b58 : Bytes → Bytes}

/-- `Get` enumerates the matching records and values, each once, exactly when every
one of them has its entry, and no other entry has a key that starts with the bytes. -/
theorem get_selects_matching_iff (q : TableQuery E) {ix : Index} {c : Column} {v : Bytes}
    (resolves : ix.getIndexValue b58 = .ok (c, v)) :
    ((q.snapshot b58).get ix = .ok ((q.selected c v).map Prod.fst) ∧ (q.selected c v).Nodup ∧
        ∀ r x, (r, x) ∈ q.selected c v ↔ q.Has c r x ∧ ix.Matches v x) ↔
      (∀ r x, q.Has c r x → ix.Matches v x → E.Filed q.tx c r x) ∧
        ∀ r x, E.Filed q.tx c r x → v <+: schema.fileKey c r x → ix.Matches v x := by
  have enumerates : (q.snapshot b58).get ix = .ok ((q.selected c v).map Prod.fst) :=
    (iterate_eq resolves).trans (congrArg Except.ok Engine.get_eq)
  have nodup : (q.selected c v).Nodup := Engine.scan_nodup q.consistent
  rw [and_iff_right enumerates, and_iff_right nodup]
  have member {r : DeadlineRecord} {x : Bytes} :
      (r, x) ∈ q.selected c v ↔ E.Filed q.tx c r x ∧ v <+: schema.fileKey c r x := by
    rw [selected, Engine.mem_scan q.consistent, decide_eq_true_eq]
  constructor
  · intro exactly
    refine ⟨fun r x has matching => ?_, fun r x filed starts => ?_⟩
    · exact (member.mp ((exactly r x).mpr ⟨has, matching⟩)).1
    · exact ((exactly r x).mp (member.mpr ⟨filed, starts⟩)).2
  · intro ⟨complete, sound⟩ r x
    rw [member]
    constructor
    · intro ⟨filed, starts⟩
      exact ⟨has_of_filed filed, sound r x filed starts⟩
    · intro ⟨has, matching⟩
      refine ⟨complete r x has matching, ?_⟩
      have onValue : v <+: x := by
        rw [Index.Matches] at matching
        split at matching
        · exact matching
        · rw [matching]
      exact onValue.trans (List.prefix_append x _)

end TableQuery

/-- An index on the host column that implements `HostIndex` only. -/
def hostIndex (name : Bytes) (byPrefix : Bool) : Index where
  name := "host"
  byPrefix := byPrefix
  goType := "hostIndex"
  peerBytes := none
  peer := none
  serverBytes := none
  server := none
  hostBytes := some (.ok name)
  host := none
  metaBytes := none
  metaField := none
  metaList := none
  isRecord := false
  record_methods := Index.no_methods

theorem hostIndex_resolves (name : Bytes) (byPrefix : Bool) :
    (hostIndex name byPrefix).getIndexValue id = .ok (.host, name) := by
  cases byPrefix <;> rfl

/-- A record of the peer with the host, due at 10. -/
def hostRecord (peer : UInt8) (host : Bytes) : DeadlineRecord :=
  ⟨plainRecord peer peer.toUInt64 host [], 10⟩

def insertHost (q : TableQuery (sortedEngine schema)) (peer : UInt8) (host : Bytes) :
    TableQuery (sortedEngine schema) :=
  q.insert (hostRecord peer host) (plainRecord_readable ..)

def oneHost : TableQuery (sortedEngine schema) :=
  insertHost .empty 1 [97]

/-- Two hosts, of which none starts with the other. -/
def otherHosts : TableQuery (sortedEngine schema) :=
  insertHost oneHost 2 [98]

theorem otherHosts_has {r : DeadlineRecord} {x : Bytes} (has : otherHosts.Has .host r x) :
    r = hostRecord 1 [97] ∧ x = [97] ∨ r = hostRecord 2 [98] ∧ x = [98] := by
  obtain ⟨⟨pk, _, member⟩, isValue⟩ := has
  have isOne : (pk, r) ∈ [([1], hostRecord 1 [97]), ([2], hostRecord 2 [98])] := member
  rcases List.mem_cons.mp isOne with first | second
  · cases first
    exact .inl ⟨rfl, List.mem_singleton.mp isValue⟩
  · cases List.mem_singleton.mp second
    exact .inr ⟨rfl, List.mem_singleton.mp isValue⟩

theorem get_selects_matching_two : (hostIndex [97] false).getIndexValue id = .ok (.host, [97]) ∧
    otherHosts.Has .host (hostRecord 2 [98]) [98] ∧
    ∀ r x, (r, x) ∈ otherHosts.selected .host [97] ↔
      otherHosts.Has .host r x ∧ (hostIndex [97] false).Matches [97] x := by
  have resolves := hostIndex_resolves [97] false
  have filed : (sortedEngine schema).Filed otherHosts.tx .host (hostRecord 1 [97]) [97] :=
    ⟨⟨[1], rfl, by decide⟩, by decide, by decide⟩
  refine ⟨resolves, ⟨⟨[2], rfl, by decide⟩, by decide⟩,
    ((otherHosts.get_selects_matching_iff resolves).mpr ⟨?_, ?_⟩).2.2⟩
  · intro r x has matching
    rcases otherHosts_has has with ⟨isRecord, isValue⟩ | ⟨_, isValue⟩
    · rw [isRecord, isValue]
      exact filed
    · rw [isValue] at matching
      cases matching
  · intro r x isFiled starts
    rcases otherHosts_has (TableQuery.has_of_filed isFiled) with ⟨_, isValue⟩ | ⟨isRecord, isValue⟩
    · exact isValue.symm
    · rw [isRecord, isValue] at starts
      exact absurd starts (by decide)

/-- A lookup of the host `a` also finds the host `ab`. -/
theorem get_selects_longer_host :
    ((insertHost oneHost 2 [97, 98]).snapshot id).get (hostIndex [97] false) =
        .ok [hostRecord 1 [97], hostRecord 2 [97, 98]] ∧
      ¬ ∀ r x, (r, x) ∈ (insertHost oneHost 2 [97, 98]).selected .host [97] ↔
        (insertHost oneHost 2 [97, 98]).Has .host r x ∧ (hostIndex [97] false).Matches [97] x := by
  refine ⟨rfl, fun exactly => ?_⟩
  have longer := ((exactly (hostRecord 2 [97, 98]) [97, 98]).mp (by decide)).2
  cases longer

end Casm.Routing
