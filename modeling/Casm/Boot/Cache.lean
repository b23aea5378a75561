import Casm.Lib.Fault
import Casm.Lib.Machine
import Casm.Lib.Memo

namespace Casm.Boot

abbrev PeerID := List UInt8

abbrev Multiaddr := List UInt8

abbrev Namespace := List UInt8

/-- The union of a packet, which also is its type. -/
inductive Body where
  | request (sender : PeerID)
  | survey (sender : PeerID) (distance : UInt8)
  | response (peer : PeerID) (addrs : List Multiaddr)
  deriving DecidableEq, Repr

/-- `boot.Packet`. -/
structure Packet where
  ns : Namespace
  body : Body
  deriving DecidableEq, Repr

structure Host where
  id : PeerID
  addrs : List Multiaddr

inductive KeyKind where
  | req
  | res
  | survReq
  deriving DecidableEq, Repr

structure Key where
  ns : Namespace
  dist : UInt8
  kind : KeyKind
  deriving DecidableEq, Repr

def requestKey (ns : Namespace) : Key :=
  ⟨ns, 0, .req⟩

def surveyKey (ns : Namespace) (dist : UInt8) : Key :=
  ⟨ns, dist, .survReq⟩

def responseKey (ns : Namespace) : Key :=
  ⟨ns, 0, .res⟩

/-- The steps of building a message that can fail. -/
inductive Setter where
  | newMessage
  | newRootPacket
  | setNamespace
  | setFrom
  | setPeer
  | newAddrs
  | setAddr (i : Nat)

/-- Which of them fail, and with which error. -/
abbrev Allocation := Setter → Option String

def Allocation.attempt (alloc : Allocation) (op : Setter) : Except String Unit :=
  match alloc op with
  | some msg => .error msg
  | none => .ok ()

abbrev BindFunc := Packet → Except String Packet

/-- A new struct is zero: a request of nobody. -/
def newPacket (alloc : Allocation) (ns : Namespace) : Except String Packet := do
  alloc.attempt .newMessage
  alloc.attempt .newRootPacket
  alloc.attempt .setNamespace
  return ⟨ns, .request []⟩

def request (alloc : Allocation) (id : PeerID) : BindFunc := fun p => do
  alloc.attempt .setFrom
  return { p with body := .request id }

def surveyRequest (alloc : Allocation) (id : PeerID) (dist : UInt8) : BindFunc := fun p => do
  alloc.attempt .setFrom
  return { p with body := .survey id dist }

/-- The loop over the addresses of the host, which stops at the first that cannot be set. -/
def setAddrs (alloc : Allocation) : Nat → List Multiaddr → Except String (List Multiaddr)
  | _, [] => .ok []
  | i, addr :: rest => do
    alloc.attempt (.setAddr i)
    let rest ← setAddrs alloc (i + 1) rest
    return addr :: rest

def response (alloc : Allocation) (h : Host) : BindFunc := fun p => do
  alloc.attempt .setPeer
  alloc.attempt .newAddrs
  let addrs ← setAddrs alloc 0 h.addrs
  return { p with body := .response h.id addrs }

/-- Signed envelopes, and the packet that a receiver finds in one. Every packet
can be signed. -/
structure Envelopes where
  Envelope : Type
  record : Envelope → Option Packet
  sealed : Packet → Envelope
  record_sealed : ∀ p, record (sealed p) = some p

/-- What a sealer signs is what it was given. -/
structure Sealer (W : Envelopes) where
  sealRecord : Packet → Except String W.Envelope
  sound : ∀ {p e}, sealRecord p = .ok e → W.record e = some p

variable {W : Envelopes}

def newCacheEntry (alloc : Allocation) (bind : BindFunc) (sealer : Sealer W) (key : Key) :
    Except String W.Envelope := do
  let p ← newPacket alloc key.ns
  let p ← bind p
  sealer.sealRecord p

/-- For each key, the last envelope that was added since the last purge. -/
abbrev RecordCache (W : Envelopes) : Type :=
  Key → Option W.Envelope

namespace RecordCache

def empty : RecordCache W :=
  fun _ => none

/-- The cache may have evicted the entry. -/
def get (c : RecordCache W) (hit : Bool) (key : Key) : Option W.Envelope :=
  if hit then c key else none

def add (c : RecordCache W) (key : Key) (e : W.Envelope) : RecordCache W :=
  Function.update c key (some e)

def reset (_ : RecordCache W) : RecordCache W :=
  empty

/-- What a call finds: a cache that still has the entry or not, memory, and a
signing key. -/
structure Setting (W : Envelopes) where
  hit : Bool
  alloc : Allocation
  sealer : Sealer W

variable (env : Setting W)

def storeCache (bind : BindFunc) (key : Key) (c : RecordCache W) : Except String W.Envelope × RecordCache W :=
  match newCacheEntry env.alloc bind env.sealer key with
  | .ok e => (.ok e, c.add key e)
  | .error msg => (.error msg, c)

/-- The three loads differ in their key and in what they bind. -/
def load (bind : BindFunc) (key : Key) (c : RecordCache W) : Except String W.Envelope × RecordCache W :=
  match c.get env.hit key with
  | some e => (.ok e, c)
  | none => c.storeCache env bind key

def loadRequest (id : PeerID) (ns : Namespace) (c : RecordCache W) :
    Except String W.Envelope × RecordCache W :=
  c.load env (request env.alloc id) (requestKey ns)

def loadSurveyRequest (id : PeerID) (ns : Namespace) (dist : UInt8) (c : RecordCache W) :
    Except String W.Envelope × RecordCache W :=
  c.load env (surveyRequest env.alloc id dist) (surveyKey ns dist)

def loadResponse (h : Host) (ns : Namespace) (c : RecordCache W) : Except String W.Envelope × RecordCache W :=
  c.load env (response env.alloc h) (responseKey ns)

end RecordCache

/-- A call of one of the loads, by its arguments. -/
inductive Load where
  | request (id : PeerID) (ns : Namespace)
  | survey (id : PeerID) (ns : Namespace) (dist : UInt8)
  | response (h : Host) (ns : Namespace)

namespace Load

def key : Load → Key
  | request _ ns => requestKey ns
  | survey _ ns dist => surveyKey ns dist
  | response _ ns => responseKey ns

/-- Who the packet is about: the arguments that are not part of the key. -/
def subject : Load → PeerID × List Multiaddr
  | request id _ => (id, [])
  | survey id _ _ => (id, [])
  | response h _ => (h.id, h.addrs)

/-- The packet that the call asks for. -/
def packet : Load → Packet
  | request id ns => ⟨ns, .request id⟩
  | survey id ns dist => ⟨ns, .survey id dist⟩
  | response h ns => ⟨ns, .response h.id h.addrs⟩

def bind (alloc : Allocation) : Load → BindFunc
  | request id _ => Boot.request alloc id
  | survey id _ dist => Boot.surveyRequest alloc id dist
  | response h _ => Boot.response alloc h

def apply (env : RecordCache.Setting W) (c : RecordCache W) : Load → Except String W.Envelope × RecordCache W
  | request id ns => c.loadRequest env id ns
  | survey id ns dist => c.loadSurveyRequest env id ns dist
  | response h ns => c.loadResponse env h ns

theorem apply_eq (env : RecordCache.Setting W) (c : RecordCache W) (l : Load) :
    l.apply env c = c.load env (l.bind env.alloc) l.key := by
  cases l with
  | request id ns => rfl
  | survey id ns dist => rfl
  | response h ns => rfl

/-- A packet is made of a key and a subject. -/
def assemble (key : Key) (subject : PeerID × List Multiaddr) : Packet where
  ns := key.ns
  body :=
    match key.kind with
    | .req => .request subject.1
    | .survReq => .survey subject.1 key.dist
    | .res => .response subject.1 subject.2

def subjectOf : Body → PeerID × List Multiaddr
  | .request id => (id, [])
  | .survey id _ => (id, [])
  | .response id addrs => (id, addrs)

theorem packet_eq_assemble (l : Load) : l.packet = assemble l.key l.subject := by
  cases l with
  | request id ns => rfl
  | survey id ns dist => rfl
  | response h ns => rfl

theorem subject_eq (l : Load) : l.subject = subjectOf l.packet.body := by
  cases l with
  | request id ns => rfl
  | survey id ns dist => rfl
  | response h ns => rfl

/-- Between calls with the same key the packets differ in their subject alone. -/
theorem packet_eq_iff {l l' : Load} (key : l.key = l'.key) : l.packet = l'.packet ↔ l.subject = l'.subject := by
  constructor
  · intro same
    rw [l.subject_eq, l'.subject_eq, same]
  · intro same
    rw [l.packet_eq_assemble, l'.packet_eq_assemble, key, same]

end Load

theorem newPacket_ok {alloc : Allocation} {ns : Namespace} {p : Packet} (built : newPacket alloc ns = .ok p) :
    p.ns = ns := by
  obtain ⟨_, _, built⟩ := Except.bind_eq_ok.mp built
  obtain ⟨_, _, built⟩ := Except.bind_eq_ok.mp built
  obtain ⟨_, _, built⟩ := Except.bind_eq_ok.mp built
  cases built
  rfl

theorem setAddrs_ok {alloc : Allocation} {i : Nat} {addrs set : List Multiaddr}
    (built : setAddrs alloc i addrs = .ok set) : set = addrs := by
  induction addrs generalizing i set with
  | nil =>
    cases built
    rfl
  | cons addr rest ih =>
    obtain ⟨_, _, built⟩ := Except.bind_eq_ok.mp built
    obtain ⟨rest', others, built⟩ := Except.bind_eq_ok.mp built
    cases built
    rw [ih others]

theorem Load.bind_ok {alloc : Allocation} {l : Load} {p p' : Packet} (built : l.bind alloc p = .ok p') :
    p' = { p with body := l.packet.body } := by
  cases l with
  | request id ns =>
    obtain ⟨_, _, built⟩ := Except.bind_eq_ok.mp built
    cases built
    rfl
  | survey id ns dist =>
    obtain ⟨_, _, built⟩ := Except.bind_eq_ok.mp built
    cases built
    rfl
  | response h ns =>
    obtain ⟨_, _, built⟩ := Except.bind_eq_ok.mp built
    obtain ⟨_, _, built⟩ := Except.bind_eq_ok.mp built
    obtain ⟨addrs, all, built⟩ := Except.bind_eq_ok.mp built
    cases built
    rw [setAddrs_ok all]
    rfl

theorem Load.packet_ns (l : Load) : l.packet.ns = l.key.ns := by
  cases l with
  | request id ns => rfl
  | survey id ns dist => rfl
  | response h ns => rfl

/-- Without the cache, a call returns the packet that it asks for. -/
theorem newCacheEntry_ok {alloc : Allocation} {l : Load} {sealer : Sealer W} {e : W.Envelope}
    (built : newCacheEntry alloc (l.bind alloc) sealer l.key = .ok e) : W.record e = some l.packet := by
  obtain ⟨p, isNew, built⟩ := Except.bind_eq_ok.mp built
  obtain ⟨p', isBound, isSealed⟩ := Except.bind_eq_ok.mp built
  have whole : p' = l.packet := by
    rw [Load.bind_ok isBound, newPacket_ok isNew, ← l.packet_ns]
  rw [sealer.sound isSealed, whole]

/-- What a load can do: return what the cache has, add what it makes, or fail. -/
theorem Load.apply_spec (env : RecordCache.Setting W) (c : RecordCache W) (l : Load) :
    (∃ e, c l.key = some e ∧ l.apply env c = (.ok e, c)) ∨
      (∃ e, W.record e = some l.packet ∧ l.apply env c = (.ok e, c.add l.key e)) ∨
      ∃ msg, l.apply env c = (.error msg, c) := by
  rw [l.apply_eq, RecordCache.load]
  cases found : c.get env.hit l.key with
  | some cached =>
    have known : c l.key = some cached := by
      rw [RecordCache.get] at found
      split at found
      · exact found
      · cases found
    exact .inl ⟨cached, known, rfl⟩
  | none =>
    simp only [RecordCache.storeCache]
    cases built : newCacheEntry env.alloc (l.bind env.alloc) env.sealer l.key with
    | ok made => exact .inr (.inl ⟨made, newCacheEntry_ok built, rfl⟩)
    | error msg => exact .inr (.inr ⟨msg, rfl⟩)

theorem Load.apply_cases {env : RecordCache.Setting W} {c : RecordCache W} {l : Load} {e : W.Envelope}
    (loaded : (l.apply env c).1 = .ok e) : c l.key = some e ∨ W.record e = some l.packet := by
  rcases l.apply_spec env c with ⟨cached, known, result⟩ | ⟨made, isPacket, result⟩ | ⟨msg, result⟩
  · rw [result] at loaded
    cases loaded
    exact .inl known
  · rw [result] at loaded
    cases loaded
    exact .inr isPacket
  · rw [result] at loaded
    cases loaded

theorem Load.entry_cases {env : RecordCache.Setting W} {c : RecordCache W} {l : Load} {k : Key} {e : W.Envelope}
    (entry : (l.apply env c).2 k = some e) : c k = some e ∨ l.key = k ∧ W.record e = some l.packet := by
  rcases l.apply_spec env c with ⟨cached, known, result⟩ | ⟨made, isPacket, result⟩ | ⟨msg, result⟩
  · rw [result] at entry
    exact .inl entry
  · rw [result] at entry
    rcases Function.update_cases entry with ⟨isKey, same⟩ | ⟨-, old⟩
    · cases same
      exact .inr ⟨isKey.symm, isPacket⟩
    · exact .inl old
  · rw [result] at entry
    exact .inl entry

/-- A call of the cache. -/
inductive Call where
  | load (l : Load)
  | reset

def Call.apply (c : RecordCache W) (call : Call × RecordCache.Setting W) : RecordCache W :=
  match call.1 with
  | .load l => (l.apply call.2 c).2
  | .reset => c.reset

/-- The cache after some calls, each with what it finds. -/
def cacheAfter (calls : List (Call × RecordCache.Setting W)) : RecordCache W :=
  calls.foldl Call.apply RecordCache.empty

/-- Every successful load returns the packet that it asks for. -/
def Transparent (calls : List (Call × RecordCache.Setting W)) : Prop :=
  ∀ before l env later, calls = before ++ (.load l, env) :: later →
    ∀ e, (l.apply env (cacheAfter before)).1 = .ok e → W.record e = some l.packet

/-- Between two resets, calls with the same key are about the same peer with the
same addresses. -/
def SteadySubjects (calls : List Call) : Prop :=
  ∀ before l middle l' later, calls = before ++ .load l :: (middle ++ .load l' :: later) →
    Call.reset ∉ middle → l.key = l'.key → l.subject = l'.subject

section Settings

variable (W) in
/-- A call that finds what the cache has, and cannot add to it. -/
def idle : RecordCache.Setting W where
  hit := true
  alloc _ := some "exceeded read limit"
  sealer := ⟨fun p => .ok (W.sealed p), fun same => Except.ok.inj same ▸ W.record_sealed _⟩

variable (W) in
/-- A call that finds nothing, and has what it needs. -/
def evicted : RecordCache.Setting W where
  hit := false
  alloc _ := none
  sealer := ⟨fun p => .ok (W.sealed p), fun same => Except.ok.inj same ▸ W.record_sealed _⟩

theorem setAddrs_none (i : Nat) (addrs : List Multiaddr) : setAddrs (fun _ => none) i addrs = .ok addrs := by
  induction addrs generalizing i with
  | nil => rfl
  | cons addr rest ih =>
    rw [setAddrs, ih]
    rfl

theorem newCacheEntry_evicted (l : Load) :
    newCacheEntry (evicted W).alloc (l.bind (evicted W).alloc) (evicted W).sealer l.key =
      .ok (W.sealed l.packet) := by
  cases l with
  | request id ns => rfl
  | survey id ns dist => rfl
  | response h ns =>
    have addrs : setAddrs (evicted W).alloc 0 h.addrs = .ok h.addrs := setAddrs_none 0 h.addrs
    have bound (p : Packet) :
        Load.bind (evicted W).alloc (.response h ns) p = .ok { p with body := .response h.id h.addrs } := by
      rw [Load.bind, response, addrs]
      rfl
    rw [newCacheEntry]
    simp only [bound]
    rfl

theorem Load.apply_evicted (l : Load) (c : RecordCache W) :
    (l.apply (evicted W) c).2 l.key = some (W.sealed l.packet) := by
  have missing : c.get (evicted W).hit l.key = none := rfl
  rw [l.apply_eq, RecordCache.load, missing]
  simp only [RecordCache.storeCache, newCacheEntry_evicted]
  exact Function.update_self ..

theorem Load.apply_idle (l : Load) (c : RecordCache W) : (l.apply (idle W) c).2 = c := by
  have fails : newCacheEntry (idle W).alloc (l.bind (idle W).alloc) (idle W).sealer l.key =
      .error "exceeded read limit" := rfl
  rw [l.apply_eq, RecordCache.load]
  cases c.get (idle W).hit l.key with
  | some e => rfl
  | none =>
    simp only [RecordCache.storeCache, fails]

end Settings

variable (W) in
/-- The cache as a table of envelopes. -/
def cacheMemo : Memo Call (RecordCache.Setting W) Key W.Envelope where
  step c call env := Call.apply c (call, env)
  clears call := call = .reset
  makes call k e := ∃ l, call = .load l ∧ l.key = k ∧ W.record e = some l.packet
  fits call k e := ∀ l, call = .load l → l.key = k → W.record e = some l.packet
  right c call env := ∀ l, call = .load l → ∀ e, (l.apply env c).1 = .ok e → W.record e = some l.packet
  entry := by
    intro c call env k e entry
    cases call with
    | reset => cases entry
    | load l =>
      rcases Load.entry_cases entry with old | ⟨isKey, isPacket⟩
      · exact .inl ⟨old, Call.noConfusion⟩
      · exact .inr ⟨l, rfl, isKey, isPacket⟩
  right_of_fits := by
    intro c call env found l isCall e loaded
    rcases Load.apply_cases loaded with cached | isPacket
    · exact found l.key e cached l isCall rfl
    · exact isPacket
  idle := idle W
  step_idle := by
    intro c call kept
    cases call with
    | reset => exact absurd rfl kept
    | load l => exact l.apply_idle c
  fits_of_right := by
    intro c call k e right cached l isCall isKey
    have found : RecordCache.get c (idle W).hit l.key = some e := isKey ▸ cached
    refine right l isCall e ?_
    rw [l.apply_eq, RecordCache.load, found]
  working := evicted W
  step_working := by
    rintro c _ k e ⟨l, rfl, rfl, isPacket⟩
    refine ⟨W.sealed l.packet, l.apply_evicted c, fun later fits l' isCall isKey => ?_⟩
    rw [isPacket, ← W.record_sealed]
    exact fits l' isCall isKey

theorem cacheMemo_right_iff {run : List (Call × RecordCache.Setting W)} :
    (cacheMemo W).Right run ↔ Transparent run := by
  constructor
  · intro right before l env later whole
    exact right before (.load l) env later whole l rfl
  · rintro transparent before _ env later whole l rfl
    exact transparent before l env later whole

/-- An envelope that is made for one call fits another if nothing but the key
distinguishes their packets. -/
theorem cacheMemo_consistent_iff {calls : List Call} : (cacheMemo W).Consistent calls ↔ SteadySubjects calls := by
  constructor
  · intro consistent before l middle l' later whole kept isKey
    have fits := consistent before _ middle _ later whole (by rintro _ member rfl; exact kept member) l.key
      (W.sealed l.packet) ⟨l, rfl, rfl, W.record_sealed _⟩ l' rfl isKey.symm
    rw [W.record_sealed] at fits
    exact (Load.packet_eq_iff isKey).mp (Option.some.inj fits)
  · rintro steady before _ middle _ later whole kept k e ⟨l, rfl, rfl, isPacket⟩ l' rfl isKey
    have same := steady before l middle l' later whole (fun member => kept _ member rfl) isKey.symm
    rw [isPacket, (Load.packet_eq_iff isKey.symm).mpr same]

/-- The cache is transparent to a series of calls, whatever it evicts and whichever
calls fail, exactly if no peer ID and no address list changes under a key without a
reset in between. -/
theorem cache_transparent_iff (W : Envelopes) (calls : List Call) :
    (∀ run : List (Call × RecordCache.Setting W), run.map Prod.fst = calls → Transparent run) ↔
      SteadySubjects calls := by
  rw [← cacheMemo_consistent_iff (W := W), ← Memo.right_iff_consistent]
  exact forall₂_congr fun _ _ => cacheMemo_right_iff.symm

/-- Envelopes without a signature. -/
def plainEnvelopes : Envelopes where
  Envelope := Packet
  record := some
  sealed p := p
  record_sealed _ := rfl

/-- A host whose address changes still announces the old one. -/
theorem response_keeps_old_addrs :
    ¬ Transparent (W := plainEnvelopes)
      [(.load (.response ⟨[1], [[4, 10, 0, 0, 1]]⟩ [99]), evicted plainEnvelopes),
        (.load (.response ⟨[1], [[4, 10, 0, 0, 2]]⟩ [99]), { evicted plainEnvelopes with hit := true })] := by
  intro transparent
  have stale := transparent [_] _ _ [] rfl ⟨[99], .response [1] [[4, 10, 0, 0, 1]]⟩ rfl
  have equal := Option.some.inj stale
  revert equal
  decide

end Casm.Boot
