import Casm.Boot.Subscriptions
import Casm.Lib.Ip

namespace Casm.Boot
open Bytes GoNet

abbrev NetAddr := String

/-- The errors that can reach `serve`. The fields of a `ProtocolError` are known by
their names, and are none for a nil map; a cause is always given. -/
inductive GoError where
  | ignore
  | plain (msg : String)
  | net (timeout : Bool) (msg : String)
  | protocol (message : String) (cause : GoError) (fields : Option (List String))
  | validation (cause : GoError) (sender : NetAddr)

namespace GoError

def isSentinel : GoError → Bool
  | ignore => true
  | _ => false

/-- `errors.Is(err, ErrIgnore)`: the error itself, its method `Is`, then what it wraps. -/
def isIgnore : GoError → Bool
  | ignore => true
  | plain _ => false
  | net _ _ => false
  | protocol _ cause _ => cause.isSentinel || cause.isIgnore
  | validation cause _ => cause.isSentinel || cause.isIgnore

/-- A `net.Error` that is not a timeout. What an error wraps is not looked at. -/
def fatal : GoError → Bool
  | net timeout _ => !timeout
  | _ => false

end GoError

/-- What a `net.PacketConn` returns. -/
inductive ConnError where
  | plain (msg : String)
  | net (timeout : Bool) (msg : String)

def ConnError.toError : ConnError → GoError
  | plain msg => .plain msg
  | net timeout msg => .net timeout msg

def ConnError.fatal : ConnError → Bool
  | plain _ => false
  | net timeout _ => !timeout

theorem ConnError.fatal_toError (err : ConnError) : err.toError.fatal = err.fatal := by
  cases err with
  | plain msg => rfl
  | net timeout msg => rfl

inductive Which where
  | request
  | survey
  | response
  | other (code : UInt16)

def Which.text : Which → String
  | request => "request"
  | survey => "survey"
  | response => "response"
  | other code => "Packet_Which(" ++ toString code ++ ")"

/-- A packet that was decoded, by what its accessors return. -/
structure Record where
  which : Which
  ns : Except String Namespace
  peer : Except String (List UInt8)
  distance : UInt8
  addrs : Except String (List (Except String (List UInt8)))

/-- How a datagram is opened and how its fields are parsed. An ID that stands for a
key is the hash of one. -/
structure Wire where
  PublicKey : Type
  consumeTypedEnvelope : List UInt8 → Except String (Record × PublicKey)
  idFromBytes : List UInt8 → Except String PeerID
  newMultiaddrBytes : List UInt8 → Except String Multiaddr
  matchesPublicKey : PeerID → PublicKey → Bool
  hashed : ∀ {id key}, matchesPublicKey id key = true → 4 ≤ id.length

variable (W : Wire)

/-- `Record.Peer`. -/
def Record.peerID (r : Record) : Except String PeerID :=
  match r.which with
  | .other code => .error ("unrecognized record type " ++ (Which.other code).text)
  | _ => r.peer >>= W.idFromBytes

/-- `BasicValidator`. -/
def basicValidator (self : PeerID) (key : W.PublicKey) (r : Record) : Option GoError :=
  match r.peerID W with
  | .error msg => some (.plain msg)
  | .ok peer =>
    if self ≠ [] ∧ peer = self then some .ignore
    else if W.matchesPublicKey peer key then none
    else some (.plain "invalid signature or incorrect domain")

def maxDatagramSize : Nat :=
  2048

/-- `recordConn.Scan`, for what `ReadFrom` returns. -/
def scan (self : PeerID) : Except ConnError (List UInt8 × NetAddr) → Except GoError (Record × NetAddr)
  | .error err => .error err.toError
  | .ok (datagram, addr) =>
    match W.consumeTypedEnvelope (datagram.take maxDatagramSize) with
    | .error msg => .error (.validation (.plain msg) addr)
    | .ok (r, key) =>
      match basicValidator W self key r with
      | some err => .error (.validation err addr)
      | none => .ok (r, addr)

/-- `Response.Bind`. The loop over the addresses stops at the first that cannot be read. -/
def Record.bindInfo (r : Record) : Except String Subscriptions.AddrInfo := do
  let id ← r.peerID W
  let entries ← r.addrs
  let addrs ← entries.mapM fun entry => entry >>= W.newMultiaddrBytes
  return ⟨id, addrs⟩

/-- `dispatch`, up to the sends to the subscribers, which are steps of their own. -/
def dispatch (r : Record) : Option GoError :=
  match r.bindInfo W with
  | .error msg => some (.plain msg)
  | .ok _ => none

/-- What happens when a response is sent: the cache, the envelope, the rate limiter and
the connection can fail, in this order. -/
structure Sending where
  load : Option String
  marshal : Option String
  reserve : Option String
  writeTo : Option ConnError

def Sending.outcome (sending : Sending) : Option GoError :=
  match sending.load.or (sending.marshal.or sending.reserve) with
  | some msg => some (.plain msg)
  | none => sending.writeTo.map ConnError.toError

/-- The last four bytes of both IDs, the last of them first. -/
def xor (id1 id2 : PeerID) : Except Fault Nat :=
  if 4 ≤ id1.length ∧ 4 ≤ id2.length then
    .ok (value (xorBytes (id1.reverse.take 4) (id2.reverse.take 4)))
  else .error (.panic "index out of range")

def ignored (host remote : PeerID) (d : UInt8) : Except Fault Bool :=
  (xor host remote).map fun x => x >>> d.toNat ≠ 0

def Record.distanceOf (r : Record) : UInt8 :=
  match r.which with
  | .survey => r.distance
  | _ => 0

/-- The request handlers of the crawler and of the surveyor. -/
inductive Handler where
  | crawl
  | survey (host : PeerID) (hashed : 4 ≤ host.length)

def Handler.run (r : Record) (sending : Sending) : Handler → Except Fault (Option GoError)
  | .crawl => .ok sending.outcome
  | .survey host _ =>
    match r.peerID W with
    | .error msg => .ok (some (.protocol "invalid ID in request" (.plain msg) (some ["ns", "peer", "from"])))
    | .ok id => (ignored host id r.distanceOf).map fun far => if far then some .ignore else sending.outcome

structure Service where
  self : PeerID
  handler : Handler

variable (svc : Service)

/-- The deadlines of the advertised namespaces are only read by the ticker. -/
def tracking (advt : List Namespace) (ns : Namespace) : Bool :=
  advt.any (· == ns)

/-- `Socket.handle`. A panic is a fault, an error is a value. -/
def handle (advt : List Namespace) (r : Record) (sending : Sending) : Except Fault (Option GoError) :=
  match r.ns with
  | .error msg => .ok (some (.protocol "failed to read namespace from record" (.plain msg) none))
  | .ok ns =>
    match r.which with
    | .response => .ok (dispatch W r)
    | .other code =>
      .ok (some (.protocol "invalid packet" (.plain ("unknown type: " ++ (Which.other code).text)) (some ["type"])))
    | _ => if tracking advt ns then svc.handler.run W r sending else .ok none

/-- `ProtocolError.Loggable` adds the cause to the map. -/
def loggable : Option (List String) → Except Fault (List String)
  | none => .error (.panic "assignment to entry in nil map")
  | some fields => .ok (fields ++ ["error"])

/-- The default error handler, by whether the socket is closed. -/
def handleError (done : Bool) (err : GoError) : Except Fault Unit :=
  if done then .ok ()
  else
    match err with
    | .protocol _ _ fields => (loggable fields).map fun _ => ()
    | _ => .ok ()

/-- Where `serve` is: at its read, or with an error before the test for a closed
socket, before the error handler, or behind it; at its deferred `Close`; or at its end. -/
inductive Phase where
  | scanning
  | failed (err : GoError)
  | reporting (err : GoError)
  | deciding (err : GoError)
  | closing
  | returned
  | panicked (fault : Fault)

def Phase.ended : Phase → Bool
  | .closing | .returned => true
  | _ => false

/-- The error that `serve` is dealing with. -/
def Phase.pending : Phase → Option GoError
  | .failed err | .reporting err | .deciding err => some err
  | _ => none

namespace Serve

structure State where
  done : Bool
  advt : List Namespace
  phase : Phase

/-- The first five are steps of `serve`, the others are calls by other goroutines. -/
inductive Event where
  | read (result : Except ConnError (List UInt8 × NetAddr)) (sending : Sending)
  | check
  | report
  | decide
  | deferred
  | close
  | track (ns : Namespace)
  | expire (ns : Namespace)

namespace State

/-- One pass of the loop, up to its error. -/
def read (s : State) (result : Except ConnError (List UInt8 × NetAddr)) (sending : Sending) :
    Except Fault (Option GoError) :=
  match scan W svc.self result with
  | .error err => .ok (some err)
  | .ok (r, _) => handle W svc s.advt r sending

def afterRead (s : State) : Except Fault (Option GoError) → State
  | .error fault => { s with phase := .panicked fault }
  | .ok none => s
  | .ok (some err) => if err.isIgnore then s else { s with phase := .failed err }

def afterReport (s : State) (err : GoError) : Except Fault Unit → State
  | .error fault => { s with phase := .panicked fault }
  | .ok () => { s with phase := .deciding err }

/-- The steps of the goroutine of `serve`. -/
def serve (s : State) : Event → Option State
  | .read result sending =>
    match s.phase with
    | .scanning => some (s.afterRead (s.read W svc result sending))
    | _ => none
  | .check =>
    match s.phase with
    | .failed err => some { s with phase := if s.done then .returned else .reporting err }
    | _ => none
  | .report =>
    match s.phase with
    | .reporting err => some (s.afterReport err (handleError s.done err))
    | _ => none
  | .decide =>
    match s.phase with
    | .deciding err => some { s with phase := if err.fatal then .closing else .scanning }
    | _ => none
  | .deferred =>
    match s.phase with
    | .closing => some { s with done := true, phase := .returned }
    | _ => none
  | .close => some { s with done := true }
  | .track ns => some (if s.done then s else { s with advt := ns :: s.advt })
  | .expire ns => some { s with advt := s.advt.filter (· ≠ ns) }

/-- A panic ends the program. -/
def step (s : State) (e : Event) : Option State :=
  match s.phase with
  | .panicked _ => none
  | _ => s.serve W svc e

end State

def machine : Machine State Event where
  start := ⟨false, [], .scanning⟩
  step s e := s.step W svc e

/-- The reason why `serve` may end: a call of `Close`, or a connection that cannot be
read. -/
def Justified (before : List Event) : Prop :=
  Event.close ∈ before ∨ ∃ err sending, Event.read (.error err) sending ∈ before ∧ err.fatal = true

/-- The condition on one datagram and on the response to it: a packet that is validated
has a namespace that can be read, and the connection does not refuse the response with
more than a timeout. -/
def Benign (e : Event) : Prop :=
  ∀ result sending, e = .read result sending →
    (∀ datagram addr r key, result = .ok (datagram, addr) →
      W.consumeTypedEnvelope (datagram.take maxDatagramSize) = .ok (r, key) →
      basicValidator W svc.self key r = none → ∃ ns, r.ns = .ok ns) ∧
    ∀ err, sending.writeTo = some err → err.fatal = false

/-- The default handler reports the error, and `serve` goes on. -/
structure Harmless (err : GoError) : Prop where
  reported : ∀ done, handleError done err = .ok ()
  goesOn : err.fatal = false

theorem harmless_plain (msg : String) : Harmless (.plain msg) where
  reported done := by cases done <;> rfl
  goesOn := rfl

theorem harmless_ignore : Harmless .ignore where
  reported done := by cases done <;> rfl
  goesOn := rfl

theorem harmless_validation (cause : GoError) (addr : NetAddr) : Harmless (.validation cause addr) where
  reported done := by cases done <;> rfl
  goesOn := rfl

theorem harmless_protocol (message : String) (cause : GoError) (fields : List String) :
    Harmless (.protocol message cause (some fields)) where
  reported done := by cases done <;> rfl
  goesOn := rfl

theorem reported_toError (done : Bool) (err : ConnError) : handleError done err.toError = .ok () := by
  cases done <;> cases err <;> rfl

variable {W svc} {s s' : State} {r : Record} {key : W.PublicKey} {sending : Sending}

theorem harmless_outcome (accepted : ∀ err, sending.writeTo = some err → err.fatal = false) {err : GoError}
    (fails : sending.outcome = some err) : Harmless err := by
  rw [Sending.outcome] at fails
  split at fails
  · cases fails
    exact harmless_plain _
  · obtain ⟨refused, isWrite, same⟩ := Option.map_eq_some_iff.mp fails
    subst same
    exact ⟨fun done => reported_toError done refused, (refused.fatal_toError).trans (accepted refused isWrite)⟩

theorem validated (valid : basicValidator W svc.self key r = none) :
    ∃ id, r.peerID W = .ok id ∧ 4 ≤ id.length := by
  rw [basicValidator] at valid
  split at valid
  next => cases valid
  next id isPeer =>
    split at valid
    · cases valid
    · split at valid
      next own => exact ⟨id, isPeer, W.hashed own⟩
      next => cases valid

/-- The IDs of a request that was validated are long enough for the surveyor. -/
theorem handler_harmless (valid : basicValidator W svc.self key r = none)
    (accepted : ∀ err, sending.writeTo = some err → err.fatal = false) (h : Handler) :
    ∃ result, h.run W r sending = .ok result ∧ ∀ err, result = some err → Harmless err := by
  cases h with
  | crawl => exact ⟨sending.outcome, rfl, fun err => harmless_outcome accepted⟩
  | survey host hashed =>
    obtain ⟨id, isPeer, long⟩ := validated valid
    obtain ⟨far, isFar⟩ : ∃ far, ignored host id r.distanceOf = .ok far := by
      rw [ignored, xor, if_pos ⟨hashed, long⟩]
      exact ⟨_, rfl⟩
    refine ⟨if far then some .ignore else sending.outcome, ?_, fun err fails => ?_⟩
    · rw [Handler.run, isPeer]
      simp only [isFar, Except.map]
    · split at fails
      · cases fails
        exact harmless_ignore
      · exact harmless_outcome accepted fails

theorem handle_harmless (valid : basicValidator W svc.self key r = none) {ns : Namespace} (isNs : r.ns = .ok ns)
    (accepted : ∀ err, sending.writeTo = some err → err.fatal = false) (advt : List Namespace) :
    ∃ result, handle W svc advt r sending = .ok result ∧ ∀ err, result = some err → Harmless err := by
  have request : ∃ result, (if tracking advt ns then svc.handler.run W r sending else .ok none) = .ok result ∧
      ∀ err, result = some err → Harmless err := by
    split
    · exact handler_harmless valid accepted svc.handler
    · exact ⟨none, rfl, fun err fails => by cases fails⟩
  rw [handle, isNs]
  cases isWhich : r.which with
  | request => exact request
  | survey => exact request
  | other code =>
    refine ⟨_, rfl, fun err fails => ?_⟩
    cases fails
    exact harmless_protocol ..
  | response =>
    refine ⟨dispatch W r, rfl, fun err fails => ?_⟩
    rw [dispatch] at fails
    split at fails
    · cases fails
      exact harmless_plain _
    · cases fails

/-- Of a benign datagram nothing is left but an error that `serve` can report. -/
theorem read_benign {result : Except ConnError (List UInt8 × NetAddr)} (s : State)
    (benign : Benign W svc (.read result sending)) :
    ∃ out, s.read W svc result sending = .ok out ∧ ∀ err, out = some err →
      (∀ done, handleError done err = .ok ()) ∧
        (err.fatal = true → ∃ refused, result = .error refused ∧ refused.fatal = true) := by
  obtain ⟨readable, accepted⟩ := benign result sending rfl
  have weaken {err : GoError} (harmless : Harmless err) : (∀ done, handleError done err = .ok ()) ∧
      (err.fatal = true → ∃ refused, result = .error refused ∧ refused.fatal = true) := by
    refine ⟨harmless.reported, fun fatal => ?_⟩
    rw [harmless.goesOn] at fatal
    cases fatal
  cases result with
  | error refused =>
    refine ⟨some refused.toError, rfl, fun err same => ?_⟩
    cases same
    refine ⟨fun done => reported_toError done refused, fun fatal => ⟨refused, rfl, ?_⟩⟩
    rw [← refused.fatal_toError, fatal]
  | ok received =>
    obtain ⟨datagram, addr⟩ := received
    cases opened : W.consumeTypedEnvelope (datagram.take maxDatagramSize) with
    | error msg =>
      refine ⟨some (.validation (.plain msg) addr), ?_, fun err same => ?_⟩
      · simp only [State.read, scan, opened]
      · cases same
        exact weaken (harmless_validation ..)
    | ok content =>
      obtain ⟨r, key⟩ := content
      cases valid : basicValidator W svc.self key r with
      | some cause =>
        refine ⟨some (.validation cause addr), ?_, fun err same => ?_⟩
        · simp only [State.read, scan, opened, valid]
        · cases same
          exact weaken (harmless_validation ..)
      | none =>
        obtain ⟨ns, isNs⟩ := readable datagram addr r key rfl opened valid
        obtain ⟨out, isOut, harmless⟩ := handle_harmless valid isNs accepted s.advt
        refine ⟨out, ?_, fun err fails => weaken (harmless err fails)⟩
        simp only [State.read, scan, opened, valid, isOut]

/-- What holds of the state after the events. -/
structure Healthy (before : List Event) (s : State) : Prop where
  noPanic : ∀ fault, s.phase ≠ .panicked fault
  reported : ∀ err, s.phase.pending = some err → ∀ done, handleError done err = .ok ()
  fatal : ∀ err, s.phase.pending = some err → err.fatal = true → Justified before
  ended : s.phase.ended = true → Justified before
  done : s.done = true → Justified before

theorem Justified.append {before : List Event} (justified : Justified before) (e : Event) :
    Justified (before ++ [e]) := by
  rcases justified with closed | ⟨err, sending, member, fatal⟩
  · exact .inl (List.mem_append_left _ closed)
  · exact .inr ⟨err, sending, List.mem_append_left _ member, fatal⟩

/-- Nothing changes but what is tracked, and the socket is closed for a reason. -/
theorem Healthy.same_phase {before : List Event} {e : Event} (healthy : Healthy before s) (phase : s'.phase = s.phase)
    (done : s'.done = true → Justified (before ++ [e])) : Healthy (before ++ [e]) s' where
  noPanic := phase ▸ healthy.noPanic
  reported := phase ▸ healthy.reported
  fatal err isErr fatal := (healthy.fatal err (phase ▸ isErr) fatal).append e
  ended isEnded := (healthy.ended (phase ▸ isEnded)).append e
  done := done

/-- `serve` has an error to deal with. -/
theorem Healthy.set_pending {before : List Event} {e : Event} {phase : Phase} {err : GoError}
    (healthy : Healthy before s) (isErr : phase.pending = some err) (reported : ∀ done, handleError done err = .ok ())
    (fatal : err.fatal = true → Justified (before ++ [e])) : Healthy (before ++ [e]) { s with phase := phase } where
  noPanic fault same := by
    change phase = _ at same
    rw [same] at isErr
    cases isErr
  reported err' isErr' := by
    cases isErr.symm.trans isErr'
    exact reported
  fatal err' isErr' := by
    cases isErr.symm.trans isErr'
    exact fatal
  ended isEnded := by
    change phase.ended = true at isEnded
    cases phase <;> cases isErr <;> cases isEnded
  done isDone := (healthy.done isDone).append e

/-- `serve` goes back to its read, or ends for a reason. -/
theorem Healthy.set_quiet {before : List Event} {e : Event} {phase : Phase} {done : Bool}
    (noPanic : ∀ fault, phase ≠ .panicked fault) (quiet : phase.pending = none)
    (ended : phase.ended = true → Justified (before ++ [e])) (closed : done = true → Justified (before ++ [e])) :
    Healthy (before ++ [e]) { s with phase := phase, done := done } where
  noPanic := noPanic
  reported err isErr := by cases quiet.symm.trans isErr
  fatal err isErr := by cases quiet.symm.trans isErr
  ended := ended
  done := closed

theorem Healthy.read {before : List Event} {result : Except ConnError (List UInt8 × NetAddr)}
    (healthy : Healthy before s) (benign : Benign W svc (.read result sending)) :
    Healthy (before ++ [.read result sending]) (s.afterRead (s.read W svc result sending)) := by
  have unchanged : Healthy (before ++ [.read result sending]) s :=
    healthy.same_phase rfl fun isDone => (healthy.done isDone).append _
  obtain ⟨out, isOut, errors⟩ := read_benign s benign
  rw [isOut]
  cases out with
  | none => exact unchanged
  | some err =>
    obtain ⟨reported, fatal⟩ := errors err rfl
    rw [State.afterRead]
    split
    · exact unchanged
    · refine healthy.set_pending rfl reported fun isFatal => ?_
      obtain ⟨refused, rfl, isRefused⟩ := fatal isFatal
      exact .inr ⟨refused, sending, List.mem_append_right _ List.mem_cons_self, isRefused⟩

theorem Healthy.step {before : List Event} {e : Event} (healthy : Healthy before s) (benign : Benign W svc e)
    (step : s.step W svc e = some s') : Healthy (before ++ [e]) s' := by
  have step : s.serve W svc e = some s' := by
    rw [State.step] at step
    split at step
    · cases step
    · exact step
  have closed (isDone : s.done = true) : Justified (before ++ [e]) := (healthy.done isDone).append e
  cases e with
  | read result sending =>
    rw [State.serve] at step
    split at step
    next =>
      cases step
      exact healthy.read benign
    next => cases step
  | check =>
    rw [State.serve] at step
    split at step
    next err isPhase =>
      cases step
      have isErr : s.phase.pending = some err := by rw [isPhase]; rfl
      by_cases isDone : s.done = true
      · rw [if_pos isDone]
        exact Healthy.set_quiet (fun fault same => by cases same) rfl (fun _ => closed isDone) closed
      · rw [if_neg isDone]
        exact healthy.set_pending rfl (healthy.reported err isErr) fun fatal => (healthy.fatal err isErr fatal).append _
    next => cases step
  | report =>
    rw [State.serve] at step
    split at step
    next err isPhase =>
      cases step
      have isErr : s.phase.pending = some err := by rw [isPhase]; rfl
      rw [healthy.reported err isErr]
      exact healthy.set_pending rfl (healthy.reported err isErr) fun fatal => (healthy.fatal err isErr fatal).append _
    next => cases step
  | decide =>
    rw [State.serve] at step
    split at step
    next err isPhase =>
      cases step
      have isErr : s.phase.pending = some err := by rw [isPhase]; rfl
      by_cases fatal : err.fatal = true
      · rw [if_pos fatal]
        have justified := (healthy.fatal err isErr fatal).append .decide
        exact Healthy.set_quiet (fun fault same => by cases same) rfl (fun _ => justified) closed
      · rw [if_neg fatal]
        exact Healthy.set_quiet (fun fault same => by cases same) rfl (fun isEnded => by cases isEnded) closed
    next => cases step
  | deferred =>
    rw [State.serve] at step
    split at step
    next isPhase =>
      cases step
      have justified := (healthy.ended (by rw [isPhase]; rfl)).append .deferred
      exact Healthy.set_quiet (fun fault same => by cases same) rfl (fun _ => justified) fun _ => justified
    next => cases step
  | close =>
    cases step
    exact healthy.same_phase rfl fun _ => .inl (List.mem_append_right _ List.mem_cons_self)
  | track ns =>
    cases step
    split
    · exact healthy.same_phase rfl closed
    · exact healthy.same_phase rfl closed
  | expire ns =>
    cases step
    exact healthy.same_phase rfl closed

/-- If every packet that is validated has a readable namespace, and no response is
refused with more than a timeout, then no datagram stops the socket. -/
theorem serve_survives (W : Wire) (svc : Service) (events : List Event) (benign : ∀ e ∈ events, Benign W svc e) :
    (machine W svc).Always
      (fun before s => (∀ fault, s.phase ≠ .panicked fault) ∧ (s.phase.ended = true → Justified before))
      events := by
  have start : Healthy [] (machine W svc).start := by
    refine ⟨fun fault same => ?_, fun err isErr => ?_, fun err isErr => ?_, fun isEnded => ?_, fun isDone => ?_⟩
    · cases same
    · cases isErr
    · cases isErr
    · cases isEnded
    · cases isDone
  have met : (machine W svc).Throughout (fun _ _ e => Benign W svc e) events := by
    intro before e s s' isBefore _ _
    exact benign e (isBefore.subset (List.mem_append_right _ List.mem_cons_self))
  have always := Machine.always_of_throughout (machine W svc).invariant_true start
    (fun before s e s' _ healthy allowed step => healthy.step allowed step) met
  intro before s isBefore reached
  have healthy := always before s isBefore reached
  exact ⟨healthy.noPanic, healthy.ended⟩

section Runs

/-- A wire on which every datagram is signed by one peer and opens to the same record. -/
def constantWire (r : Record) : Wire where
  PublicKey := Unit
  consumeTypedEnvelope _ := .ok (r, ())
  idFromBytes b := .ok b
  newMultiaddrBytes b := .ok b
  matchesPublicKey id _ := id == [1, 2, 3, 4]
  hashed own := by rw [beq_iff_eq.mp own]; decide

/-- A request in a namespace, or in one that cannot be read. -/
def requestIn (ns : Except String Namespace) : Record where
  which := .request
  ns := ns
  peer := .ok [1, 2, 3, 4]
  distance := 0
  addrs := .ok []

def crawlService : Service :=
  ⟨[9, 9, 9, 9], .crawl⟩

def delivered : Sending :=
  ⟨none, none, none, none⟩

def refused : Sending :=
  ⟨none, none, none, some (.net false "sendto: no route to host")⟩

theorem serve_survives_timeout :
    (machine (constantWire (requestIn (.ok [1]))) crawlService).Always
      (fun before s => (∀ fault, s.phase ≠ .panicked fault) ∧ (s.phase.ended = true → Justified before))
      [.track [1], .read (.ok ([0], "")) delivered, .read (.error (.net true "i/o timeout")) delivered, .check, .report,
        .decide, .close] := by
  refine serve_survives _ _ _ fun e member result sending isRead => ⟨fun datagram addr r key _ opened _ => ?_, ?_⟩
  · cases opened
    exact ⟨[1], rfl⟩
  · have isDelivered : sending = delivered := by
      rw [isRead] at member
      simp only [List.mem_cons, List.not_mem_nil, or_false, Event.read.injEq, reduceCtorEq, false_or] at member
      rcases member with first | second
      · exact first.2
      · exact second.2
    intro err isWrite
    rw [isDelivered] at isWrite
    cases isWrite

/-- A signed packet whose namespace cannot be read ends the program, and a response
that cannot be sent ends the service. -/
theorem datagram_stops_socket :
    ¬ (machine (constantWire (requestIn (.error "not a text"))) crawlService).Always
        (fun before s => (∀ fault, s.phase ≠ .panicked fault) ∧ (s.phase.ended = true → Justified before))
        [.read (.ok ([0], "")) delivered, .check, .report] ∧
      ¬ (machine (constantWire (requestIn (.ok [1]))) crawlService).Always
        (fun before s => (∀ fault, s.phase ≠ .panicked fault) ∧ (s.phase.ended = true → Justified before))
        [.track [1], .read (.ok ([0], "")) refused, .check, .report, .decide] := by
  constructor
  · intro always
    exact (always _ _ List.prefix_rfl rfl).1 _ rfl
  · intro always
    have justified := (always _ _ List.prefix_rfl rfl).2 rfl
    simp [Justified] at justified

end Runs

end Serve

end Casm.Boot
