import Casm.Lib.Machine
import Casm.Pulse.Validator

namespace Casm.Cluster
open MultiIndex (Bytes)

/-- The struct `View.Record`, by what its accessors return. -/
structure ViewRecord where
  peer : Except Fault Bytes
  seq : UInt64
  heartbeat : Except Fault Pulse.Heartbeat

/-- `newRecord` returns the struct that it has checked. -/
def newRecord (rec : ViewRecord) : Except Fault ViewRecord := do
  let hb ← rec.heartbeat.mapError (Fault.wrap "heartbeat: ")
  let _ ← hb.metadata.mapError (Fault.wrap "meta: ")
  let _ ← hb.host.mapError (Fault.wrap "host: ")
  let _ ← rec.peer.mapError (Fault.wrap "peer:  ")
  return rec

namespace Handler

/-- Where a call of `Recv` is: before the first token of the consumer, before the
record is sent, or before the token that lets it return. -/
inductive RecvPhase where
  | idle
  | waiting (rec : ViewRecord)
  | sending (r : ViewRecord)
  | delivered (r : ViewRecord)

/-- Where the consumer is in `Next`. -/
inductive NextPhase where
  | idle
  | putting
  | receiving
  deriving DecidableEq

/-- The handler with the calls of `Recv` that are still to be executed, the results
of those that have returned, and the results of `Next`. -/
structure State where
  init : Bool
  sync : Bool
  closed : Bool
  ctxDone : Bool
  calls : List (Except Fault ViewRecord)
  recv : RecvPhase
  next : NextPhase
  returned : List (Except Fault Unit)
  results : List (Option ViewRecord)

inductive Event where
  | call
  | put
  | recv
  | token
  | handoff
  | release
  | shutdown
  | receiveClosed
  | cancel
  | abort
  deriving DecidableEq

namespace State

/-- `newHandler`, with the calls of the server. -/
def newHandler (calls : List (Except Fault ViewRecord)) : State where
  init := false
  sync := false
  closed := false
  ctxDone := false
  calls := calls
  recv := .idle
  next := .idle
  returned := []
  results := []

def returnRecv (s : State) (result : Except Fault Unit) : State :=
  { s with recv := .idle, returned := s.returned ++ [result] }

def validate (s : State) (rec : ViewRecord) : State :=
  match newRecord rec with
  | .error fault => s.returnRecv (.error fault)
  | .ok r => { s with recv := .sending r }

/-- The next call of `Recv`. What it does before it reads a channel no one else sees. -/
def startRecv (s : State) (arg : Except Fault ViewRecord) (rest : List (Except Fault ViewRecord)) : State :=
  match arg with
  | .error fault => { s with calls := rest }.returnRecv (.error fault)
  | .ok rec =>
    if s.init then { s with calls := rest }.validate rec
    else { s with calls := rest, recv := .waiting rec }

/-- The handler is shut down when its last call has returned. -/
def step (s : State) : Event → Option State
  | .call => if s.next = .idle then some { s with next := .putting } else none
  | .put =>
    if s.next = .putting ∧ s.sync = false then some { s with sync := true, next := .receiving } else none
  | .recv =>
    match s.recv, s.calls with
    | .idle, arg :: rest => some (s.startRecv arg rest)
    | _, _ => none
  | .token =>
    match s.recv, s.sync with
    | .waiting rec, true => some ({ s with sync := false, init := true }.validate rec)
    | _, _ => none
  | .handoff =>
    match s.recv, s.next with
    | .sending r, .receiving =>
      some { s with recv := .delivered r, next := .idle, results := s.results ++ [some r] }
    | _, _ => none
  | .release =>
    match s.recv, s.sync with
    | .delivered _, true => some ({ s with sync := false }.returnRecv (.ok ()))
    | _, _ => none
  | .shutdown =>
    match s.recv, s.calls, s.closed with
    | .idle, [], false => some { s with closed := true }
    | _, _, _ => none
  | .receiveClosed =>
    match s.next, s.closed with
    | .receiving, true => some { s with next := .idle, results := s.results ++ [none] }
    | _, _ => none
  | .cancel => some { s with ctxDone := true }
  | .abort =>
    match s.recv, s.ctxDone with
    | .idle, _ => none
    | _, true => some (s.returnRecv (.error (.error "context canceled")))
    | _, false => none

end State

def machine (records : List ViewRecord) : Machine State Event where
  start := State.newHandler (records.map .ok)
  step := State.step

/-- The results of `Next` are the records in their order, and nil after the last. -/
def InOrder (records : List ViewRecord) (results : List (Option ViewRecord)) : Prop :=
  ∀ i, i < results.length → results[i]? = some records[i]?

/-- While the consumer is not in `Next`, the call that sent the record it got last
has not returned. -/
def Retained (s : State) : Prop :=
  ∀ r, s.next = .idle → s.results.getLast? = some (some r) →
    s.recv = .delivered r ∧ s.returned.length + 1 = s.results.length

/-- A call is being executed. -/
def RecvPhase.busy : RecvPhase → Nat
  | .idle => 0
  | _ => 1

/-- The call has sent its record. -/
def RecvPhase.sent : RecvPhase → Nat
  | .delivered _ => 1
  | _ => 0

def RecvPhase.record : RecvPhase → Option ViewRecord
  | .idle => none
  | .waiting r | .sending r | .delivered r => some r

/-- The call has passed the test of `init`. -/
def RecvPhase.passed : RecvPhase → Bool
  | .sending _ | .delivered _ => true
  | _ => false

/-- Where a call with a well-formed record comes to a channel. -/
def RecvPhase.entered (init : Bool) (r : ViewRecord) : RecvPhase :=
  if init then .sending r else .waiting r

/-- The consumer has put a token that `Next` has not returned for. -/
def NextPhase.asked : NextPhase → Nat
  | .receiving => 1
  | _ => 0

def NextPhase.index : NextPhase → Nat
  | .idle => 0
  | .putting => 1
  | .receiving => 2

/-- The tokens that were put are those that were taken and the one in the channel.
A call has passed the test of `init` as soon as the flag is set. -/
structure Handshake (records : List ViewRecord) (s : State) : Prop where
  live : s.ctxDone = false
  within : s.returned.length ≤ records.length
  calls : s.calls = (records.drop (s.returned.length + s.recv.busy)).map .ok
  current : ∀ r, s.recv.record = some r →
    records[s.returned.length]? = some r ∧ s.recv.passed = s.init ∧ s.closed = false
  results : InOrder records s.results
  counted : s.closed = false → s.results.length = s.returned.length + s.recv.sent
  tokens : s.results.length + s.next.asked = s.init.toNat + s.returned.length + s.sync.toNat
  fresh : s.init = false → s.returned.length = 0
  ended : s.closed = true → s.returned.length = records.length ∧ records.length ≤ s.results.length

/-- The number of steps that were taken, from what they left behind. -/
def State.progress (s : State) : Nat :=
  3 * s.results.length + s.next.index + 2 * s.returned.length + s.recv.busy + s.init.toNat + s.closed.toNat

section Steps

variable {records : List ViewRecord} {s s' : State} {r : ViewRecord}

theorem InOrder.concat {results : List (Option ViewRecord)} {result : Option ViewRecord}
    (inOrder : InOrder records results) (next : records[results.length]? = result) :
    InOrder records (results ++ [result]) := by
  intro i inside
  rw [List.length_append, List.length_singleton] at inside
  by_cases last : i = results.length
  · rw [last, List.getElem?_concat_length, next]
  · rw [List.getElem?_append_left (by omega)]
    exact inOrder i (by omega)

section Entered

variable (init : Bool) (r : ViewRecord)

theorem RecvPhase.busy_entered : (RecvPhase.entered init r).busy = 1 := by
  cases init <;> rfl

theorem RecvPhase.sent_entered : (RecvPhase.entered init r).sent = 0 := by
  cases init <;> rfl

theorem RecvPhase.record_entered : (RecvPhase.entered init r).record = some r := by
  cases init <;> rfl

theorem RecvPhase.passed_entered : (RecvPhase.entered init r).passed = init := by
  cases init <;> rfl

end Entered

theorem Handshake.new (records : List ViewRecord) : Handshake records (.newHandler (records.map .ok)) where
  live := rfl
  within := Nat.zero_le _
  calls := rfl
  current := nofun
  results := nofun
  counted _ := rfl
  tokens := rfl
  fresh _ := rfl
  ended := nofun

theorem Handshake.call (hs : Handshake records s) (idle : s.next = .idle) :
    Handshake records { s with next := .putting } := by
  have tokens := hs.tokens
  rw [idle] at tokens
  exact { hs with tokens := tokens }

theorem Handshake.put (hs : Handshake records s) (putting : s.next = .putting) (empty : s.sync = false) :
    Handshake records { s with sync := true, next := .receiving } := by
  have tokens := hs.tokens
  rw [putting, empty] at tokens
  refine { hs with tokens := ?_ }
  simp only [NextPhase.asked, Bool.toNat_true, Bool.toNat_false] at tokens ⊢
  omega

/-- The call that comes next has the first record that has not been sent. -/
theorem Handshake.firstCall (hs : Handshake records s) (idle : s.recv = .idle)
    {arg : Except Fault ViewRecord} {rest : List (Except Fault ViewRecord)} (isCall : s.calls = arg :: rest) :
    ∃ r, arg = .ok r ∧ records[s.returned.length]? = some r ∧
      rest = (records.drop (s.returned.length + 1)).map .ok := by
  have calls := hs.calls
  rw [idle, isCall] at calls
  obtain ⟨r, tail, isDrop, isArg, isRest⟩ := List.map_eq_cons_iff.mp calls.symm
  have isDrop : records.drop s.returned.length = r :: tail := isDrop
  refine ⟨r, isArg.symm, ?_, ?_⟩
  · rw [← List.head?_drop, isDrop]
    rfl
  · rw [← List.tail_drop, isDrop]
    exact isRest.symm

theorem Handshake.startRecv (hs : Handshake records s) (idle : s.recv = .idle)
    (isRecord : records[s.returned.length]? = some r) :
    Handshake records { s with
      calls := (records.drop (s.returned.length + 1)).map .ok, recv := .entered s.init r } := by
  have counted := hs.counted
  rw [idle] at counted
  have notClosed : s.closed = false := by
    by_contra closed
    rw [(hs.ended (Bool.eq_true_of_not_eq_false closed)).1, List.getElem?_length] at isRecord
    cases isRecord
  refine { hs with calls := ?_, current := ?_, counted := ?_ }
  · rw [RecvPhase.busy_entered]
  · intro r' isCurrent
    rw [RecvPhase.record_entered] at isCurrent
    cases isCurrent
    exact ⟨isRecord, RecvPhase.passed_entered .., notClosed⟩
  · rw [RecvPhase.sent_entered]
    exact counted

theorem Handshake.token (hs : Handshake records s) (waiting : s.recv = .waiting r) (full : s.sync = true) :
    Handshake records { s with sync := false, init := true, recv := .sending r } := by
  have tokens := hs.tokens
  have calls := hs.calls
  have current := hs.current
  have counted := hs.counted
  rw [waiting] at calls current counted
  obtain ⟨isRecord, notInit, notClosed⟩ := current r rfl
  rw [full, ← notInit] at tokens
  refine { hs with calls := calls, current := ?_, counted := counted, tokens := ?_, fresh := nofun }
  · intro _ isCurrent
    cases isCurrent
    exact ⟨isRecord, rfl, notClosed⟩
  · simp only [RecvPhase.passed, Bool.toNat_true, Bool.toNat_false] at tokens ⊢
    omega

theorem Handshake.handoff (hs : Handshake records s) (sending : s.recv = .sending r)
    (receiving : s.next = .receiving) :
    Handshake records { s with recv := .delivered r, next := .idle, results := s.results ++ [some r] } := by
  have tokens := hs.tokens
  have calls := hs.calls
  have current := hs.current
  have counted := hs.counted
  rw [sending] at calls current counted
  rw [receiving] at tokens
  obtain ⟨isRecord, isInit, notClosed⟩ := current r rfl
  have sameCount : s.results.length = s.returned.length := counted notClosed
  refine { hs with calls := calls, current := ?_, results := ?_, counted := ?_, tokens := ?_, ended := ?_ }
  · intro _ isCurrent
    cases isCurrent
    exact ⟨isRecord, isInit, notClosed⟩
  · rw [← sameCount] at isRecord
    exact hs.results.concat isRecord
  · intro _
    simp only [RecvPhase.sent, List.length_append, List.length_singleton]
    omega
  · simp only [NextPhase.asked, List.length_append, List.length_singleton] at tokens ⊢
    omega
  · intro closed
    rw [notClosed] at closed
    cases closed

theorem Handshake.release (hs : Handshake records s) (delivered : s.recv = .delivered r) (full : s.sync = true) :
    Handshake records ({ s with sync := false }.returnRecv (.ok ())) := by
  have tokens := hs.tokens
  have calls := hs.calls
  have current := hs.current
  have counted := hs.counted
  rw [delivered] at calls current counted
  rw [full] at tokens
  obtain ⟨isRecord, isInit, notClosed⟩ := current r rfl
  have inside := (List.getElem?_eq_some_iff.mp isRecord).1
  have sameCount : s.results.length = s.returned.length + 1 := counted notClosed
  have oneMore : (s.returned ++ [Except.ok ()]).length = s.returned.length + 1 := by simp
  refine { hs with within := ?_, calls := ?_, current := nofun, counted := ?_, tokens := ?_, fresh := ?_, ended := ?_ }
  · simp only [State.returnRecv, oneMore]
    exact inside
  · simp only [State.returnRecv, oneMore]
    exact calls
  · intro _
    simp only [State.returnRecv, oneMore]
    exact sameCount
  · simp only [State.returnRecv, oneMore, Bool.toNat_true, Bool.toNat_false] at tokens ⊢
    omega
  · intro notInit
    cases isInit.trans notInit
  · intro closed
    cases notClosed.symm.trans closed

theorem Handshake.shutdown (hs : Handshake records s) (idle : s.recv = .idle) (noCalls : s.calls = [])
    (notClosed : s.closed = false) : Handshake records { s with closed := true } := by
  have calls := hs.calls
  have counted := hs.counted notClosed
  rw [idle] at calls counted
  rw [noCalls] at calls
  have all : records.length ≤ s.returned.length :=
    List.drop_eq_nil_iff.mp (List.map_eq_nil_iff.mp calls.symm)
  refine { hs with current := ?_, counted := nofun, ended := ?_ }
  · intro r isCurrent
    rw [idle] at isCurrent
    cases isCurrent
  · intro _
    have same : s.returned.length = records.length := le_antisymm hs.within all
    exact ⟨same, same.symm.le.trans counted.symm.le⟩

theorem Handshake.receiveClosed (hs : Handshake records s) (receiving : s.next = .receiving)
    (closed : s.closed = true) : Handshake records { s with next := .idle, results := s.results ++ [none] } := by
  have tokens := hs.tokens
  rw [receiving] at tokens
  obtain ⟨all, past⟩ := hs.ended closed
  refine { hs with results := ?_, counted := ?_, tokens := ?_, ended := ?_ }
  · exact hs.results.concat (List.getElem?_eq_none past)
  · intro notClosed
    cases closed.symm.trans notClosed
  · simp only [NextPhase.asked, List.length_append, List.length_singleton] at tokens ⊢
    omega
  · intro _
    simp only [List.length_append, List.length_singleton]
    exact ⟨all, by omega⟩

theorem validate_eq (wellFormed : newRecord r = .ok r) : s.validate r = { s with recv := .sending r } := by
  rw [State.validate, wellFormed]

theorem startRecv_eq (wellFormed : newRecord r = .ok r) (rest : List (Except Fault ViewRecord)) :
    s.startRecv (.ok r) rest =
      { s with calls := rest, recv := .entered s.init r } := by
  cases isInit : s.init with
  | false => simp [State.startRecv, RecvPhase.entered, isInit]
  | true => simp [State.startRecv, RecvPhase.entered, isInit, validate_eq wellFormed]

/-- The steps that well-formed records leave when nothing is cancelled. -/
inductive Turn (records : List ViewRecord) (s : State) : State → Prop
  | call : s.next = .idle → Turn records s { s with next := .putting }
  | put : s.next = .putting → s.sync = false → Turn records s { s with sync := true, next := .receiving }
  | recv {r : ViewRecord} : s.recv = .idle → records[s.returned.length]? = some r →
      Turn records s { s with
        calls := (records.drop (s.returned.length + 1)).map .ok, recv := .entered s.init r }
  | token {r : ViewRecord} : s.recv = .waiting r → s.sync = true →
      Turn records s { s with sync := false, init := true, recv := .sending r }
  | handoff {r : ViewRecord} : s.recv = .sending r → s.next = .receiving →
      Turn records s { s with recv := .delivered r, next := .idle, results := s.results ++ [some r] }
  | release {r : ViewRecord} : s.recv = .delivered r → s.sync = true →
      Turn records s ({ s with sync := false }.returnRecv (.ok ()))
  | shutdown : s.recv = .idle → s.calls = [] → s.closed = false → Turn records s { s with closed := true }
  | receiveClosed : s.next = .receiving → s.closed = true →
      Turn records s { s with next := .idle, results := s.results ++ [none] }

theorem Handshake.turn_of_step (wellFormed : ∀ r ∈ records, newRecord r = .ok r) (hs : Handshake records s)
    {e : Event} (notCancel : e ≠ .cancel) (step : s.step e = some s') : Turn records s s' := by
  cases e <;> simp only [State.step] at step
  case call =>
    split at step <;> cases step
    rename_i idle
    exact .call idle
  case put =>
    split at step <;> cases step
    rename_i ready
    exact .put ready.1 ready.2
  case recv =>
    split at step <;> cases step
    rename_i arg rest idle isCall
    obtain ⟨r, isArg, isRecord, isRest⟩ := hs.firstCall idle isCall
    rw [isArg, startRecv_eq (wellFormed r (List.mem_of_getElem? isRecord)), isRest]
    exact .recv idle isRecord
  case token =>
    split at step <;> cases step
    rename_i r waiting full
    have isRecord := (hs.current r (by rw [waiting]; rfl)).1
    rw [validate_eq (wellFormed r (List.mem_of_getElem? isRecord))]
    exact .token waiting full
  case handoff =>
    split at step <;> cases step
    rename_i sending receiving
    exact .handoff sending receiving
  case release =>
    split at step <;> cases step
    rename_i delivered full
    exact .release delivered full
  case shutdown =>
    split at step <;> cases step
    rename_i idle noCalls notClosed
    exact .shutdown idle noCalls notClosed
  case receiveClosed =>
    split at step <;> cases step
    rename_i receiving closed
    exact .receiveClosed receiving closed
  case cancel => exact absurd rfl notCancel
  case abort =>
    have live := hs.live
    cases phase : s.recv <;> simp [phase, live] at step

theorem Handshake.turn (hs : Handshake records s) (turn : Turn records s s') : Handshake records s' := by
  cases turn with
  | call idle => exact hs.call idle
  | put putting empty => exact hs.put putting empty
  | recv idle isRecord => exact hs.startRecv idle isRecord
  | token waiting full => exact hs.token waiting full
  | handoff sending receiving => exact hs.handoff sending receiving
  | release delivered full => exact hs.release delivered full
  | shutdown idle noCalls notClosed => exact hs.shutdown idle noCalls notClosed
  | receiveClosed receiving closed => exact hs.receiveClosed receiving closed

theorem Handshake.progress_turn (hs : Handshake records s) (turn : Turn records s s') :
    s'.progress = s.progress + 1 := by
  cases turn with
  | call idle =>
    simp only [State.progress, idle, NextPhase.index]
    omega
  | put putting empty =>
    simp only [State.progress, putting, NextPhase.index]
    omega
  | recv idle isRecord =>
    have notBusy : s.recv.busy = 0 := by rw [idle]; rfl
    simp only [State.progress, RecvPhase.busy_entered, notBusy]
    omega
  | @token r waiting full =>
    have notInit := (hs.current r (by rw [waiting]; rfl)).2.1
    rw [waiting] at notInit
    simp only [State.progress, waiting, ← notInit, RecvPhase.busy, RecvPhase.passed, Bool.toNat_true,
      Bool.toNat_false]
    omega
  | handoff sending receiving =>
    simp only [State.progress, sending, receiving, RecvPhase.busy, NextPhase.index, List.length_append,
      List.length_singleton]
    omega
  | release delivered full =>
    simp only [State.progress, State.returnRecv, delivered, RecvPhase.busy, List.length_append,
      List.length_singleton]
    omega
  | shutdown idle noCalls notClosed =>
    simp only [State.progress, notClosed, Bool.toNat_true, Bool.toNat_false]
  | receiveClosed receiving closed =>
    simp only [State.progress, receiving, NextPhase.index, List.length_append, List.length_singleton]
    omega

/-- Nil has been returned after all records. -/
def Exhausted (records : List ViewRecord) (s : State) : Prop :=
  records.map some ++ [none] <+: s.results

theorem Handshake.exhausted (hs : Handshake records s) (past : records.length < s.results.length) :
    Exhausted records s := by
  refine List.prefix_iff_getElem?.mpr fun i inside => ?_
  simp only [List.length_append, List.length_map, List.length_singleton] at inside
  rw [hs.results i (by omega)]
  by_cases last : i = records.length
  · simp [last]
  · have isRecord : i < records.length := by omega
    simp [isRecord]

theorem RecvPhase.idle_or_record (p : RecvPhase) : p = .idle ∨ ∃ r, p.record = some r := by
  cases p with
  | idle => exact Or.inl rfl
  | _ r => exact Or.inr ⟨r, rfl⟩

theorem RecvPhase.busy_le (p : RecvPhase) : p.busy ≤ 1 := by
  cases p with
  | idle => exact Nat.zero_le 1
  | _ => exact le_rfl

theorem RecvPhase.sent_cases (p : RecvPhase) : p.sent = 0 ∨ ∃ r, p = .delivered r := by
  cases p with
  | delivered r => exact Or.inr ⟨r, rfl⟩
  | _ => exact Or.inl rfl

theorem Handshake.idle_of_closed (hs : Handshake records s) (closed : s.closed = true) : s.recv = .idle := by
  rcases s.recv.idle_or_record with idle | ⟨r, isRecord⟩
  · exact idle
  · cases closed.symm.trans (hs.current r isRecord).2.2

/-- Until nil is returned, `Next` has returned what the calls have sent. -/
theorem Handshake.balance (hs : Handshake records s) (before : s.results.length ≤ records.length) :
    s.results.length = s.returned.length + s.recv.sent ∧
      s.recv.sent + s.next.asked = s.init.toNat + s.sync.toNat := by
  have tokens := hs.tokens
  cases closed : s.closed with
  | false =>
    have counted := hs.counted closed
    exact ⟨counted, by omega⟩
  | true =>
    obtain ⟨all, past⟩ := hs.ended closed
    have unsent : s.recv.sent = 0 := by rw [hs.idle_of_closed closed]; rfl
    exact ⟨by omega, by omega⟩

/-- Outside `Next` there is no token for the call that sent the last record. -/
theorem Handshake.retained (hs : Handshake records s) : Retained s := by
  intro r idle last
  have nonempty : 0 < s.results.length := List.length_pos_iff.mpr (by rintro empty; simp [empty] at last)
  rw [List.getLast?_eq_getElem?, hs.results _ (by omega)] at last
  have isLast : records[s.results.length - 1]? = some r := Option.some.inj last
  have inside := (List.getElem?_eq_some_iff.mp isLast).1
  obtain ⟨counted, tokens⟩ := hs.balance (by omega)
  rw [idle] at tokens
  simp only [NextPhase.asked] at tokens
  rcases s.recv.sent_cases with unsent | ⟨r', delivered⟩
  · -- then the flag is not set, and no call has returned
    have notInit : s.init = false := Bool.toNat_eq_zero.mp (by omega)
    have fresh := hs.fresh notInit
    omega
  · have isRecord := (hs.current r' (by rw [delivered]; rfl)).1
    rw [delivered] at counted ⊢
    simp only [RecvPhase.sent] at counted
    rw [counted, Nat.add_sub_cancel, isRecord] at isLast
    cases isLast
    exact ⟨rfl, counted.symm⟩

theorem Handshake.slot_empty (hs : Handshake records s) (before : s.results.length ≤ records.length)
    (putting : s.next = .putting) : s.sync = false := by
  obtain ⟨_, tokens⟩ := hs.balance before
  rw [putting] at tokens
  simp only [NextPhase.asked] at tokens
  refine Bool.toNat_eq_zero.mp ?_
  rcases s.recv.sent_cases with unsent | ⟨r, delivered⟩
  · omega
  · have isInit := (hs.current r (by rw [delivered]; rfl)).2.1
    rw [delivered] at isInit tokens
    rw [← isInit] at tokens
    simp only [RecvPhase.sent, RecvPhase.passed, Bool.toNat_true] at tokens
    omega

/-- A call that waits for a token finds one while the consumer receives. -/
theorem Handshake.slot_full (hs : Handshake records s) (before : s.results.length ≤ records.length)
    (receiving : s.next = .receiving) (isCall : s.recv.record = some r)
    (awaits : s.recv.sent = s.recv.passed.toNat) : s.sync = true := by
  obtain ⟨_, tokens⟩ := hs.balance before
  rw [receiving, awaits, (hs.current r isCall).2.1] at tokens
  simp only [NextPhase.asked] at tokens
  exact Bool.toNat_eq_one.mp (by omega)

/-- Until nil is returned, a step is possible. -/
theorem Handshake.enabled (hs : Handshake records s) (before : s.results.length ≤ records.length) :
    ∃ e s', e ≠ .cancel ∧ s.step e = some s' := by
  cases next : s.next with
  | idle => exact ⟨.call, _, nofun, if_pos next⟩
  | putting => exact ⟨.put, _, nofun, if_pos ⟨next, hs.slot_empty before next⟩⟩
  | receiving =>
    cases recv : s.recv with
    | idle =>
      cases calls : s.calls with
      | cons arg rest => exact ⟨.recv, s.startRecv arg rest, nofun, by simp only [State.step, recv, calls]⟩
      | nil =>
        cases closed : s.closed with
        | false => exact ⟨.shutdown, { s with closed := true }, nofun, by simp only [State.step, recv, calls, closed]⟩
        | true => exact ⟨.receiveClosed, _, nofun, by simp only [State.step, next, closed]; rfl⟩
    | waiting r =>
      have full := hs.slot_full before next (by rw [recv]; rfl) (by rw [recv]; rfl)
      exact ⟨.token, _, nofun, by simp only [State.step, recv, full]; rfl⟩
    | sending r => exact ⟨.handoff, _, nofun, by simp only [State.step, next, recv]; rfl⟩
    | delivered r =>
      have full := hs.slot_full before next (by rw [recv]; rfl) (by rw [recv]; rfl)
      exact ⟨.release, _, nofun, by simp only [State.step, recv, full]; rfl⟩

theorem Handshake.progress_lt (hs : Handshake records s) (before : s.results.length ≤ records.length) :
    s.progress < 5 * records.length + 5 := by
  have asking : s.next.index ≤ 2 := by cases s.next <;> decide
  have receiving : 2 * s.returned.length + s.recv.busy ≤ 2 * records.length := by
    have within := hs.within
    rcases s.recv.idle_or_record with idle | ⟨r, isCall⟩
    · rw [idle]
      exact Nat.mul_le_mul_left 2 within
    · have inside := (List.getElem?_eq_some_iff.mp (hs.current r isCall).1).1
      have busy := s.recv.busy_le
      omega
  have init := s.init.toNat_le
  have closed := s.closed.toNat_le
  rw [State.progress]
  omega

end Steps

/-- In every run without cancellation the handshake holds, and whatever else its
steps keep. -/
theorem always_handshake {records : List ViewRecord} (wellFormed : ∀ r ∈ records, newRecord r = .ok r)
    {events : List Event} (uncancelled : .cancel ∉ events) {P : List Event → State → Prop}
    {C : List Event → State → Event → Prop} (met : (machine records).Throughout C events)
    (start : P [] (.newHandler (records.map .ok)))
    (kept : ∀ before s e s', Handshake records s → P before s → C before s e → Turn records s s' →
      s.step e = some s' → P (before ++ [e]) s') :
    (machine records).Always (fun before s => Handshake records s ∧ P before s) events := by
  have noCancel : (machine records).Throughout (fun before s e => e ≠ .cancel ∧ C before s e) events := by
    intro before e s s' isBefore reached step
    refine ⟨?_, met before e s s' isBefore reached step⟩
    rintro rfl
    exact uncancelled (isBefore.subset (List.mem_concat_self ..))
  refine Machine.always_of_throughout (machine records).invariant_true ⟨Handshake.new records, start⟩ ?_ noCancel
  intro before s e s' _ ⟨hs, holds⟩ ⟨notCancel, allowed⟩ step
  have turn := hs.turn_of_step wellFormed notCancel step
  exact ⟨hs.turn turn, kept before s e s' hs holds allowed turn step⟩

/-- Without cancellation and for well-formed records, `Next` returns the records and
then nil: what it has returned is in order, every run that has not come to nil goes
on, and all runs come to nil in a bounded number of steps. A call of `Recv` stays
with the record that the consumer holds. -/
theorem next_returns_records (records : List ViewRecord) (wellFormed : ∀ r ∈ records, newRecord r = .ok r)
    (events : List Event) (uncancelled : .cancel ∉ events) (s : State)
    (reached : (machine records).run events = some s) :
    InOrder records s.results ∧ Retained s ∧
      (Exhausted records s ∨
        events.length < 5 * records.length + 5 ∧ ∃ e s', e ≠ .cancel ∧ s.step e = some s') := by
  have counted : (machine records).Always (fun before s => Handshake records s ∧ before.length = s.progress)
      events := by
    refine always_handshake (C := fun _ _ _ => True) wellFormed uncancelled (fun _ _ _ _ _ _ _ => trivial) rfl ?_
    intro before s e s' hs length _ turn _
    rw [List.length_append, List.length_singleton, length, hs.progress_turn turn]
  obtain ⟨hs, length⟩ := counted events s List.prefix_rfl reached
  refine ⟨hs.results, hs.retained, ?_⟩
  by_cases past : records.length < s.results.length
  · exact Or.inl (hs.exhausted past)
  · have before : s.results.length ≤ records.length := by omega
    rw [length]
    exact Or.inr ⟨hs.progress_lt before, hs.enabled before⟩

/-- A record that can be read. -/
def plainView : ViewRecord where
  peer := .ok [1]
  seq := 1
  heartbeat := .ok ⟨0, 1, .ok [97], .ok []⟩

/-- Ten steps, after which the bound leaves no more. -/
def oneRecordRun : List Event :=
  [.call, .put, .recv, .token, .handoff, .call, .put, .release, .shutdown, .receiveClosed]

/-- Where the run ends. -/
def oneRecordEnd : State where
  init := true
  sync := false
  closed := true
  ctxDone := false
  calls := []
  recv := .idle
  next := .idle
  returned := [.ok ()]
  results := [some plainView, none]

theorem next_returns_records_one : (∀ r ∈ [plainView], newRecord r = .ok r) ∧
    (machine [plainView]).run oneRecordRun = some oneRecordEnd ∧ Exhausted [plainView] oneRecordEnd := by
  have wellFormed : ∀ r ∈ [plainView], newRecord r = .ok r := by
    intro r isOnly
    rw [List.mem_singleton.mp isOnly]
    rfl
  have reached : (machine [plainView]).run oneRecordRun = some oneRecordEnd := rfl
  refine ⟨wellFormed, reached, ?_⟩
  obtain ⟨_, _, ended | ⟨less, _⟩⟩ :=
    next_returns_records [plainView] wellFormed oneRecordRun (by decide) oneRecordEnd reached
  · exact ended
  · exact absurd less (by decide)

end Handler

end Casm.Cluster
