import Casm.Cluster.Router

namespace Casm.Cluster.Threads

inductive Request where
  | bootstrap
  | stop
  | id
  deriving DecidableEq

/-- Where a call is. In `assign` and `asking` it holds the mutex, in `checked` it has
seen that the clock runs and has not entered its select yet. A call that is parked in
its select has the channel, or nil in its place. -/
inductive Phase where
  | setup
  | lockSetup
  | assign
  | load
  | lockRelay
  | asking
  | check
  | checked
  | parked (announce : Bool)
  | swap
  | stopping
  | returned (result : Except Fault Unit)

structure Thread where
  request : Request
  ctxDone : Bool
  phase : Phase

/-- The goroutine of `advance`: not started, in its loop, past it with its deferred
calls to run, or over. -/
inductive Advance where
  | idle
  | running
  | leaving
  | ended
  deriving DecidableEq

inductive Heartbeat where
  | idle
  | receiving
  | emitting
  | backoff
  | ended
  deriving DecidableEq

structure State where
  router : Router
  mu : Option Nat
  closed : Bool
  advance : Advance
  heartbeat : Heartbeat
  threads : Nat → Option Thread

inductive SelectCase where
  | send
  | clockDone
  | ctxDone
  | park

inductive Advance.Event where
  | tick (announces : Bool)
  | leave
  | close

inductive Heartbeat.Event where
  | take (i : Nat)
  | rangeEnd
  | emitted
  | canceled
  | failed
  | resume
  | giveUp

/-- What happens next: a call begins, its context ends, it takes its next step, has
an answer of `Topic.Relay` or takes a case of its select; or a goroutine goes on. -/
inductive Event where
  | start (i : Nat) (request : Request)
  | cancel (i : Nat)
  | own (i : Nat)
  | relay (i : Nat) (topic : Except String Unit)
  | select (i : Nat) (c : SelectCase)
  | advance (e : Advance.Event)
  | heartbeat (e : Heartbeat.Event)

def sendOnClosed : Fault :=
  .panic "send on closed channel"

def canceled : Fault :=
  .error "context canceled"

def Request.first : Request → Phase
  | .stop => .swap
  | _ => .setup

def Request.afterSetup : Request → Phase
  | .bootstrap => .load
  | _ => .returned (.ok ())

/-- Where the test of the clock leads. -/
def Phase.ofBootstrapping : Router.Bootstrapping → Phase
  | .returned result => .returned result
  | .selecting => .checked

/-- The end of the clock's context wakes the calls that are parked. -/
def Phase.clockDone : Phase → Phase
  | .parked _ => .returned (.error Router.errClosing)
  | phase => phase

/-- A sender that is parked on a channel panics when it is closed. -/
def Phase.close : Phase → Phase
  | .parked true => .returned (.error sendOnClosed)
  | phase => phase

def Phase.cancel : Phase → Phase
  | .parked _ => .returned (.error canceled)
  | phase => phase

namespace State

def new (clock : Option Clock) : State where
  router := .new clock
  mu := none
  closed := false
  advance := .idle
  heartbeat := .idle
  threads _ := none

def setThread (s : State) (i : Nat) (t : Thread) : State :=
  { s with threads := Function.update s.threads i (some t) }

def moveTo (s : State) (i : Nat) (t : Thread) (phase : Phase) : State :=
  s.setThread i { t with phase := phase }

def mapPhases (s : State) (f : Phase → Phase) : State :=
  { s with threads := fun i => (s.threads i).map fun t => { t with phase := f t.phase } }

/-- The next step of a call by itself. To lock the mutex and test the flag is one step. -/
def own (s : State) (i : Nat) (t : Thread) : Option State :=
  match t.phase with
  | .setup => some (s.moveTo i t (if s.router.init then t.request.afterSetup else .lockSetup))
  | .lockSetup =>
    if s.mu.isSome then none
    else if s.router.init then some (s.moveTo i t t.request.afterSetup)
    else some ({ s with router := { s.router with init := true }, mu := some i }.moveTo i t .assign)
  | .assign => some ({ s with router := s.router.assign, mu := none }.moveTo i t t.request.afterSetup)
  | .load => some (s.moveTo i t (if s.router.relaying then .check else .lockRelay))
  | .lockRelay =>
    if s.mu.isSome then none
    else if s.router.relaying then some (s.moveTo i t .check)
    else some ({ s with router := { s.router with relaying := true }, mu := some i }.moveTo i t .asking)
  | .check => some (s.moveTo i t (.ofBootstrapping s.router.checkClock))
  | .swap =>
    some ({ s with router := { s.router with relaying := true } }.moveTo i t
      (if s.router.relaying then .stopping else .returned (.ok ())))
  | .stopping =>
    match s.router.clock with
    | none => some (s.moveTo i t (.returned (.error Router.nilDereference)))
    | some _ =>
      some (({ s with router := s.router.stopClock.1 }.mapPhases .clockDone).moveTo i t (.returned (.ok ())))
  | _ => none

def relay (s : State) (i : Nat) (t : Thread) (topic : Except String Unit) : Option State :=
  match t.phase, topic with
  | .asking, .error msg => some ({ s with mu := none }.moveTo i t (.returned (.error (.error msg))))
  | .asking, .ok () =>
    some ({ s with
      router := { s.router with started := true }, mu := none, advance := .running,
      heartbeat := .receiving }.moveTo i t .check)
  | _, _ => none

/-- The select of `Bootstrap`. Nothing is ever ready on a nil channel. -/
def select (s : State) (i : Nat) (t : Thread) (c : SelectCase) : Option State :=
  match t.phase, c with
  | .checked, .send =>
    if s.router.announce = false then none
    else if s.closed then some (s.moveTo i t (.returned (.error sendOnClosed)))
    else if s.heartbeat = .receiving then some ({ s with heartbeat := .emitting }.moveTo i t (.returned (.ok ())))
    else none
  | .checked, .clockDone =>
    if s.router.stopped then some (s.moveTo i t (.returned (.error Router.errClosing))) else none
  | .checked, .ctxDone => if t.ctxDone then some (s.moveTo i t (.returned (.error canceled))) else none
  | .checked, .park =>
    if s.router.stopped || t.ctxDone || (s.router.announce && s.closed) then none
    else some (s.moveTo i t (.parked s.router.announce))
  | _, _ => none

/-- `advance` announces if the heartbeat is at its receive. Its deferred calls stop
the clock, which has been stopped, and close the channel. -/
def advanceStep (s : State) (e : Advance.Event) : Option State :=
  match s.advance, e with
  | .running, .tick announces =>
    if announces then
      if s.heartbeat = .receiving then some { s with heartbeat := .emitting } else none
    else some s
  | .running, .leave => if s.router.stopped then some { s with advance := .leaving } else none
  | .leaving, .close => some { s.mapPhases .close with closed := true, advance := .ended }
  | _, _ => none

def heartbeatStep (s : State) (e : Heartbeat.Event) : Option State :=
  match s.heartbeat, e with
  | .receiving, .take i =>
    match s.threads i with
    | some ⟨request, ctxDone, .parked true⟩ =>
      some ({ s with heartbeat := .emitting }.setThread i ⟨request, ctxDone, .returned (.ok ())⟩)
    | _ => none
  | .receiving, .rangeEnd => if s.closed then some { s with heartbeat := .ended } else none
  | .emitting, .emitted => some { s with heartbeat := .receiving }
  | .emitting, .canceled => some { s with heartbeat := .ended }
  | .emitting, .failed => some { s with heartbeat := .backoff }
  | .backoff, .resume => some { s with heartbeat := .receiving }
  | .backoff, .giveUp => if s.router.stopped then some { s with heartbeat := .ended } else none
  | _, _ => none

def step (s : State) : Event → Option State
  | .start i request =>
    if (s.threads i).isNone then some (s.setThread i ⟨request, false, request.first⟩) else none
  | .cancel i => (s.threads i).map fun t => s.setThread i ⟨t.request, true, t.phase.cancel⟩
  | .own i => (s.threads i).bind (s.own i)
  | .relay i topic => (s.threads i).bind (s.relay i · topic)
  | .select i c => (s.threads i).bind (s.select i · c)
  | .advance e => s.advanceStep e
  | .heartbeat e => s.heartbeatStep e

/-- A call is in the phase. -/
def At (s : State) (i : Nat) (phase : Phase) : Prop :=
  ∃ t, s.threads i = some t ∧ t.phase = phase

end State

def machine (clock : Option Clock) : Machine State Event where
  start := State.new clock
  step := State.step

/-- No call has sent on the closed channel. -/
def NoSendOnClosed (s : State) : Prop :=
  ∀ i, ¬ s.At i (.returned (.error sendOnClosed))

/-- When the channel is closed, no call is between its test of the clock and its select. -/
def Unhurried (s : State) (e : Event) : Prop :=
  e = .advance .close → ∀ i, ¬ s.At i .checked

section Steps

variable {s s' : State} {i j : Nat} {t : Thread} {p q : Phase} {e : Event}

theorem setThread_self : (s.setThread i t).threads i = some t :=
  Function.update_self ..

theorem setThread_of_ne (other : j ≠ i) : (s.setThread i t).threads j = s.threads j :=
  Function.update_of_ne other ..

theorem at_setThread (reached : (s.setThread i t).At j q) : (j = i ∧ t.phase = q) ∨ (j ≠ i ∧ s.At j q) := by
  obtain ⟨t', isThread, isPhase⟩ := reached
  rcases Function.update_cases isThread with ⟨same, isSet⟩ | ⟨other, before⟩
  · cases isSet
    exact Or.inl ⟨same, isPhase⟩
  · exact Or.inr ⟨other, t', before, isPhase⟩

theorem at_mapPhases {f : Phase → Phase} (reached : (s.mapPhases f).At i q) : ∃ p, s.At i p ∧ f p = q := by
  obtain ⟨t', isThread, isPhase⟩ := reached
  obtain ⟨t, isBefore, isMapped⟩ := Option.map_eq_some_iff.mp isThread
  cases isMapped
  exact ⟨t.phase, ⟨t, isBefore, rfl⟩, isPhase⟩

/-- What it takes for a call to enter a phase. -/
def Phase.Enters (s : State) (i : Nat) : Phase → Prop
  | .checked | .parked _ => s.router.stopped = false
  | .returned result => result = .error sendOnClosed → s.closed = true ∧ s.At i .checked
  | _ => True

/-- One call goes to a phase. The clock goes on, and `advance` is not told to leave. -/
structure Moves (s s' : State) (i : Nat) (p : Phase) : Prop where
  reached : ∀ j q, s'.At j q → (j = i ∧ p = q) ∨ s.At j q
  stopped : s'.router.stopped = s.router.stopped
  closed : s'.closed = s.closed
  leaving : s'.advance = .leaving → s.advance = .leaving

/-- The calls stay where they are. -/
structure Rests (s s' : State) : Prop where
  threads : s'.threads = s.threads
  stopped : s'.router.stopped = s.router.stopped
  closed : s'.closed = s.closed
  leaving : s'.advance = .leaving → s.router.stopped = true ∨ s.advance = .leaving

/-- The clock is stopped, which wakes the calls that are parked. -/
structure Stops (s s' : State) : Prop where
  woken : ∀ j q, s'.At j q →
    (s.At j q ∧ ∀ a, q ≠ .parked a) ∨ ∃ result, q = .returned result ∧ result ≠ .error sendOnClosed
  stopped : s'.router.stopped = true
  closed : s'.closed = s.closed
  leaving : s'.advance = .leaving → s.advance = .leaving

theorem Rests.at_of_at (rests : Rests s s') (reached : s'.At j q) : s.At j q := by
  obtain ⟨t, known, isPhase⟩ := reached
  exact ⟨t, rests.threads ▸ known, isPhase⟩

theorem moves_setThread (known : s'.threads = s.threads) (stopped : s'.router.stopped = s.router.stopped)
    (closed : s'.closed = s.closed) (leaving : s'.advance = .leaving → s.advance = .leaving) :
    Moves s (s'.setThread i t) i t.phase where
  reached j q reached := by
    rcases at_setThread reached with isMoved | ⟨_, t', isThread, isPhase⟩
    · exact Or.inl isMoved
    · exact Or.inr ⟨t', known ▸ isThread, isPhase⟩
  stopped := stopped
  closed := closed
  leaving := leaving

theorem Request.afterSetup_enters (request : Request) : request.afterSetup.Enters s i := by
  cases request with
  | bootstrap => trivial
  | stop => exact nofun
  | id => exact nofun

theorem checkClock_enters (s : State) (i : Nat) :
    (Phase.ofBootstrapping s.router.checkClock).Enters s i := by
  cases clock : s.router.clock with
  | none => simp [Router.checkClock, Phase.ofBootstrapping, Phase.Enters, Router.nilDereference, sendOnClosed, clock]
  | some c =>
    cases stopped : c.stopped with
    | true =>
      simp [Router.checkClock, Phase.ofBootstrapping, Phase.Enters, Router.errClosing, sendOnClosed, clock, stopped]
    | false =>
      simp [Router.checkClock, Phase.ofBootstrapping, Phase.Enters, Router.stopped, clock, stopped]

theorem at_clockDone (reached : (s.mapPhases .clockDone).At j q) :
    (s.At j q ∧ ∀ a, q ≠ .parked a) ∨ ∃ result, q = .returned result ∧ result ≠ .error sendOnClosed := by
  obtain ⟨p, before, isWoken⟩ := at_mapPhases reached
  subst isWoken
  cases p with
  | parked a => exact Or.inr ⟨.error Router.errClosing, rfl, nofun⟩
  | _ => exact Or.inl ⟨before, nofun⟩

theorem stops_of_set {c : Clock} (isSet : s.router.clock = some c) : Stops s
    (({ s with router := s.router.stopClock.1 }.mapPhases .clockDone).moveTo i t (.returned (.ok ()))) where
  woken j q reached := by
    rcases at_setThread reached with ⟨_, isReturned⟩ | ⟨_, woken⟩
    · exact Or.inr ⟨.ok (), isReturned.symm, nofun⟩
    · exact at_clockDone woken
  stopped := by
    show s.router.stopClock.1.stopped = true
    rw [Router.stopClock, isSet]
    rfl
  closed := rfl
  leaving := id

/-- A step of a call by itself moves that call, or stops the clock. -/
theorem own_cases (step : s.own i t = some s') : (∃ p, Moves s s' i p ∧ p.Enters s i) ∨ Stops s s' := by
  cases phase : t.phase <;> simp only [State.own, phase, reduceCtorEq] at step
  case setup =>
    cases step
    refine Or.inl ⟨_, moves_setThread rfl rfl rfl id, ?_⟩
    show Phase.Enters s i (if s.router.init then t.request.afterSetup else .lockSetup)
    split
    · exact t.request.afterSetup_enters
    · trivial
  case lockSetup =>
    split at step
    · cases step
    · split at step
      · cases step
        exact Or.inl ⟨_, moves_setThread rfl rfl rfl id, t.request.afterSetup_enters⟩
      · cases step
        exact Or.inl ⟨_, moves_setThread rfl rfl rfl id, trivial⟩
  case assign =>
    cases step
    exact Or.inl ⟨_, moves_setThread rfl Router.assign_stopped rfl id, t.request.afterSetup_enters⟩
  case load =>
    cases step
    refine Or.inl ⟨_, moves_setThread rfl rfl rfl id, ?_⟩
    show Phase.Enters s i (if s.router.relaying then .check else .lockRelay)
    split <;> trivial
  case lockRelay =>
    split at step
    · cases step
    · split at step
      · cases step
        exact Or.inl ⟨_, moves_setThread rfl rfl rfl id, trivial⟩
      · cases step
        exact Or.inl ⟨_, moves_setThread rfl rfl rfl id, trivial⟩
  case check =>
    cases step
    exact Or.inl ⟨_, moves_setThread rfl rfl rfl id, checkClock_enters s i⟩
  case swap =>
    cases step
    refine Or.inl ⟨_, moves_setThread rfl rfl rfl id, ?_⟩
    show Phase.Enters s i (if s.router.relaying then .stopping else .returned (.ok ()))
    split
    · trivial
    · exact nofun
  case stopping =>
    split at step
    case h_1 =>
      cases step
      exact Or.inl ⟨_, moves_setThread rfl rfl rfl id, nofun⟩
    case h_2 clock isSet =>
      cases step
      exact Or.inr (stops_of_set isSet)

theorem relay_cases {topic : Except String Unit} (step : s.relay i t topic = some s') :
    ∃ p, Moves s s' i p ∧ p.Enters s i := by
  unfold State.relay at step
  split at step
  · cases step
    exact ⟨_, moves_setThread rfl rfl rfl id, nofun⟩
  · cases step
    exact ⟨_, moves_setThread rfl rfl rfl nofun, trivial⟩
  · cases step

theorem select_cases {c : SelectCase} (known : s.threads i = some t) (step : s.select i t c = some s') :
    ∃ p, Moves s s' i p ∧ p.Enters s i := by
  unfold State.select at step
  split at step
  case h_1 isChecked =>
    split at step
    · cases step
    · split at step
      · rename_i closed
        cases step
        exact ⟨_, moves_setThread rfl rfl rfl id, fun _ => ⟨closed, t, known, isChecked⟩⟩
      · split at step
        · cases step
          exact ⟨_, moves_setThread rfl rfl rfl id, nofun⟩
        · cases step
  case h_2 =>
    split at step
    · cases step
      exact ⟨_, moves_setThread rfl rfl rfl id, nofun⟩
    · cases step
  case h_3 =>
    split at step
    · cases step
      exact ⟨_, moves_setThread rfl rfl rfl id, nofun⟩
    · cases step
  case h_4 =>
    split at step
    · cases step
    · rename_i waits
      cases step
      refine ⟨_, moves_setThread rfl rfl rfl id, ?_⟩
      simp only [Bool.or_eq_true, not_or, Bool.not_eq_true] at waits
      exact waits.1.1
  case h_5 => cases step

theorem advance_cases {a : Advance.Event} (step : s.advanceStep a = some s') :
    Rests s s' ∨ a = .close ∧ s.advance = .leaving ∧
      s' = { s.mapPhases .close with closed := true, advance := .ended } := by
  unfold State.advanceStep at step
  split at step
  · split at step
    · split at step
      · cases step
        exact Or.inl ⟨rfl, rfl, rfl, Or.inr⟩
      · cases step
    · cases step
      exact Or.inl ⟨rfl, rfl, rfl, Or.inr⟩
  · split at step
    · rename_i stopped
      cases step
      exact Or.inl ⟨rfl, rfl, rfl, fun _ => Or.inl stopped⟩
    · cases step
  · rename_i leaving
    cases step
    exact Or.inr ⟨rfl, leaving, rfl⟩
  · cases step

theorem heartbeat_cases {h : Heartbeat.Event} (step : s.heartbeatStep h = some s') :
    Rests s s' ∨ ∃ i p, Moves s s' i p ∧ p.Enters s i := by
  unfold State.heartbeatStep at step
  split at step
  · split at step
    · cases step
      exact Or.inr ⟨_, _, moves_setThread rfl rfl rfl id, nofun⟩
    · cases step
  · split at step
    · cases step
      exact Or.inl ⟨rfl, rfl, rfl, Or.inr⟩
    · cases step
  · cases step
    exact Or.inl ⟨rfl, rfl, rfl, Or.inr⟩
  · cases step
    exact Or.inl ⟨rfl, rfl, rfl, Or.inr⟩
  · cases step
    exact Or.inl ⟨rfl, rfl, rfl, Or.inr⟩
  · cases step
    exact Or.inl ⟨rfl, rfl, rfl, Or.inr⟩
  · split at step
    · cases step
      exact Or.inl ⟨rfl, rfl, rfl, Or.inr⟩
    · cases step
  · cases step

theorem cancel_cases (known : s.threads i = some t) :
    ∃ p, Moves s (s.setThread i ⟨t.request, true, t.phase.cancel⟩) i p ∧ (s.At i p ∨ p.Enters s i) := by
  refine ⟨_, moves_setThread rfl rfl rfl id, ?_⟩
  cases phase : t.phase with
  | parked a => exact Or.inr nofun
  | _ => exact Or.inl ⟨t, known, phase⟩

/-- All that a step can do to the calls, the clock and the channel. -/
theorem step_cases (step : s.step e = some s') :
    (∃ i p, Moves s s' i p ∧ (s.At i p ∨ p.Enters s i)) ∨ Stops s s' ∨ Rests s s' ∨
      (e = .advance .close ∧ s.advance = .leaving ∧
        s' = { s.mapPhases .close with closed := true, advance := .ended }) := by
  cases e with
  | start i request =>
    rw [State.step] at step
    split at step
    · cases step
      refine Or.inl ⟨i, _, moves_setThread rfl rfl rfl id, Or.inr ?_⟩
      cases request <;> trivial
    · cases step
  | cancel i =>
    obtain ⟨t, known, isNext⟩ := Option.map_eq_some_iff.mp step
    cases isNext
    exact Or.inl ⟨i, cancel_cases known⟩
  | own i =>
    obtain ⟨t, _, step⟩ := Option.bind_eq_some_iff.mp step
    rcases own_cases step with ⟨p, moves, enters⟩ | stops
    · exact Or.inl ⟨i, p, moves, Or.inr enters⟩
    · exact Or.inr (Or.inl stops)
  | relay i topic =>
    obtain ⟨t, _, step⟩ := Option.bind_eq_some_iff.mp step
    obtain ⟨p, moves, enters⟩ := relay_cases step
    exact Or.inl ⟨i, p, moves, Or.inr enters⟩
  | select i c =>
    obtain ⟨t, known, step⟩ := Option.bind_eq_some_iff.mp step
    obtain ⟨p, moves, enters⟩ := select_cases known step
    exact Or.inl ⟨i, p, moves, Or.inr enters⟩
  | advance a =>
    rcases advance_cases step with rests | ⟨isClose, closes⟩
    · exact Or.inr (Or.inr (Or.inl rests))
    · exact Or.inr (Or.inr (Or.inr ⟨congrArg Event.advance isClose, closes⟩))
  | heartbeat h =>
    rcases heartbeat_cases step with rests | ⟨i, p, moves, enters⟩
    · exact Or.inr (Or.inr (Or.inl rests))
    · exact Or.inl ⟨i, p, moves, Or.inr enters⟩

/-- The channel is closed, and `advance` leaves its loop, only after the clock was
stopped; then no call is parked. -/
structure Orderly (s : State) : Prop where
  closed : s.closed = true → s.router.stopped = true
  leaving : s.advance = .leaving → s.router.stopped = true
  parked : s.router.stopped = true → ∀ i a, ¬ s.At i (.parked a)

/-- A call that was moved to one of these phases was in it, or entered it. -/
theorem Moves.at_cases (moves : Moves s s' i p) (enters : s.At i p ∨ p.Enters s i) (reached : s'.At j q) :
    s.At j q ∨ q.Enters s j := by
  rcases moves.reached j q reached with ⟨same, isMoved⟩ | before
  · rw [same, ← isMoved]
    exact enters
  · exact Or.inl before

theorem Phase.close_cases (p : Phase) : p.close = p ∨ p = .parked true := by
  cases p with
  | parked a =>
    cases a with
    | true => exact Or.inr rfl
    | false => exact Or.inl rfl
  | _ => exact Or.inl rfl

/-- No call is parked when the channel is closed, so the calls stay where they are. -/
theorem Orderly.at_close (orderly : Orderly s) (stopped : s.router.stopped = true)
    (reached : (s.mapPhases .close).At j q) : s.At j q := by
  obtain ⟨p, before, isClosed⟩ := at_mapPhases reached
  rcases p.close_cases with same | parked
  · rw [← isClosed, same]
    exact before
  · exact absurd (parked ▸ before) (orderly.parked stopped j true)

theorem Orderly.step (orderly : Orderly s) (step : s.step e = some s') : Orderly s' := by
  rcases step_cases step with ⟨i, p, moves, enters⟩ | stops | rests | ⟨_, leaving, isNext⟩
  · refine ⟨fun closed => ?_, fun leaving => ?_, fun stopped j a reached => ?_⟩
    · rw [moves.stopped]
      exact orderly.closed (moves.closed ▸ closed)
    · rw [moves.stopped]
      exact orderly.leaving (moves.leaving leaving)
    · rw [moves.stopped] at stopped
      rcases moves.at_cases enters reached with before | running
      · exact orderly.parked stopped j a before
      · cases stopped.symm.trans running
  · refine ⟨fun _ => stops.stopped, fun _ => stops.stopped, fun _ j a reached => ?_⟩
    rcases stops.woken j _ reached with ⟨_, notParked⟩ | ⟨_, returned, _⟩
    · exact notParked a rfl
    · cases returned
  · refine ⟨fun closed => ?_, fun leaving => ?_, fun stopped j a reached => ?_⟩
    · rw [rests.stopped]
      exact orderly.closed (rests.closed ▸ closed)
    · rw [rests.stopped]
      exact (rests.leaving leaving).elim id orderly.leaving
    · rw [rests.stopped] at stopped
      exact orderly.parked stopped j a (rests.at_of_at reached)
  · have stopped := orderly.leaving leaving
    rw [isNext]
    refine ⟨fun _ => stopped, nofun, fun _ j a reached => ?_⟩
    exact orderly.parked stopped j a (orderly.at_close stopped reached)

end Steps

theorem orderly_invariant (clock : Option Clock) : (machine clock).Invariant Orderly where
  start := by
    refine ⟨nofun, nofun, ?_⟩
    rintro _ i a ⟨t, known, _⟩
    cases known
  step _ _ _ orderly step := orderly.step step

/-- No call has sent on the closed channel, and none will after it is closed. -/
structure Safe (s : State) : Prop where
  sent : NoSendOnClosed s
  past : s.closed = true → ∀ i, ¬ s.At i .checked

theorem Safe.step {s s' : State} {e : Event} (orderly : Orderly s) (safe : Safe s) (unhurried : Unhurried s e)
    (step : s.step e = some s') : Safe s' := by
  rcases step_cases step with ⟨i, p, moves, enters⟩ | stops | rests | ⟨isClose, leaving, isNext⟩
  · refine ⟨fun j reached => ?_, fun closed j reached => ?_⟩
    · rcases moves.at_cases enters reached with before | sends
      · exact safe.sent j before
      · obtain ⟨closed, checked⟩ := sends rfl
        exact safe.past closed j checked
    · rw [moves.closed] at closed
      rcases moves.at_cases enters reached with before | running
      · exact safe.past closed j before
      · cases (orderly.closed closed).symm.trans running
  · refine ⟨fun j reached => ?_, fun closed j reached => ?_⟩
    · rcases stops.woken j _ reached with ⟨before, _⟩ | ⟨_, returned, harmless⟩
      · exact safe.sent j before
      · cases returned
        exact harmless rfl
    · rw [stops.closed] at closed
      rcases stops.woken j _ reached with ⟨before, _⟩ | ⟨_, returned, _⟩
      · exact safe.past closed j before
      · cases returned
  · refine ⟨fun j reached => ?_, fun closed j reached => ?_⟩
    · exact safe.sent j (rests.at_of_at reached)
    · exact safe.past (rests.closed ▸ closed) j (rests.at_of_at reached)
  · have stopped := orderly.leaving leaving
    rw [isNext]
    refine ⟨fun j reached => ?_, fun _ j reached => ?_⟩
    · exact safe.sent j (orderly.at_close stopped reached)
    · exact unhurried isClose j (orderly.at_close stopped reached)

/-- No send is executed on the closed channel in a run in which no call is between
its test of the clock and its select when `advance` closes it. -/
theorem no_send_on_closed (clock : Option Clock) (events : List Event)
    (unhurried : (machine clock).Throughout (fun _ s e => Unhurried s e) events) :
    (machine clock).Always (fun _ s => NoSendOnClosed s) events := by
  have safe : (machine clock).Always (fun _ s => Safe s) events := by
    refine Machine.always_of_throughout (orderly_invariant clock) ?_ ?_ unhurried
    · refine ⟨?_, nofun⟩
      rintro i ⟨t, known, _⟩
      cases known
    · intro _ s e s' orderly safe unhurried step
      exact safe.step orderly unhurried step
  intro before s isBefore reached
  exact (safe before s isBefore reached).sent

/-- A `Bootstrap` that starts the goroutines, up to its test of the clock. -/
def bootstrapped : List Event :=
  [.start 0 .bootstrap, .own 0, .own 0, .own 0, .own 0, .own 0, .relay 0 (.ok ())]

/-- A `Stop`, after which `advance` leaves its loop. -/
def stoppedAndLeft : List Event :=
  [.start 1 .stop, .own 1, .own 1, .advance .leave]

theorem unhurried_of_not_mem {clock : Option Clock} {events : List Event} (neverClosed : .advance .close ∉ events) :
    (machine clock).Throughout (fun _ s e => Unhurried s e) events := by
  intro before e s s' isBefore _ _ isClose
  rw [isClose] at isBefore
  exact absurd (isBefore.subset (List.mem_concat_self ..)) neverClosed

theorem no_send_on_closed_timely :
    (machine none).Throughout (fun _ s e => Unhurried s e) (bootstrapped ++ stoppedAndLeft ++ [.advance .close]) ∧
      (machine none).Always (fun _ s => NoSendOnClosed s) (bootstrapped ++ stoppedAndLeft ++ [.advance .close]) := by
  have unhurried : (machine none).Throughout (fun _ s e => Unhurried s e)
      (bootstrapped ++ stoppedAndLeft ++ [.advance .close]) := by
    refine Machine.throughout_concat.mpr ⟨unhurried_of_not_mem ?_, fun s s' reached _ _ i checked => ?_⟩
    · simp [bootstrapped, stoppedAndLeft]
    · cases reached
      obtain ⟨t, known, isChecked⟩ := checked
      rcases i with _ | _ | i
      · cases known
        cases isChecked
      · cases known
        cases isChecked
      · cases known
  exact ⟨unhurried, no_send_on_closed none _ unhurried⟩

/-- The `Bootstrap` has passed its test, and may take the send of its select when the
channel has been closed. -/
theorem sends_on_closed :
    ∃ s, (machine none).run
        (bootstrapped ++ [.own 0] ++ stoppedAndLeft ++ [.advance .close, .select 0 .send]) = some s ∧
      ¬ NoSendOnClosed s :=
  ⟨_, rfl, fun never => never 0 ⟨_, rfl, rfl⟩⟩

/-- A call between its test and its select can always do so. -/
theorem hurried_close_sends {s : State} {i : Nat} (leaving : s.advance = .leaving)
    (made : s.router.announce = true) (checked : s.At i .checked) :
    ∃ s₁ s₂, s.step (.advance .close) = some s₁ ∧ s₁.step (.select i .send) = some s₂ ∧ ¬ NoSendOnClosed s₂ := by
  obtain ⟨⟨request, ctxDone, phase⟩, known, isChecked⟩ := checked
  cases isChecked
  refine ⟨{ s.mapPhases .close with closed := true, advance := .ended },
    State.setThread { s.mapPhases .close with closed := true, advance := .ended } i
      ⟨request, ctxDone, .returned (.error sendOnClosed)⟩, ?_, ?_, fun never => never i ⟨_, setThread_self, rfl⟩⟩
  · simp only [State.step, State.advanceStep, leaving]
  · simp only [State.step, State.mapPhases, known, State.select, made]
    rfl

section Alone

variable {clock : Option Clock} {s s' : State} {i : Nat} {t : Thread} {p : Phase}

theorem moveTo_moveTo (s : State) (p q : Phase) : (s.moveTo i t p).moveTo i { t with phase := p } q = s.moveTo i t q := by
  simp only [State.moveTo, State.setThread, Function.update_idem]

theorem own_alone (next : (s.moveTo i t p).own i { t with phase := p } = some s') :
    (machine clock).Reaches (s.moveTo i t p) s' := by
  refine Machine.Reaches.single (e := .own i) ?_
  show ((s.moveTo i t p).threads i).bind _ = _
  rw [State.moveTo, setThread_self]
  exact next

theorem lockSetup_alone (free : s.mu = none) (notInit : s.router.init = false) :
    (machine clock).Reaches (s.moveTo i t .lockSetup)
      ({ s with router := { s.router with init := true }, mu := some i }.moveTo i t .assign) := by
  refine own_alone ?_
  have unlocked : (s.moveTo i t .lockSetup).mu = none := free
  have notSet : (s.moveTo i t .lockSetup).router.init = false := notInit
  simp only [State.own, unlocked, notSet]
  exact congrArg some (moveTo_moveTo { s with router := { s.router with init := true }, mu := some i } _ _)

theorem assign_alone : (machine clock).Reaches (s.moveTo i t .assign)
    ({ s with router := s.router.assign, mu := none }.moveTo i t t.request.afterSetup) :=
  own_alone (congrArg some (moveTo_moveTo { s with router := s.router.assign, mu := none } _ _))

theorem lockRelay_alone (free : s.mu = none) (idle : s.router.relaying = false) :
    (machine clock).Reaches (s.moveTo i t .lockRelay)
      ({ s with router := { s.router with relaying := true }, mu := some i }.moveTo i t .asking) := by
  refine own_alone ?_
  have unlocked : (s.moveTo i t .lockRelay).mu = none := free
  have notSet : (s.moveTo i t .lockRelay).router.relaying = false := idle
  simp only [State.own, unlocked, notSet]
  exact congrArg some (moveTo_moveTo { s with router := { s.router with relaying := true }, mu := some i } _ _)

theorem load_alone : (machine clock).Reaches (s.moveTo i t .load)
    (s.moveTo i t (if s.router.relaying then .check else .lockRelay)) :=
  own_alone (congrArg some (moveTo_moveTo s _ _))

theorem fails_alone (msg : String) : (machine clock).Reaches (s.moveTo i t .asking)
    ({ s with mu := none }.moveTo i t (.returned (.error (.error msg)))) := by
  refine Machine.Reaches.single (e := .relay i (.error msg)) ?_
  show ((s.moveTo i t .asking).threads i).bind _ = _
  rw [State.moveTo, setThread_self]
  exact congrArg some (moveTo_moveTo { s with mu := none } .asking _)

theorem starts_alone : (machine clock).Reaches (s.moveTo i t .asking)
    ({ s with
      router := { s.router with started := true }, mu := none, advance := .running,
      heartbeat := .receiving }.moveTo i t .check) := by
  refine Machine.Reaches.single (e := .relay i (.ok ())) ?_
  show ((s.moveTo i t .asking).threads i).bind _ = _
  rw [State.moveTo, setThread_self]
  exact congrArg some (moveTo_moveTo { s with
    router := { s.router with started := true }, mu := none, advance := .running,
    heartbeat := .receiving } .asking _)

/-- A call that nobody disturbs goes through `setup`. -/
theorem setup_alone (free : s.mu = none) : (machine clock).Reaches (s.moveTo i t .setup)
    ({ s with router := s.router.setup, mu := none }.moveTo i t t.request.afterSetup) := by
  have loads : (machine clock).Reaches (s.moveTo i t .setup)
      (s.moveTo i t (if s.router.init then t.request.afterSetup else .lockSetup)) :=
    own_alone (congrArg some (moveTo_moveTo s _ _))
  cases init : s.router.init with
  | true =>
    have same : s.router.setup = s.router := by simp [Router.setup, init]
    rw [init, if_pos rfl] at loads
    rw [same, ← free]
    exact loads
  | false =>
    have isSetup : s.router.setup = { s.router with init := true }.assign := by simp [Router.setup, init]
    rw [init, if_neg Bool.false_ne_true] at loads
    rw [isSetup]
    exact (loads.trans (lockSetup_alone free init)).trans assign_alone

theorem check_alone : (machine clock).Reaches (s.moveTo i t .check)
    (s.moveTo i t (.ofBootstrapping s.router.checkClock)) :=
  own_alone (congrArg some (moveTo_moveTo s _ _))

/-- What a call leaves that was by itself: the router, and the phase that it came to. -/
structure Leaves (s s' : State) (i : Nat) (r : Router) (p : Phase) : Prop where
  router : s'.router = r
  free : s'.mu = none
  self : s'.At i p
  unused : ∀ j, j ≠ i → s.threads j = none → s'.threads j = none

theorem leaves_moveTo (unused : ∀ j, j ≠ i → s.threads j = none → s'.threads j = none) (free : s'.mu = none) :
    Leaves s (s'.moveTo i t p) i s'.router p where
  router := rfl
  free := free
  self := ⟨_, setThread_self, rfl⟩
  unused j other wasUnused := (setThread_of_ne other).trans (unused j other wasUnused)

/-- A `Bootstrap` that nobody disturbs does what it does in a sequence of calls. -/
theorem bootstrap_alone (free : s.mu = none) (isBootstrap : t.request = .bootstrap) (topic : Except String Unit) :
    ∃ s', (machine clock).Reaches (s.moveTo i t .setup) s' ∧ Leaves s s' i (s.router.bootstrap topic).1
      (.ofBootstrapping (s.router.bootstrap topic).2) := by
  have ready : (machine clock).Reaches (s.moveTo i t .setup)
      ({ s with router := s.router.setup, mu := none }.moveTo i t t.request.afterSetup) := setup_alone free
  rw [isBootstrap] at ready
  have loads := ready.trans (load_alone (s := { s with router := s.router.setup, mu := none }))
  cases relaying : s.router.relaying with
  | true =>
    rw [Router.bootstrap_relaying relaying]
    rw [if_pos (Router.setup_relaying.trans relaying)] at loads
    exact ⟨_, loads.trans check_alone, leaves_moveTo (fun _ _ => id) rfl⟩
  | false =>
    have idle : s.router.setup.relaying = false := Router.setup_relaying.trans relaying
    rw [if_neg (by rw [idle]; exact Bool.false_ne_true)] at loads
    have asks := loads.trans (lockRelay_alone rfl idle)
    cases topic with
    | error msg =>
      rw [Router.bootstrap_fails relaying]
      exact ⟨_, asks.trans (fails_alone msg), leaves_moveTo (fun _ _ => id) rfl⟩
    | ok _ =>
      rw [Router.bootstrap_starts relaying]
      exact ⟨_, (asks.trans starts_alone).trans check_alone, leaves_moveTo (fun _ _ => id) rfl⟩

theorem mapPhases_moveTo (s : State) (f : Phase → Phase) (p q : Phase) :
    ((s.moveTo i t p).mapPhases f).moveTo i { t with phase := p } q = (s.mapPhases f).moveTo i t q := by
  simp only [State.moveTo, State.setThread, State.mapPhases, State.mk.injEq, true_and]
  funext j
  by_cases same : j = i
  · rw [same, Function.update_self, Function.update_self]
  · rw [Function.update_of_ne same, Function.update_of_ne same, Function.update_of_ne same]

theorem stopping_alone {c : Clock} (isSet : s.router.clock = some c) :
    (machine clock).Reaches (s.moveTo i t .stopping)
      (({ s with router := { s.router with clock := some ⟨true⟩ } }.mapPhases .clockDone).moveTo i t
        (.returned (.ok ()))) := by
  refine own_alone ?_
  have known : (s.moveTo i t .stopping).router.clock = some c := isSet
  simp only [State.own, Router.stopClock, known]
  exact congrArg some (mapPhases_moveTo { s with router := { s.router with clock := some ⟨true⟩ } } _ .stopping _)

theorem panics_alone (unset : s.router.clock = none) : (machine clock).Reaches (s.moveTo i t .stopping)
    (s.moveTo i t (.returned (.error Router.nilDereference))) := by
  refine own_alone ?_
  have unknown : (s.moveTo i t .stopping).router.clock = none := unset
  simp only [State.own, unknown]
  exact congrArg some (moveTo_moveTo s _ _)

theorem stop_alone (free : s.mu = none) : ∃ s', (machine clock).Reaches (s.moveTo i t .swap) s' ∧
    Leaves s s' i s.router.stop.1 (.returned s.router.stop.2) := by
  have swaps : (machine clock).Reaches (s.moveTo i t .swap)
      ({ s with router := { s.router with relaying := true } }.moveTo i t
        (if s.router.relaying then .stopping else .returned (.ok ()))) :=
    own_alone (congrArg some (moveTo_moveTo { s with router := { s.router with relaying := true } } _ _))
  cases relaying : s.router.relaying with
  | false =>
    rw [Router.stop_idle relaying]
    rw [relaying, if_neg Bool.false_ne_true] at swaps
    exact ⟨_, swaps, leaves_moveTo (fun _ _ => id) free⟩
  | true =>
    rw [relaying, if_pos rfl] at swaps
    cases isSet : s.router.clock with
    | none =>
      rw [Router.stop_unset relaying isSet]
      exact ⟨_, swaps.trans (panics_alone isSet), leaves_moveTo (fun _ _ => id) free⟩
    | some c =>
      rw [Router.stop_clock relaying isSet]
      refine ⟨_, swaps.trans (stopping_alone isSet), leaves_moveTo (fun j _ unused => ?_) free⟩
      exact Option.map_eq_none_iff.mpr unused

/-- Each call of a sequence is a call of its own here. -/
def Request.ofCall : Router.Call → Request
  | .bootstrap _ => .bootstrap
  | .stop => .stop
  | .id => .id
  | .view => .id

theorem call_alone (clock : Option Clock) (free : s.mu = none) (unused : s.threads i = none) (c : Router.Call) :
    ∃ s' p, (machine clock).Reaches s s' ∧ Leaves s s' i (s.router.call c) p := by
  have starts : (machine clock).Reaches s
      (s.moveTo i ⟨.ofCall c, false, (Request.ofCall c).first⟩ (Request.ofCall c).first) :=
    Machine.Reaches.single (e := .start i (.ofCall c)) (if_pos (by rw [unused]; rfl))
  cases c with
  | bootstrap topic =>
    obtain ⟨s', reaches, leaves⟩ := bootstrap_alone (t := ⟨.bootstrap, false, .setup⟩) free rfl topic
    exact ⟨s', _, starts.trans reaches, leaves⟩
  | stop =>
    obtain ⟨s', reaches, leaves⟩ := stop_alone free
    exact ⟨s', _, starts.trans reaches, leaves⟩
  | id => exact ⟨_, _, starts.trans (setup_alone free), leaves_moveTo (fun _ _ => id) rfl⟩
  | view => exact ⟨_, _, starts.trans (setup_alone free), leaves_moveTo (fun _ _ => id) rfl⟩

/-- The calls of a sequence, one after the other, are a run of the threads that leaves
the router as the sequence does. -/
theorem calls_run (clock : Option Clock) (calls : List Router.Call) (r : Router)
    (reached : (Router.machine clock).run calls = some r) :
    ∃ s, (machine clock).Reaches (.new clock) s ∧ s.router = r ∧ s.mu = none ∧
      ∀ j, calls.length ≤ j → s.threads j = none := by
  induction calls using List.reverseRecOn generalizing r with
  | nil =>
    cases reached
    exact ⟨_, .refl _, rfl, rfl, fun _ _ => rfl⟩
  | append_singleton calls c ih =>
    obtain ⟨r₀, isBefore, isCall⟩ := Machine.run_concat.mp reached
    cases isCall
    obtain ⟨s, reaches, isRouter, free, unused⟩ := ih r₀ isBefore
    obtain ⟨s', p, later, leaves⟩ := call_alone clock free (unused calls.length le_rfl) c
    refine ⟨s', reaches.trans later, ?_, leaves.free, fun j beyond => ?_⟩
    · rw [leaves.router, isRouter]
    · rw [List.length_append, List.length_singleton] at beyond
      exact leaves.unused j (by omega) (unused j (by omega))

end Alone

end Casm.Cluster.Threads
