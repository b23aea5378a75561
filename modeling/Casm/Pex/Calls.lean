import Casm.Lib.Machine
import Casm.Pex.Exchange

namespace Casm.Pex.Calls

/-- The two functions that have the main loop run a thunk for them. -/
inductive Request where
  | getOrCreateGossiper
  | getGossiper
  deriving DecidableEq

inductive ContextError where
  | canceled
  | deadlineExceeded
  deriving DecidableEq

inductive CallError where
  | context (e : ContextError)
  | closed
  | notFound
  deriving DecidableEq

inductive Phase where
  | sending
  | waiting
  | returned (result : Except CallError Gossiper)

/-- A call of one of the two functions. The channel `ch` of the call is empty, or
has the reply of its thunk: a gossiper, or nothing more than being closed. -/
structure Call where
  request : Request
  ns : Namespace
  ctx : Option ContextError
  reply : Option (Option Gossiper)
  phase : Phase

def Call.start (request : Request) (ns : Namespace) : Call where
  request := request
  ns := ns
  ctx := none
  reply := none
  phase := .sending

/-- What happens to a call: its context ends, or it takes a case of its select
statements that is ready. -/
inductive Call.Event where
  | cancel (e : ContextError)
  | send
  | ctxDone
  | pxDone
  | receive

/-- The call is in a select that also has the cases of the context and of `px.done`.
Once `getOrCreateGossiper` has sent its thunk it only waits for the reply. -/
def Call.selects (c : Call) : Bool :=
  match c.phase, c.request with
  | .sending, _ => true
  | .waiting, .getGossiper => true
  | _, _ => false

def Call.return (c : Call) (result : Except CallError Gossiper) : Call :=
  { c with phase := .returned result }

def Call.step (done : Bool) (c : Call) : Call.Event → Option Call
  | .cancel e => some { c with ctx := some (c.ctx.getD e) }
  | .send =>
    match c.phase with
    | .sending => some { c with phase := .waiting }
    | _ => none
  | .ctxDone =>
    match c.ctx with
    | some e => if c.selects then some (c.return (.error (.context e))) else none
    | none => none
  | .pxDone =>
    if c.selects && done then some (c.return (.error .closed)) else none
  | .receive =>
    match c.phase, c.reply with
    | .waiting, some (some g) => some (c.return (.ok g))
    | .waiting, some none => some (c.return (.error .notFound))
    | _, _ => none

/-- The goroutine of the main loop: in the loop, out of it with its deferred calls
still to run, or over. -/
inductive Loop where
  | running
  | leaving
  | ended
  deriving DecidableEq

inductive Loop.Event where
  | thunk (now : Int)
  | tick (turns : List (Namespace × Int))
  | address
  | leave
  | finish

structure State where
  exchange : PeerExchange
  loop : Loop
  subscriptionClosed : Bool
  thunk : Option Nat
  calls : Nat → Option Call

namespace State

def init : State where
  exchange := PeerExchange.new
  loop := .running
  subscriptionClosed := false
  thunk := none
  calls _ := none

def done (s : State) : Bool :=
  s.loop = .ended

def setCall (s : State) (i : Nat) (c : Call) : State :=
  { s with calls := Function.update s.calls i (some c) }

/-- A thunk reads or writes the advertisers and puts its result into the channel
of the call. -/
def runThunk (newParams : Namespace → GossipConfig) (s : State) (i : Nat) (c : Call) (now : Int) : State :=
  match c.request with
  | .getOrCreateGossiper =>
    let (px, g) := s.exchange.getOrCreateGossiper newParams c.ns now
    { s.setCall i { c with reply := some (some g) } with exchange := px, thunk := none }
  | .getGossiper =>
    { s.setCall i { c with reply := some (s.exchange.gossiper c.ns) } with thunk := none }

/-- One step of the main loop. An address event changes the local record only. The
deferred function closes `px.done` and stops the gossipers, which no call can see. -/
def loopStep (newParams : Namespace → GossipConfig) (s : State) (e : Loop.Event) : Option State :=
  match s.loop, e with
  | .running, .thunk now =>
    match s.thunk with
    | some i => (s.calls i).map fun c => s.runThunk newParams i c now
    | none => none
  | .running, .tick turns => some { s with exchange := turns.foldl PeerExchange.expire s.exchange }
  | .running, .address => some s
  | .running, .leave => if s.subscriptionClosed then some { s with loop := .leaving } else none
  | .leaving, .finish => some { s with loop := .ended, exchange := s.exchange.close }
  | _, _ => none

/-- One step of a call. The channel for thunks has one slot. -/
def callStep (s : State) (i : Nat) (e : Call.Event) : Option State :=
  match s.calls i with
  | none => none
  | some c =>
    match e with
    | .send => if s.thunk = none then (c.step s.done .send).map fun c => { s.setCall i c with thunk := some i } else none
    | e => (c.step s.done e).map (s.setCall i)

end State

inductive Event where
  | start (i : Nat) (request : Request) (ns : Namespace)
  | call (i : Nat) (e : Call.Event)
  | loop (e : Loop.Event)
  | close

def State.step (newParams : Namespace → GossipConfig) (s : State) : Event → Option State
  | .start i request ns => if (s.calls i).isNone then some (s.setCall i (Call.start request ns)) else none
  | .call i e => s.callStep i e
  | .loop e => s.loopStep newParams e
  | .close => some { s with subscriptionClosed := true }

def machine (newParams : Namespace → GossipConfig) : Machine State Event where
  start := State.init
  step := State.step newParams

variable {newParams : Namespace → GossipConfig} {s s' : State} {i : Nat} {c c' : Call} {done : Bool}

/-- How a call goes on when it does not send its thunk. A call of `getOrCreateGossiper`
that has no reply yet goes on waiting. -/
structure Call.Continues (c c' : Call) : Prop where
  request : c'.request = c.request
  reply : c'.reply = c.reply
  sending : c'.phase = .sending → c.phase = .sending
  waiting : c'.phase = .waiting → c.phase = .waiting
  held : c.request = .getOrCreateGossiper → c.phase = .waiting → c.reply = none → c'.phase = .waiting

theorem Call.Continues.return (result : Except CallError Gossiper)
    (free : ¬ (c.request = .getOrCreateGossiper ∧ c.phase = .waiting ∧ c.reply = none)) :
    c.Continues (c.return result) where
  request := rfl
  reply := rfl
  sending := nofun
  waiting := nofun
  held request waiting unanswered := absurd ⟨request, waiting, unanswered⟩ free

theorem Call.step_send : c.step done .send = some c' ↔ c.phase = .sending ∧ c' = { c with phase := .waiting } := by
  cases phase : c.phase <;> simp [Call.step, phase, eq_comm]

theorem Call.not_held_of_selects (selects : c.selects = true) :
    ¬ (c.request = .getOrCreateGossiper ∧ c.phase = .waiting ∧ c.reply = none) := by
  intro ⟨request, waiting, _⟩
  simp [Call.selects, request, waiting] at selects

theorem Call.step_continues {e : Call.Event} (notSend : e ≠ .send) (step : c.step done e = some c') :
    c.Continues c' := by
  cases e with
  | send => exact absurd rfl notSend
  | cancel e =>
    cases step
    exact ⟨rfl, rfl, id, id, fun _ waiting _ => waiting⟩
  | ctxDone =>
    simp only [Call.step] at step
    split at step
    · split at step
      · rename_i selects
        cases step
        exact .return _ (Call.not_held_of_selects selects)
      · cases step
    · cases step
  | pxDone =>
    simp only [Call.step] at step
    split at step
    · rename_i ready
      cases step
      exact .return _ (Call.not_held_of_selects (Bool.and_eq_true_iff.mp ready).1)
    · cases step
  | receive =>
    simp only [Call.step] at step
    split at step
    · rename_i reply
      cases step
      exact .return _ (by simp [reply])
    · rename_i reply
      cases step
      exact .return _ (by simp [reply])
    · cases step

theorem State.callStep_cases {e : Call.Event} (step : s.callStep i e = some s') :
    ∃ c, s.calls i = some c ∧
      ((e = .send ∧ s.thunk = none ∧ c.phase = .sending ∧
          s' = { s.setCall i { c with phase := .waiting } with thunk := some i }) ∨
        (e ≠ .send ∧ ∃ c', c.step s.done e = some c' ∧ s' = s.setCall i c')) := by
  cases known : s.calls i with
  | none => simp [State.callStep, known] at step
  | some c =>
    refine ⟨c, rfl, ?_⟩
    cases e with
    | send =>
      left
      by_cases empty : s.thunk = none
      · simp only [State.callStep, known, empty, if_true, Option.map_eq_some_iff, Call.step_send] at step
        obtain ⟨c', ⟨sending, isWaiting⟩, isNext⟩ := step
        subst isWaiting
        exact ⟨rfl, empty, sending, isNext.symm⟩
      · simp [State.callStep, known, empty] at step
    | _ =>
      right
      simp only [State.callStep, known, Option.map_eq_some_iff] at step
      obtain ⟨c', moves, isNext⟩ := step
      exact ⟨nofun, c', moves, isNext.symm⟩

theorem State.loopStep_cases {e : Loop.Event} (step : s.loopStep newParams e = some s') :
    (∃ now i c, e = .thunk now ∧ s.loop = .running ∧ s.thunk = some i ∧ s.calls i = some c ∧
        s' = s.runThunk newParams i c now) ∨
      (∃ turns, e = .tick turns ∧ s.loop = .running ∧
        s' = { s with exchange := turns.foldl PeerExchange.expire s.exchange }) ∨
      (e = .address ∧ s.loop = .running ∧ s' = s) ∨
      (e = .leave ∧ s.loop = .running ∧ s' = { s with loop := .leaving }) ∨
      (e = .finish ∧ s.loop = .leaving ∧ s' = { s with loop := .ended, exchange := s.exchange.close }) := by
  cases phase : s.loop <;> cases e <;> simp only [State.loopStep, phase, reduceCtorEq] at step
  case running.thunk now =>
    cases slot : s.thunk with
    | none => simp [slot] at step
    | some i =>
      simp only [slot, Option.map_eq_some_iff] at step
      obtain ⟨c, known, isNext⟩ := step
      exact Or.inl ⟨now, i, c, rfl, rfl, rfl, known, isNext.symm⟩
  case running.tick turns =>
    exact Or.inr (Or.inl ⟨turns, rfl, rfl, (Option.some.inj step).symm⟩)
  case running.address =>
    exact Or.inr (Or.inr (Or.inl ⟨rfl, rfl, (Option.some.inj step).symm⟩))
  case running.leave =>
    split at step
    · exact Or.inr (Or.inr (Or.inr (Or.inl ⟨rfl, rfl, (Option.some.inj step).symm⟩)))
    · cases step
  case leaving.finish =>
    exact Or.inr (Or.inr (Or.inr (Or.inr ⟨rfl, rfl, (Option.some.inj step).symm⟩)))

/-- The answer of a thunk, and the exchange it leaves: the one of `getOrCreateGossiper`
has the namespace advertised. -/
theorem State.runThunk_eq (newParams : Namespace → GossipConfig) (s : State) (i : Nat) (c : Call) (now : Int) :
    ∃ px reply, s.runThunk newParams i c now =
      { s.setCall i { c with reply := some reply } with exchange := px, thunk := none } ∧
    (px = s.exchange ∨ px = (s.exchange.getOrCreateGossiper newParams c.ns now).1) := by
  cases request : c.request with
  | getOrCreateGossiper =>
    refine ⟨_, some (s.exchange.getOrCreateGossiper newParams c.ns now).2, ?_, Or.inr rfl⟩
    simp only [State.runThunk, request]
  | getGossiper =>
    refine ⟨s.exchange, s.exchange.gossiper c.ns, ?_, Or.inl rfl⟩
    simp only [State.runThunk, request]
    rfl

/-- A call that waits without a reply has its thunk in the channel, and a thunk in
the channel has not replied. -/
structure Pending (s : State) : Prop where
  unsent : ∀ i c, s.calls i = some c → c.phase = .sending → c.reply = none
  queued : ∀ i c, s.calls i = some c → c.phase = .waiting → c.reply = none → s.thunk = some i
  unanswered : ∀ i, s.thunk = some i → ∃ c, s.calls i = some c ∧ c.reply = none ∧ c.phase ≠ .sending ∧
    (c.request = .getOrCreateGossiper → c.phase = .waiting)

theorem setCall_self : (s.setCall i c).calls i = some c :=
  Function.update_self ..

theorem setCall_of_ne {j : Nat} (other : j ≠ i) : (s.setCall i c).calls j = s.calls j :=
  Function.update_of_ne other ..

theorem setCall_cases {j : Nat} {found : Call} (known : (s.setCall i c).calls j = some found) :
    (j = i ∧ found = c) ∨ (j ≠ i ∧ s.calls j = some found) :=
  (Function.update_cases known).imp_left fun ⟨same, isNew⟩ => ⟨same, (Option.some.inj isNew).symm⟩

theorem Pending.start (pending : Pending s) (unused : s.calls i = none) (request : Request) (ns : Namespace) :
    Pending (s.setCall i (Call.start request ns)) := by
  constructor
  · intro j c known sending
    rcases setCall_cases known with ⟨_, isNew⟩ | ⟨_, before⟩
    · rw [isNew]
      rfl
    · exact pending.unsent j c before sending
  · intro j c known waiting unanswered
    rcases setCall_cases known with ⟨_, isNew⟩ | ⟨_, before⟩
    · rw [isNew] at waiting
      cases waiting
    · exact pending.queued j c before waiting unanswered
  · intro j slot
    obtain ⟨c, known, facts⟩ := pending.unanswered j slot
    have other : j ≠ i := by
      intro same
      rw [same, unused] at known
      cases known
    exact ⟨c, (setCall_of_ne other).trans known, facts⟩

theorem Pending.continues (pending : Pending s) (known : s.calls i = some c) (continues : c.Continues c') :
    Pending (s.setCall i c') := by
  constructor
  · intro j found isFound sending
    rcases setCall_cases isFound with ⟨_, isNext⟩ | ⟨_, before⟩
    · subst isNext
      exact continues.reply.trans (pending.unsent i c known (continues.sending sending))
    · exact pending.unsent j found before sending
  · intro j found isFound waiting unanswered
    rcases setCall_cases isFound with ⟨same, isNext⟩ | ⟨_, before⟩
    · subst isNext
      rw [same]
      exact pending.queued i c known (continues.waiting waiting) (continues.reply.symm.trans unanswered)
    · exact pending.queued j found before waiting unanswered
  · intro j slot
    obtain ⟨found, isFound, unanswered, sent, waits⟩ := pending.unanswered j slot
    by_cases same : j = i
    · rw [same, known] at isFound
      cases isFound
      refine ⟨c', same ▸ setCall_self, continues.reply.trans unanswered, fun again => sent (continues.sending again),
        fun request => ?_⟩
      have before : c.request = .getOrCreateGossiper := continues.request.symm.trans request
      exact continues.held before (waits before) unanswered
    · exact ⟨found, (setCall_of_ne same).trans isFound, unanswered, sent, waits⟩

theorem Pending.send (pending : Pending s) (known : s.calls i = some c) (sending : c.phase = .sending)
    (empty : s.thunk = none) :
    Pending { s.setCall i { c with phase := .waiting } with thunk := some i } := by
  have unanswered : c.reply = none := pending.unsent i c known sending
  constructor
  · intro j found isFound isSending
    rcases setCall_cases isFound with ⟨_, isNext⟩ | ⟨_, before⟩
    · rw [isNext]
      exact unanswered
    · exact pending.unsent j found before isSending
  · intro j found isFound waiting noReply
    rcases setCall_cases isFound with ⟨same, _⟩ | ⟨_, before⟩
    · rw [same]
    · have slot := pending.queued j found before waiting noReply
      rw [empty] at slot
      cases slot
  · intro j slot
    cases slot
    exact ⟨_, setCall_self, unanswered, nofun, fun _ => rfl⟩

theorem Pending.answer (pending : Pending s) (slot : s.thunk = some i) (known : s.calls i = some c)
    (px : PeerExchange) (reply : Option Gossiper) :
    Pending { s.setCall i { c with reply := some reply } with exchange := px, thunk := none } := by
  constructor
  · intro j found isFound sending
    rcases setCall_cases isFound with ⟨_, isNext⟩ | ⟨_, before⟩
    · obtain ⟨asker, isAsker, _, sent, _⟩ := pending.unanswered i slot
      rw [known, Option.some.injEq] at isAsker
      subst isAsker isNext
      exact absurd sending sent
    · exact pending.unsent j found before sending
  · intro j found isFound waiting unanswered
    rcases setCall_cases isFound with ⟨_, isNext⟩ | ⟨other, before⟩
    · subst isNext
      cases unanswered
    · have slot' := pending.queued j found before waiting unanswered
      rw [slot, Option.some.injEq] at slot'
      exact absurd slot'.symm other
  · intro j slot'
    cases slot'

/-- The invariant only speaks of the calls and of the channel for their thunks. -/
theorem Pending.congr (pending : Pending s) (calls : s'.calls = s.calls) (thunk : s'.thunk = s.thunk) :
    Pending s' := by
  constructor
  · rw [calls]
    exact pending.unsent
  · rw [calls, thunk]
    exact pending.queued
  · rw [calls, thunk]
    exact pending.unanswered

theorem pending_init : Pending State.init := by
  constructor
  · intro i c known
    cases known
  · intro i c known
    cases known
  · intro i slot
    cases slot

theorem pending_invariant (newParams : Namespace → GossipConfig) : (machine newParams).Invariant Pending where
  start := pending_init
  step s e s' pending step := by
    cases e with
    | start i request ns =>
      simp only [machine, State.step] at step
      split at step
      · rename_i unused
        cases step
        exact pending.start (Option.isNone_iff_eq_none.mp unused) request ns
      · cases step
    | call i e =>
      obtain ⟨c, known, ⟨_, empty, sending, isNext⟩ | ⟨notSend, c', moves, isNext⟩⟩ := State.callStep_cases step
      · rw [isNext]
        exact pending.send known sending empty
      · rw [isNext]
        exact pending.continues known (Call.step_continues notSend moves)
    | loop e =>
      rcases State.loopStep_cases step with ⟨now, i, c, _, _, slot, known, isNext⟩ | ⟨turns, _, _, isNext⟩ |
        ⟨_, _, isNext⟩ | ⟨_, _, isNext⟩ | ⟨_, _, isNext⟩
      · obtain ⟨px, reply, ran, _⟩ := s.runThunk_eq newParams i c now
        rw [isNext, ran]
        exact pending.answer slot known px reply
      all_goals
        rw [isNext]
        exact pending.congr rfl rfl
    | close =>
      cases step
      exact pending.congr rfl rfl

/-- The loop is over, the call waits for the reply of a thunk that has not run, and
no other case of its select is ready. -/
def State.Stranded (s : State) (i : Nat) : Prop :=
  s.loop = .ended ∧ ∃ c, s.calls i = some c ∧ c.phase = .waiting ∧ c.reply = none ∧
    c.step s.done .ctxDone = none ∧ c.step s.done .pxDone = none

/-- The function whose thunk is in the channel. -/
def State.queued (s : State) : Option Request :=
  (s.thunk.bind s.calls).map Call.request

/-- No call of `getOrCreateGossiper` has its thunk in the channel when the loop ends,
nor sends it there afterwards. -/
def State.Timely (s : State) : Event → Prop
  | .call i .send => s.loop = .ended → (s.calls i).map Call.request ≠ some .getOrCreateGossiper
  | .loop .finish => s.queued ≠ some .getOrCreateGossiper
  | _ => True

/-- A call of `getGossiper` sees that `px.done` is closed. -/
theorem stranded_iff : s.Stranded i ↔ s.loop = .ended ∧ ∃ c, s.calls i = some c ∧ c.phase = .waiting ∧
    c.reply = none ∧ c.request = .getOrCreateGossiper := by
  constructor
  · intro ⟨ended, c, known, waiting, unanswered, _, notDone⟩
    refine ⟨ended, c, known, waiting, unanswered, ?_⟩
    cases request : c.request with
    | getOrCreateGossiper => rfl
    | getGossiper => simp [Call.step, Call.selects, State.done, ended, waiting, request] at notDone
  · intro ⟨ended, c, known, waiting, unanswered, request⟩
    have stuck : c.selects = false := by
      simp only [Call.selects, waiting, request]
    refine ⟨ended, c, known, waiting, unanswered, ?_, ?_⟩
    · cases ctx : c.ctx <;> simp [Call.step, stuck, ctx]
    · simp [Call.step, stuck]

/-- The one call that can be stranded is that whose thunk is in the channel. -/
theorem Pending.exists_stranded_iff (pending : Pending s) :
    (∃ i, s.Stranded i) ↔ s.loop = .ended ∧ s.queued = some .getOrCreateGossiper := by
  constructor
  · intro ⟨i, stranded⟩
    obtain ⟨ended, c, known, waiting, unanswered, request⟩ := stranded_iff.mp stranded
    refine ⟨ended, ?_⟩
    rw [State.queued, pending.queued i c known waiting unanswered, Option.bind_some, known, Option.map_some, request]
  · intro ⟨ended, queued⟩
    obtain ⟨c, inSlot, request⟩ := Option.map_eq_some_iff.mp queued
    obtain ⟨i, slot, known⟩ := Option.bind_eq_some_iff.mp inSlot
    obtain ⟨asker, isAsker, unanswered, _, waits⟩ := pending.unanswered i slot
    rw [known, Option.some.injEq] at isAsker
    subst isAsker
    exact ⟨i, stranded_iff.mpr ⟨ended, c, known, waits request, unanswered, request⟩⟩

theorem queued_setCall (known : s.calls i = some c) (request : c'.request = c.request) :
    (s.setCall i c').queued = s.queued := by
  cases slot : s.thunk with
  | none =>
    have same : (s.setCall i c').thunk = none := slot
    rw [State.queued, State.queued, same, slot, Option.bind_none]
    rfl
  | some j =>
    have same : (s.setCall i c').thunk = some j := slot
    rw [State.queued, State.queued, same, slot, Option.bind_some, Option.bind_some]
    by_cases isCall : j = i
    · rw [isCall, setCall_self, known, Option.map_some, Option.map_some, request]
    · rw [setCall_of_ne isCall]

/-- A new call is not the one whose thunk is in the channel. -/
theorem Pending.queued_start (pending : Pending s) (unused : s.calls i = none) (request : Request) (ns : Namespace) :
    (s.setCall i (Call.start request ns)).queued = s.queued := by
  cases slot : s.thunk with
  | none =>
    have same : (s.setCall i (Call.start request ns)).thunk = none := slot
    rw [State.queued, State.queued, same, slot, Option.bind_none]
    rfl
  | some j =>
    have same : (s.setCall i (Call.start request ns)).thunk = some j := slot
    obtain ⟨c, known, _⟩ := pending.unanswered j slot
    have other : j ≠ i := by
      intro isNew
      rw [isNew, unused] at known
      cases known
    rw [State.queued, State.queued, same, slot, Option.bind_some, Option.bind_some, setCall_of_ne other]

/-- A step that leaves the loop and the channel as they are strands no call. -/
theorem not_left_congr (before : ¬ (s.loop = .ended ∧ s.queued = some .getOrCreateGossiper))
    (loop : s'.loop = s.loop) (queued : s'.queued = s.queued) :
    ¬ (s'.loop = .ended ∧ s'.queued = some .getOrCreateGossiper) := by
  rw [loop, queued]
  exact before

theorem left_callStep {e : Call.Event} (before : ¬ (s.loop = .ended ∧ s.queued = some .getOrCreateGossiper))
    (step : s.callStep i e = some s') :
    (¬ (s'.loop = .ended ∧ s'.queued = some .getOrCreateGossiper)) ↔ s.Timely (.call i e) := by
  obtain ⟨c, known, ⟨isSend, _, _, isNext⟩ | ⟨notSend, c', moves, isNext⟩⟩ := State.callStep_cases step
  · subst isSend isNext
    have queued : State.queued { s.setCall i { c with phase := .waiting } with thunk := some i } = some c.request := by
      rw [State.queued, Option.bind_some]
      show ((s.setCall i { c with phase := .waiting }).calls i).map Call.request = some c.request
      rw [setCall_self]
      rfl
    rw [queued]
    simp only [State.Timely, known, Option.map_some, not_and, ne_eq]
    rfl
  · subst isNext
    have sameQueue := queued_setCall known (Call.step_continues notSend moves).request
    refine iff_of_true (not_left_congr before rfl sameQueue) ?_
    cases e with
    | send => exact absurd rfl notSend
    | _ => trivial

theorem left_loopStep {e : Loop.Event} (before : ¬ (s.loop = .ended ∧ s.queued = some .getOrCreateGossiper))
    (step : s.loopStep newParams e = some s') :
    (¬ (s'.loop = .ended ∧ s'.queued = some .getOrCreateGossiper)) ↔ s.Timely (.loop e) := by
  rcases State.loopStep_cases step with ⟨now, i, c, isThunk, running, slot, known, isNext⟩ | ⟨turns, isTick, _, isNext⟩ |
    ⟨isAddress, _, isNext⟩ | ⟨isLeave, _, isNext⟩ | ⟨isFinish, _, isNext⟩
  · subst isThunk
    obtain ⟨px, reply, ran, _⟩ := s.runThunk_eq newParams i c now
    refine iff_of_true (fun left => ?_) trivial
    rw [isNext, ran] at left
    exact absurd (running.symm.trans left.1) nofun
  · subst isTick isNext
    exact iff_of_true (not_left_congr before rfl rfl) trivial
  · subst isAddress isNext
    exact iff_of_true before trivial
  · subst isLeave isNext
    exact iff_of_true (fun left => nomatch left.1) trivial
  · subst isFinish isNext
    simp only [State.Timely, ne_eq, true_and]
    rfl

/-- A step strands a call exactly when it is not timely. -/
theorem Pending.stranded_step {e : Event} (pending : Pending s) (before : ¬ ∃ i, s.Stranded i)
    (step : s.step newParams e = some s') : (¬ ∃ i, s'.Stranded i) ↔ s.Timely e := by
  have pending' := (pending_invariant newParams).step s e s' pending step
  rw [pending.exists_stranded_iff] at before
  rw [pending'.exists_stranded_iff]
  cases e with
  | start i request ns =>
    simp only [State.step] at step
    split at step
    · rename_i unused
      cases step
      have sameQueue := pending.queued_start (Option.isNone_iff_eq_none.mp unused) request ns
      exact iff_of_true (not_left_congr before rfl sameQueue) trivial
    · cases step
  | call i e => exact left_callStep before step
  | loop e => exact left_loopStep before step
  | close =>
    cases step
    exact iff_of_true (not_left_congr before rfl rfl) trivial

/-- A stranded call stays so, whatever happens. -/
theorem stranded_step_of_stranded {e : Event} (stranded : s.Stranded i) (step : s.step newParams e = some s') :
    s'.Stranded i := by
  obtain ⟨ended, c, known, waiting, unanswered, request⟩ := stranded_iff.mp stranded
  refine stranded_iff.mpr ?_
  cases e with
  | start j request' ns =>
    simp only [State.step] at step
    split at step
    · rename_i unused
      cases step
      have other : i ≠ j := by
        intro same
        rw [← same, known] at unused
        cases unused
      exact ⟨ended, c, (setCall_of_ne other).trans known, waiting, unanswered, request⟩
    · cases step
  | close =>
    cases step
    exact ⟨ended, c, known, waiting, unanswered, request⟩
  | loop e =>
    rcases State.loopStep_cases step with ⟨_, _, _, _, running, _⟩ | ⟨_, _, running, _⟩ | ⟨_, running, _⟩ |
      ⟨_, running, _⟩ | ⟨_, running, _⟩
    all_goals
      rw [ended] at running
      cases running
  | call j e =>
    obtain ⟨c', known', ⟨_, _, sending, isNext⟩ | ⟨notSend, c'', moves, isNext⟩⟩ := State.callStep_cases step
    · subst isNext
      have other : i ≠ j := by
        intro same
        rw [← same, known, Option.some.injEq] at known'
        rw [← known', waiting] at sending
        cases sending
      exact ⟨ended, c, (setCall_of_ne other).trans known, waiting, unanswered, request⟩
    · subst isNext
      by_cases same : i = j
      · rw [← same, known, Option.some.injEq] at known'
        subst known' same
        have continues := Call.step_continues notSend moves
        exact ⟨ended, c'', setCall_self, continues.held request waiting unanswered,
          continues.reply.trans unanswered, continues.request.trans request⟩
      · exact ⟨ended, c, (setCall_of_ne same).trans known, waiting, unanswered, request⟩

theorem stranded_forever {events later : List Event} (reached : (machine newParams).run events = some s)
    (stranded : s.Stranded i) (ends : (machine newParams).run (events ++ later) = some s') : s'.Stranded i :=
  Machine.run_later (P := fun s => s.Stranded i) (fun _ _ _ => stranded_step_of_stranded) reached stranded ends

/-- No call is ever stranded exactly when no thunk of `getOrCreateGossiper` is left
in the channel at the end of the loop or put there after it. -/
theorem no_call_stranded_iff_timely (newParams : Namespace → GossipConfig) (events : List Event) :
    (machine newParams).Always (fun _ s => ¬ ∃ i, s.Stranded i) events ↔
      (machine newParams).Throughout (fun _ s e => s.Timely e) events := by
  refine Machine.always_iff_throughout (pending_invariant newParams) ?_ ?_
  · intro ⟨i, ended, _⟩
    cases ended
  · intro _ s e s' pending before step
    exact pending.stranded_step before step

/-- The thunk is sent when the loop has seen the end of the subscription. -/
theorem stranded_by_close : ∃ s, (machine fun _ => defaultGossipConfig).run
    [.start 0 .getOrCreateGossiper [97], .close, .loop .leave, .call 0 .send, .loop .finish] = some s ∧
      s.Stranded 0 :=
  ⟨_, rfl, rfl, _, rfl, rfl, rfl, rfl, rfl⟩

/-- The exchange that the loop works on is that of a run of its own events, and it
is closed once the loop has ended. -/
structure Runs (newParams : Namespace → GossipConfig) (s : State) : Prop where
  closed : s.exchange.closed = true ↔ s.loop = .ended
  run : ∃ events, s.exchange = PeerExchange.run newParams events

theorem Runs.congr (runs : Runs newParams s) (exchange : s'.exchange = s.exchange) (loop : s'.loop = s.loop) :
    Runs newParams s' := by
  constructor
  · rw [exchange, loop]
    exact runs.closed
  · rw [exchange]
    exact runs.run

theorem Runs.open (runs : Runs newParams s) (notEnded : s.loop ≠ .ended) : s.exchange.closed = false := by
  cases closed : s.exchange.closed with
  | false => rfl
  | true => exact absurd (runs.closed.mp closed) notEnded

theorem Runs.handle (runs : Runs newParams s) (e : PeerExchange.Event)
    (exchange : s'.exchange = s.exchange.handle newParams e) (closed : s'.exchange.closed = true ↔ s'.loop = .ended) :
    Runs newParams s' := by
  obtain ⟨events, isRun⟩ := runs.run
  refine ⟨closed, events ++ [e], ?_⟩
  rw [exchange, isRun, PeerExchange.run_concat]

theorem Runs.loopStep {e : Loop.Event} (runs : Runs newParams s) (step : s.loopStep newParams e = some s') :
    Runs newParams s' := by
  rcases State.loopStep_cases step with ⟨now, i, c, _, running, slot, known, isNext⟩ | ⟨turns, _, running, isNext⟩ |
    ⟨_, _, isNext⟩ | ⟨_, running, isNext⟩ | ⟨_, leaving, isNext⟩
  · obtain ⟨px, reply, ran, isSame | isNew⟩ := s.runThunk_eq newParams i c now
    · rw [isNext, ran, isSame]
      exact runs.congr rfl rfl
    · have isOpen := runs.open (by simp [running])
      rw [isNext, ran]
      refine runs.handle (.advertise c.ns now) ?_ ?_
      · simp only [isNew, PeerExchange.handle, isOpen, Bool.false_eq_true, if_false]
      · show px.closed = true ↔ s.loop = .ended
        rw [isNew, PeerExchange.closed_getOrCreateGossiper]
        exact runs.closed
  · have isOpen := runs.open (by simp [running])
    rw [isNext]
    refine runs.handle (.tick turns) ?_ ?_
    · simp only [PeerExchange.handle, isOpen, Bool.false_eq_true, if_false]
    · show (turns.foldl PeerExchange.expire s.exchange).closed = true ↔ s.loop = .ended
      rw [PeerExchange.closed_tick]
      exact runs.closed
  · rw [isNext]
    exact runs
  · have isOpen := runs.open (by simp [running])
    rw [isNext]
    refine ⟨?_, runs.run⟩
    simp only [isOpen, Bool.false_eq_true, reduceCtorEq]
  · have isOpen := runs.open (by simp [leaving])
    rw [isNext]
    refine runs.handle .close ?_ ?_
    · simp only [PeerExchange.handle, isOpen, Bool.false_eq_true, if_false]
    · simp only [PeerExchange.close]

/-- Whatever the calls do, the loop takes the exchange through one of its runs. -/
theorem runs_invariant (newParams : Namespace → GossipConfig) : (machine newParams).Invariant (Runs newParams) where
  start := ⟨by simp [machine, State.init, PeerExchange.new], [], rfl⟩
  step s e s' runs step := by
    cases e with
    | start i request ns =>
      simp only [machine, State.step] at step
      split at step
      · cases step
        exact runs.congr rfl rfl
      · cases step
    | call i e =>
      obtain ⟨c, known, ⟨_, _, _, isNext⟩ | ⟨_, c', _, isNext⟩⟩ := State.callStep_cases step
      · rw [isNext]
        exact runs.congr rfl rfl
      · rw [isNext]
        exact runs.congr rfl rfl
    | loop e => exact runs.loopStep step
    | close =>
      cases step
      exact runs.congr rfl rfl

end Casm.Pex.Calls
