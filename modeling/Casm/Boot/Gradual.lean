import Casm.Boot.Subscriptions

namespace Casm.Boot.Gradual
open Subscriptions (AddrInfo)

/-- What a receive from a closed channel yields. -/
def zero : AddrInfo where
  id := []
  addrs := []

/-- The channel that the loop receives from: none after a failed attempt, the one of a
subscription, or the closed one that a closed socket hands out. -/
inductive Inner where
  | nil
  | subscription (i : Nat)
  | closedChan
  deriving DecidableEq

/-- Where `FindPeers` and its loop are: at the select, in a call of the surveyor's
`FindPeers` before it subscribes, while it sends the request, or while the `cancel` of
its failed subscription runs; or at the end. -/
inductive Phase where
  | selecting
  | attempting
  | requesting (ch : Inner)
  | failing (ch : Inner)
  | returned
  deriving DecidableEq

/-- The loop with the socket that it runs on. `sent` is what the surveyor has sent on its
channels so far, `reported` what the loop has sent on its own. `attempts` are the
subscriptions that the loop has made, `live` is the one whose context it has not cancelled. -/
structure State where
  sock : Subscriptions.State
  sent : List (Nat × AddrInfo)
  phase : Phase
  started : Bool
  found : Inner
  attempts : List Nat
  live : Option Nat
  ctxDone : Bool
  out : List AddrInfo
  reported : List AddrInfo

/-- The steps of the loop, and those of everyone else on the socket. -/
inductive Event where
  | socket (e : Subscriptions.Event)
  | timer
  | reject
  | subscribe (i fresh : Nat)
  | request (ok : Bool)
  | giveUp
  | receive
  | consume
  | cancel
  | finish

/-- The send that the server makes, if it finds room. -/
def sends (s : Subscriptions.State) : Subscriptions.Event → List (Nat × AddrInfo)
  | .send =>
    match s.server with
    | .sending info (i :: _) _ =>
      if (s.subscription i).any fun sub => !sub.ch.closed && sub.ch.buf.length < 16 then [(i, info)] else []
    | _ => []
  | _ => []

namespace State

/-- Before the first attempt. -/
def new : State where
  sock := .new
  sent := []
  phase := .attempting
  started := false
  found := .nil
  attempts := []
  live := none
  ctxDone := false
  out := []
  reported := []

/-- The server is about to call the `cancel` of a subscription that has reached its limit. -/
def releases (s : State) (i : Nat) : Bool :=
  match s.sock.server with
  | .releasing (j :: _) => j = i
  | _ => false

/-- Who calls the `cancel` of a subscription of the loop: the goroutine that waits for its
context and for the socket, the server, or the attempt itself when its request failed. -/
def mayCancel (s : State) (i : Nat) : Bool :=
  i ∉ s.attempts || s.ctxDone || s.live ≠ some i || s.sock.done || s.releases i ||
    s.phase = .failing (.subscription i)

/-- The subscriptions of the loop are left to it. -/
def permits (s : State) : Subscriptions.Event → Bool
  | .enter i => s.mayCancel i
  | .receive i => i ∉ s.attempts
  | _ => true

/-- A send on `out`, which has room for one, in a select with a default case. -/
def forward (s : State) (info : AddrInfo) : State :=
  if s.out.length < 1 then { s with out := s.out ++ [info], reported := s.reported ++ [info] } else s

/-- The second case of the select. A nil channel is never ready, a closed one always is. -/
def receive (s : State) : Option State :=
  match s.found with
  | .nil => none
  | .closedChan => some (s.forward zero)
  | .subscription i =>
    match s.sock.subscription i with
    | none => none
    | some sub =>
      match sub.ch.buf with
      | info :: _ => (s.sock.step (.receive i)).map fun sock => { s with sock := sock }.forward info
      | [] => if sub.ch.closed then some (s.forward zero) else none

/-- After `Close` the attempt gets the closed channel. -/
def subscribe (s : State) (ns : Namespace) (limit : Int) (i fresh : Nat) : Option State :=
  (s.sock.step (.subscribe i fresh ns limit)).map fun sock =>
    if s.sock.done then { s with phase := .requesting .closedChan }
    else { s with sock := sock, phase := .requesting (.subscription i), attempts := i :: s.attempts, live := some i }

/-- The `cancel` of a failed attempt has returned, whoever was in its `once`. -/
def cancelReturned (s : State) : Inner → Bool
  | .subscription i => (s.sock.subscription i).any (·.cancel = .returned)
  | _ => true

/-- An attempt that failed leaves a nil channel. The first one ends the call. -/
def fail (s : State) : State :=
  if s.started then { s with phase := .selecting, found := .nil } else { s with phase := .returned, live := none }

def act (s : State) (ns : Namespace) (limit : Int) : Event → Option State
  | .socket e =>
    if s.permits e then (s.sock.step e).map fun sock => { s with sock := sock, sent := s.sent ++ sends s.sock e }
    else none
  | .timer => if s.phase = .selecting then some { s with phase := .attempting, live := none } else none
  | .reject => if s.phase = .attempting then some s.fail else none
  | .subscribe i fresh => if s.phase = .attempting then s.subscribe ns limit i fresh else none
  | .request ok =>
    match s.phase with
    | .requesting ch =>
      some (if ok then { s with phase := .selecting, found := ch, started := true } else { s with phase := .failing ch })
    | _ => none
  | .giveUp =>
    match s.phase with
    | .failing ch => if s.cancelReturned ch then some s.fail else none
    | _ => none
  | .receive => if s.phase = .selecting then s.receive else none
  | .consume =>
    match s.out with
    | [] => none
    | _ :: rest => some { s with out := rest }
  | .cancel => some { s with ctxDone := true }
  | .finish => if s.phase = .selecting ∧ s.ctxDone = true then some { s with phase := .returned } else none

/-- A panic ends the program. -/
def step (s : State) (ns : Namespace) (limit : Int) (e : Event) : Option State :=
  if s.sock.panic.isSome then none else s.act ns limit e

/-- The channel that the loop receives from is closed, and nothing is left in it. -/
def drained (s : State) : Bool :=
  match s.found with
  | .nil => false
  | .closedChan => true
  | .subscription i => (s.sock.subscription i).any fun sub => sub.ch.closed && sub.ch.buf.isEmpty

end State

/-- `GradualSurveyor.FindPeers`, with the options of the caller. -/
def machine (ns : Namespace) (limit : Int) : Machine State Event where
  start := State.new
  step s e := s.step ns limit e

/-- The surveyor has sent the peer on one of its channels. -/
def State.Sent (s : State) (info : AddrInfo) : Prop :=
  ∃ i, (i, info) ∈ s.sent

/-- Every peer that was reported had been sent by the surveyor. -/
def Discovered (s : State) : Prop :=
  ∀ info ∈ s.reported, s.Sent info

/-- The loop does not receive from a closed and empty channel while it can report. -/
def Genuine (s : State) (e : Event) : Prop :=
  e = .receive → s.drained = true → s.out.length < 1 → s.Sent zero

/-- What is in the channels was sent. -/
def Buffered (s : State) : Prop :=
  ∀ i sub, s.sock.subscription i = some sub → ∀ info ∈ sub.ch.buf, (i, info) ∈ s.sent

section Socket

variable {s s' : Subscriptions.State}

/-- What is in the channels after a step was there before, or was sent by the step. -/
def Refills (extra : List (Nat × AddrInfo)) (s : Subscriptions.State)
    (subscription : Nat → Option Subscriptions.Subscription) : Prop :=
  ∀ i sub', subscription i = some sub' → ∀ info ∈ sub'.ch.buf,
    (∃ sub, s.subscription i = some sub ∧ info ∈ sub.ch.buf) ∨ (i, info) ∈ extra

variable {extra : List (Nat × AddrInfo)}

theorem Refills.same : Refills extra s s.subscription :=
  fun _ sub known _ member => .inl ⟨sub, known, member⟩

theorem Refills.set {j : Nat} {old new : Subscriptions.Subscription} (known : s.subscription j = some old)
    (origin : ∀ info ∈ new.ch.buf, info ∈ old.ch.buf ∨ (j, info) ∈ extra) :
    Refills extra s (Function.update s.subscription j (some new)) := by
  intro i sub isSub info member
  rcases Function.update_cases isSub with ⟨rfl, same⟩ | ⟨-, before⟩
  · cases same
    exact (origin info member).imp_left fun inside => ⟨old, known, inside⟩
  · exact .inl ⟨sub, before, member⟩

/-- A new channel is empty. -/
theorem Refills.new {j : Nat} {new : Subscriptions.Subscription} (isEmpty : new.ch.buf = []) :
    Refills extra s (Function.update s.subscription j (some new)) := by
  intro i sub isSub info member
  rcases Function.update_cases isSub with ⟨-, same⟩ | ⟨-, before⟩
  · cases same
    rw [isEmpty] at member
    cases member
  · exact .inl ⟨sub, before, member⟩

theorem sends_send {info : AddrInfo} {i : Nat} {todo done : List Nat} {sub : Subscriptions.Subscription}
    (isServer : s.server = .sending info (i :: todo) done) (known : s.subscription i = some sub)
    (isOpen : ¬ sub.ch.closed = true) (room : sub.ch.buf.length < 16) : sends s .send = [(i, info)] := by
  simp [sends, isServer, known, isOpen, room]

theorem refills_step {e : Subscriptions.Event} (step : s.step e = some s') :
    Refills (sends s e) s s'.subscription := by
  have effect := Subscriptions.effect_of_step step
  generalize s'.subscription = subscription, s'.server = server at effect ⊢
  cases effect with
  | subscribe => exact .new rfl
  | enter known => exact .set known fun _ member => .inl member
  | remove known => exact .set known fun _ member => .inl member
  | closeChan known => exact .set known fun _ member => .inl member
  | receive known isBuf => exact .set known fun _ member => .inl (isBuf ▸ List.mem_cons_of_mem _ member)
  | sendRoom isServer known isOpen room =>
    refine .set known fun info member => ?_
    rw [sends_send isServer known isOpen room]
    rcases List.mem_append.mp member with before | sent
    · exact .inl before
    · rw [List.mem_singleton.mp sent]
      exact .inr (List.mem_singleton_self _)
  | _ => exact .same

end Socket

section Steps

variable {s s' : State} {ns : Namespace} {limit : Int} {info : AddrInfo}

/-- A peer that is forwarded is reported if there is room for it. -/
theorem discovered_forward (discovered : Discovered s) :
    Discovered (s.forward info) ↔ (s.out.length < 1 → s.Sent info) := by
  by_cases room : s.out.length < 1
  · have all : Discovered (s.forward info) ↔ ∀ info' ∈ s.reported ++ [info], s.Sent info' := by
      rw [State.forward, if_pos room]
      rfl
    rw [all, List.forall_mem_append, List.forall_mem_singleton, imp_iff_right room]
    exact and_iff_right discovered
  · rw [State.forward, if_neg room]
    exact iff_of_true discovered fun free => absurd free room

/-- A receive takes what is in the channel, or the zero value if it is closed and empty. -/
theorem receive_cases (step : s.receive = some s') :
    (s.drained = true ∧ s' = s.forward zero) ∨
      s.drained = false ∧ ∃ i sub info sock, s.sock.subscription i = some sub ∧ info ∈ sub.ch.buf ∧
        s.sock.step (.receive i) = some sock ∧ s' = { s with sock := sock }.forward info := by
  rw [State.receive] at step
  split at step
  next => cases step
  next isFound =>
    refine .inl ⟨?_, (Option.some.inj step).symm⟩
    rw [State.drained, isFound]
  next i isFound =>
    split at step
    next => cases step
    next sub known =>
      have drained : s.drained = (sub.ch.closed && sub.ch.buf.isEmpty) := by
        rw [State.drained, isFound]
        simp [known]
      split at step
      next info rest isBuf =>
        obtain ⟨sock, received, result⟩ := Option.map_eq_some_iff.mp step
        refine .inr ⟨?_, i, sub, info, sock, known, ?_, received, result.symm⟩
        · rw [drained, isBuf, List.isEmpty_cons, Bool.and_false]
        · rw [isBuf]
          exact List.mem_cons_self
      next isBuf =>
        split at step
        next closed =>
          refine .inl ⟨?_, (Option.some.inj step).symm⟩
          rw [drained, closed, isBuf]
          rfl
        next => cases step

theorem Buffered.of_refills {extra : List (Nat × AddrInfo)} (buffered : Buffered s)
    (refills : Refills extra s.sock s'.sock.subscription) (kept : ∀ p ∈ s.sent, p ∈ s'.sent) (added : ∀ p ∈ extra, p ∈ s'.sent) :
    Buffered s' := by
  intro i sub known info member
  rcases refills i sub known info member with ⟨old, isOld, inside⟩ | sent
  · exact kept _ (buffered i old isOld info inside)
  · exact added _ sent

theorem Buffered.forward (buffered : Buffered s) : Buffered (s.forward info) := by
  rw [State.forward]
  split
  · exact buffered
  · exact buffered

/-- What a step that is no receive of the loop does: the channels are refilled with what
is logged, and nothing is reported. -/
structure Quiet (s s' : State) (extra : List (Nat × AddrInfo)) : Prop where
  refills : Refills extra s.sock s'.sock.subscription
  sent : s'.sent = s.sent ++ extra
  reported : s'.reported = s.reported

theorem Quiet.of_same (sock : s'.sock = s.sock) (sent : s'.sent = s.sent) (reported : s'.reported = s.reported) :
    Quiet s s' [] := by
  refine ⟨?_, ?_, reported⟩
  · rw [sock]
    exact .same
  · rw [sent, List.append_nil]

theorem quiet_fail : Quiet s s.fail [] := by
  rw [State.fail]
  split
  · exact .of_same rfl rfl rfl
  · exact .of_same rfl rfl rfl

theorem quiet_subscribe {i fresh : Nat} (step : s.subscribe ns limit i fresh = some s') : Quiet s s' [] := by
  obtain ⟨sock, subscribed, result⟩ := Option.map_eq_some_iff.mp step
  have refills := refills_step subscribed
  subst result
  split
  · exact .of_same rfl rfl rfl
  · exact ⟨refills, (List.append_nil _).symm, rfl⟩

/-- What a step adds to the log. -/
def logged (s : State) : Event → List (Nat × AddrInfo)
  | .socket e => sends s.sock e
  | _ => []

theorem quiet_of_ne_receive {e : Event} (step : s.act ns limit e = some s') (other : e ≠ .receive) :
    Quiet s s' (logged s e) := by
  cases e with
  | socket e =>
    rw [State.act] at step
    split at step
    · obtain ⟨sock, stepped, result⟩ := Option.map_eq_some_iff.mp step
      subst result
      exact ⟨refills_step stepped, rfl, rfl⟩
    · cases step
  | timer =>
    rw [State.act] at step
    split at step
    · cases step
      exact .of_same rfl rfl rfl
    · cases step
  | reject =>
    rw [State.act] at step
    split at step
    · cases step
      exact quiet_fail
    · cases step
  | subscribe i fresh =>
    rw [State.act] at step
    split at step
    · exact quiet_subscribe step
    · cases step
  | request ok =>
    rw [State.act] at step
    split at step
    · cases step
      cases ok with
      | true => exact .of_same rfl rfl rfl
      | false => exact .of_same rfl rfl rfl
    · cases step
  | giveUp =>
    rw [State.act] at step
    split at step
    · split at step
      · cases step
        exact quiet_fail
      · cases step
    · cases step
  | receive => exact absurd rfl other
  | consume =>
    rw [State.act] at step
    split at step
    · cases step
    · cases step
      exact .of_same rfl rfl rfl
  | cancel =>
    cases step
    exact .of_same rfl rfl rfl
  | finish =>
    rw [State.act] at step
    split at step
    · cases step
      exact .of_same rfl rfl rfl
    · cases step

theorem act_of_step {e : Event} (step : s.step ns limit e = some s') : s.act ns limit e = some s' := by
  rw [State.step] at step
  split at step
  · cases step
  · exact step

theorem receive_of_act (step : s.act ns limit .receive = some s') : s.receive = some s' := by
  rw [State.act] at step
  split at step
  · exact step
  · cases step

theorem Quiet.discovered {extra : List (Nat × AddrInfo)} (quiet : Quiet s s' extra) (discovered : Discovered s) :
    Discovered s' := by
  intro info member
  rw [quiet.reported] at member
  obtain ⟨i, sent⟩ := discovered info member
  refine ⟨i, ?_⟩
  rw [quiet.sent]
  exact List.mem_append_left extra sent

theorem Buffered.step {e : Event} (buffered : Buffered s) (step : s.step ns limit e = some s') : Buffered s' := by
  have acted := act_of_step step
  by_cases isReceive : e = .receive
  · subst isReceive
    rcases receive_cases (receive_of_act acted) with ⟨-, rfl⟩ | ⟨-, i, sub, info, sock, -, -, received, rfl⟩
    · exact buffered.forward
    · have middle : Buffered { s with sock := sock } :=
        buffered.of_refills (refills_step received) (fun _ sent => sent) fun p nothing => absurd nothing List.not_mem_nil
      exact middle.forward
  · have quiet := quiet_of_ne_receive acted isReceive
    refine buffered.of_refills quiet.refills (fun p sent => ?_) fun p added => ?_
    · rw [quiet.sent]
      exact List.mem_append_left _ sent
    · rw [quiet.sent]
      exact List.mem_append_right s.sent added

theorem buffered_invariant (ns : Namespace) (limit : Int) : (machine ns limit).Invariant Buffered where
  start i sub known := by cases known
  step _ _ _ buffered step := buffered.step step

/-- A receive keeps the property if it does not report a zero value. -/
theorem discovered_receive (buffered : Buffered s) (discovered : Discovered s) (step : s.receive = some s') :
    Discovered s' ↔ (s.drained = true → s.out.length < 1 → s.Sent zero) := by
  rcases receive_cases step with ⟨drained, rfl⟩ | ⟨notDrained, i, sub, info, sock, known, inside, -, rfl⟩
  · rw [discovered_forward discovered, imp_iff_right drained]
  · have middle : Discovered { s with sock := sock } := discovered
    rw [discovered_forward middle]
    refine iff_of_true (fun _ => ⟨i, buffered i sub known info inside⟩) fun drained => ?_
    rw [notDrained] at drained
    cases drained

theorem discovered_step_iff {e : Event} (buffered : Buffered s) (discovered : Discovered s)
    (step : s.step ns limit e = some s') : Discovered s' ↔ Genuine s e := by
  have acted := act_of_step step
  by_cases isReceive : e = .receive
  · subst isReceive
    rw [discovered_receive buffered discovered (receive_of_act acted), Genuine, imp_iff_right rfl]
  · have quiet := quiet_of_ne_receive acted isReceive
    exact iff_of_true (quiet.discovered discovered) fun same => absurd same isReceive

end Steps

/-- In a run of the loop, every peer that is reported has been sent by the surveyor before,
exactly if the loop never reports what it received from a closed and empty channel. -/
theorem reports_discovered_iff (ns : Namespace) (limit : Int) (events : List Event) :
    (machine ns limit).Always (fun _ s => Discovered s) events ↔
      (machine ns limit).Throughout (fun _ s e => Genuine s e) events := by
  refine Machine.always_iff_throughout (buffered_invariant ns limit) (fun info member => by cases member) ?_
  intro before s e s' buffered discovered step
  exact discovered_step_iff buffered discovered step

/-- A caller who wants one peer. The server closes the channel after the first response,
and the loop receives from it again. -/
def limitedRun : List Event :=
  [.subscribe 0 0, .request true, .socket (.dispatch [1] ⟨[7], []⟩ [0]), .socket .send, .socket .unlock,
    .socket (.enter 0), .socket (.remove 0), .socket (.closeChan 0), .socket .release, .socket .release,
    .receive, .consume, .receive]

theorem zero_peer_reported : ¬ (machine [1] 1).Always (fun _ s => Discovered s) limitedRun := by
  intro always
  have ran : ((machine [1] 1).run limitedRun).map (fun s => (s.sent, s.reported)) =
      some ([(0, ⟨[7], []⟩)], [⟨[7], []⟩, zero]) := rfl
  obtain ⟨s, reached, logs⟩ := Option.map_eq_some_iff.mp ran
  obtain ⟨sent, reported⟩ := Prod.mk.inj logs
  obtain ⟨i, member⟩ := always limitedRun s List.prefix_rfl reached zero (by rw [reported]; simp)
  rw [sent] at member
  simp [zero] at member

end Casm.Boot.Gradual
