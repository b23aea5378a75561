import Casm.Lib.LastWrite
import Casm.Boot.Delivery
import Casm.Boot.Serve

namespace Casm.Boot

/-- The map of the advertised namespaces, each with its deadline. -/
structure Deadlines where
  entries : List (Namespace × Int)
  nodup : (entries.map Prod.fst).Nodup

namespace Deadlines

def empty : Deadlines where
  entries := []
  nodup := List.nodup_nil

def keys (d : Deadlines) : List Namespace :=
  d.entries.map Prod.fst

theorem nodup_filter (d : Deadlines) (p : Namespace × Int → Bool) : ((d.entries.filter p).map Prod.fst).Nodup :=
  d.nodup.sublist (List.filter_sublist.map _)

def set (d : Deadlines) (ns : Namespace) (deadline : Int) : Deadlines where
  entries := (ns, deadline) :: d.entries.filter (·.1 ≠ ns)
  nodup := by
    rw [List.map_cons, List.nodup_cons]
    exact ⟨by simp, d.nodup_filter _⟩

/-- The entries whose deadline the time is not after. -/
def expire (d : Deadlines) (t : Int) : Deadlines where
  entries := d.entries.filter fun entry => ¬ entry.2 < t
  nodup := d.nodup_filter _

def overdue (d : Deadlines) (t : Int) : List Namespace :=
  (d.entries.filter fun entry => entry.2 < t).map Prod.fst

def get (d : Deadlines) (ns : Namespace) : Option Int :=
  (d.entries.find? (·.1 = ns)).map Prod.snd

variable {d : Deadlines} {ns ns' : Namespace} {deadline : Int} {t : Int}

theorem get_eq_some_iff : d.get ns = some deadline ↔ (ns, deadline) ∈ d.entries := by
  obtain ⟨entries, nodup⟩ := d
  simp only [get]
  induction entries with
  | nil => simp
  | cons entry entries ih =>
    obtain ⟨first, deadline'⟩ := entry
    rw [List.map_cons, List.nodup_cons] at nodup
    by_cases same : first = ns
    · subst same
      have absent : (first, deadline) ∉ entries := fun member => nodup.1 (List.mem_map.mpr ⟨_, member, rfl⟩)
      simp [absent, eq_comm]
    · rw [List.find?_cons_of_neg (by simpa using same), ih nodup.2]
      simp [Ne.symm same]

theorem get_set_self : (d.set ns deadline).get ns = some deadline :=
  get_eq_some_iff.mpr List.mem_cons_self

theorem get_set_of_ne (other : ns' ≠ ns) : (d.set ns deadline).get ns' = d.get ns' := by
  refine Option.ext fun deadline' => ?_
  rw [get_eq_some_iff, get_eq_some_iff]
  simp [set, other]

theorem get_expire : (d.expire t).get ns = some deadline ↔ d.get ns = some deadline ∧ ¬ deadline < t := by
  rw [get_eq_some_iff, get_eq_some_iff]
  simp [expire]

theorem mem_keys_iff : ns ∈ d.keys ↔ ∃ deadline, d.get ns = some deadline := by
  simp [keys, get_eq_some_iff]

theorem keys_set : (d.set ns deadline).keys = ns :: d.keys.filter (· ≠ ns) := by
  simp [keys, set, List.filter_map, Function.comp_def]

theorem keys_expire : (d.expire t).keys = d.keys.filter fun ns => ns ∉ d.overdue t := by
  rw [keys, keys, expire, List.filter_map]
  refine congrArg _ (List.filter_congr fun entry member => ?_)
  -- an entry is overdue exactly if its namespace is, which has no other entry
  have unique : entry.1 ∈ d.overdue t ↔ entry.2 < t := by
    simp only [overdue, List.mem_map, List.mem_filter, decide_eq_true_eq]
    refine ⟨?_, fun late => ⟨entry, ⟨member, late⟩, rfl⟩⟩
    rintro ⟨other, ⟨isOther, late⟩, same⟩
    rwa [List.inj_on_of_nodup_map d.nodup member isOther same.symm]
  simp only [Function.comp_apply, unique]

end Deadlines

namespace Socket

structure State where
  time : Int
  advt : Deadlines
  phase : Phase
  subs : Subscriptions.State

/-- The first five are steps of `serve`, where the order is the one in which a response
is sent to the subscribers. Then come calls by other goroutines, the ticks of the clock,
and what happens to the subscriptions. -/
inductive Event where
  | read (result : Except ConnError (List UInt8 × NetAddr)) (sending : Sending) (order : List Nat)
  | check
  | report
  | decide
  | deferred
  | close
  | track (ns : Namespace) (ttl : Int)
  | tick (t : Int)
  | subscription (e : Subscriptions.Event)

section Machine

variable (W : Wire) (svc : Service)

/-- The response that a datagram holds for the subscribers of a namespace. -/
def answer (result : Except ConnError (List UInt8 × NetAddr)) : Option (Namespace × Subscriptions.AddrInfo) :=
  match scan W svc.self result with
  | .error _ => none
  | .ok (r, _) =>
    match r.which, r.ns, r.bindInfo W with
    | .response, .ok ns, .ok info => some (ns, info)
    | _, _, _ => none

namespace State

/-- What `serve` knows of the socket. -/
def toServe (s : State) : Serve.State where
  done := s.subs.done
  advt := s.advt.keys
  phase := s.phase

def setSubs (s : State) (subs : Subscriptions.State) : State :=
  { s with subs := subs }

/-- `serve` reads when the last response has been dispatched. -/
def read (s : State) (result : Except ConnError (List UInt8 × NetAddr)) (sending : Sending) (order : List Nat) :
    Option State :=
  match s.phase, s.subs.server with
  | .scanning, .idle =>
    match answer W svc result with
    | some (ns, info) => (s.subs.step (.dispatch ns info order)).map s.setSubs
    | none => some { s with phase := (s.toServe.afterRead (s.toServe.read W svc result sending)).phase }
  | _, _ => none

def goOn (s : State) (e : Serve.Event) : Option State :=
  (s.toServe.serve W svc e).map fun next => { s with phase := next.phase }

def deferred (s : State) : Option State :=
  match s.phase with
  | .closing => (s.subs.step .close).map fun subs => { s with subs := subs, phase := .returned }
  | _ => none

/-- `Track` needs the lock. -/
def track (s : State) (ns : Namespace) (ttl : Int) : Option State :=
  if s.subs.server.reading then none
  else if s.subs.done then some s
  else some { s with advt := s.advt.set ns (s.time + ttl) }

/-- One pass of `tickloop`, which needs the lock. -/
def tick (s : State) (t : Int) : Option State :=
  if s.subs.server.reading then none else some { s with time := t, advt := s.advt.expire t }

/-- Responses come from `serve` only, and `Close` is a call of its own. -/
def subscription (s : State) : Subscriptions.Event → Option State
  | .dispatch .. | .close => none
  | e => (s.subs.step e).map s.setSubs

def act (s : State) : Event → Option State
  | .read result sending order => s.read W svc result sending order
  | .check => s.goOn W svc .check
  | .report => s.goOn W svc .report
  | .decide => s.goOn W svc .decide
  | .deferred => s.deferred
  | .close => (s.subs.step .close).map s.setSubs
  | .track ns ttl => s.track ns ttl
  | .tick t => s.tick t
  | .subscription e => s.subscription e

/-- A panic ends the program. -/
def step (s : State) (e : Event) : Option State :=
  match s.phase with
  | .panicked _ => none
  | _ => if s.subs.panic.isSome then none else s.act W svc e

end State

/-- A socket that was made at this time. -/
def machine (now : Int) : Machine State Event where
  start := ⟨now, .empty, .scanning, .new⟩
  step s e := s.step W svc e

/-- What an event is for the subscriptions. -/
def calls (_ : State) : Event → List Subscriptions.Event
  | .read result _ order =>
    match answer W svc result with
    | some (ns, info) => [.dispatch ns info order]
    | none => []
  | .deferred | .close => [.close]
  | .subscription e => [e]
  | _ => []

/-- What an event is for `serve` and the namespaces that it reads. -/
def passes (s : State) : Event → List Serve.Event
  | .read result sending _ => [.read result sending]
  | .check => [.check]
  | .report => [.report]
  | .decide => [.decide]
  | .deferred => [.deferred]
  | .close => [.close]
  | .track ns _ => if s.subs.done then [] else [.expire ns, .track ns]
  | .tick t => (s.advt.overdue t).map .expire
  | .subscription _ => []

end Machine

section Refinement

variable {W : Wire} {svc : Service} {s s' : State} {e : Event}

theorem act_of_step (step : s.step W svc e = some s') :
    (∀ fault, s.phase ≠ .panicked fault) ∧ s.act W svc e = some s' := by
  rw [State.step] at step
  split at step
  · cases step
  next notPanicked =>
    split at step
    · cases step
    · exact ⟨notPanicked, step⟩

/-- A read dispatches a response, or leaves it to `serve` what is next. -/
theorem read_cases {result : Except ConnError (List UInt8 × NetAddr)} {sending : Sending} {order : List Nat}
    (step : s.read W svc result sending order = some s') :
    s.phase = .scanning ∧ s.subs.server = .idle ∧
      ((∃ ns info subs, answer W svc result = some (ns, info) ∧
          s.subs.step (.dispatch ns info order) = some subs ∧ s' = s.setSubs subs) ∨
        (answer W svc result = none ∧
          s' = { s with phase := (s.toServe.afterRead (s.toServe.read W svc result sending)).phase })) := by
  rw [State.read] at step
  split at step
  next isPhase isServer =>
    refine ⟨isPhase, isServer, ?_⟩
    split at step
    next ns info isAnswer =>
      obtain ⟨subs, isSubs, same⟩ := Option.map_eq_some_iff.mp step
      exact .inl ⟨ns, info, subs, isAnswer, isSubs, same.symm⟩
    next isAnswer =>
      cases step
      exact .inr ⟨isAnswer, rfl⟩
  next => cases step

theorem deferred_cases (step : s.deferred = some s') :
    s.phase = .closing ∧ ∃ subs, s.subs.step .close = some subs ∧ s' = { s with subs := subs, phase := .returned } := by
  rw [State.deferred] at step
  split at step
  next isPhase =>
    obtain ⟨subs, isSubs, same⟩ := Option.map_eq_some_iff.mp step
    exact ⟨isPhase, subs, isSubs, same.symm⟩
  next => cases step

theorem subscription_eq {e : Subscriptions.Event} (notClose : e ≠ .close)
    (notDispatch : ∀ ns info order, e ≠ .dispatch ns info order) :
    s.subscription e = (s.subs.step e).map s.setSubs := by
  cases e with
  | dispatch ns info order => exact absurd rfl (notDispatch ns info order)
  | close => exact absurd rfl notClose
  | _ => rfl

theorem subscription_cases {e : Subscriptions.Event} (step : s.subscription e = some s') :
    e ≠ .close ∧ ∃ subs, s.subs.step e = some subs ∧ s' = s.setSubs subs := by
  have notClose : e ≠ .close := by
    rintro rfl
    cases step
  have notDispatch (ns : Namespace) (info : Subscriptions.AddrInfo) (order : List Nat) : e ≠ .dispatch ns info order := by
    rintro rfl
    cases step
  rw [subscription_eq notClose notDispatch] at step
  obtain ⟨subs, isSubs, same⟩ := Option.map_eq_some_iff.mp step
  exact ⟨notClose, subs, isSubs, same.symm⟩

theorem goOn_cases {e : Serve.Event} (step : s.goOn W svc e = some s') :
    ∃ next, s.toServe.serve W svc e = some next ∧ s' = { s with phase := next.phase } := by
  obtain ⟨next, isNext, same⟩ := Option.map_eq_some_iff.mp step
  exact ⟨next, isNext, same.symm⟩

/-- The subscriptions of the socket behave as they do on their own. -/
theorem refines_subscriptions (W : Wire) (svc : Service) (now : Int) :
    (machine W svc now).Refines Subscriptions.machine State.subs (calls W svc) where
  start := rfl
  step {s e s'} step := by
    obtain ⟨-, step⟩ := act_of_step step
    cases e with
    | read result sending order =>
      obtain ⟨-, -, ⟨ns, info, subs, isAnswer, isSubs, rfl⟩ | ⟨isAnswer, rfl⟩⟩ := read_cases step
      · simp only [calls, isAnswer]
        exact Machine.foldlM_singleton isSubs
      · simp [calls, isAnswer]
    | check =>
      obtain ⟨next, -, rfl⟩ := goOn_cases step
      rfl
    | report =>
      obtain ⟨next, -, rfl⟩ := goOn_cases step
      rfl
    | decide =>
      obtain ⟨next, -, rfl⟩ := goOn_cases step
      rfl
    | deferred =>
      obtain ⟨-, subs, isSubs, rfl⟩ := deferred_cases step
      exact Machine.foldlM_singleton isSubs
    | close =>
      obtain ⟨subs, isSubs, rfl⟩ := Option.map_eq_some_iff.mp step
      exact Machine.foldlM_singleton isSubs
    | track ns ttl =>
      rw [State.act, State.track] at step
      split at step
      · cases step
      · split at step <;> cases step <;> rfl
    | tick t =>
      rw [State.act, State.tick] at step
      split at step <;> cases step
      rfl
    | subscription e =>
      obtain ⟨-, subs, isSubs, rfl⟩ := subscription_cases step
      exact Machine.foldlM_singleton isSubs

/-- Only `Close` closes the socket. -/
theorem done_of_act {s s' : Subscriptions.State} {e : Subscriptions.Event} (step : s.act e = some s')
    (other : e ≠ .close) : s'.done = s.done := by
  cases e with
  | subscribe i fresh ns limit =>
    rw [Subscriptions.State.act, Subscriptions.State.subscribe] at step
    split at step
    · cases step
    split at step
    · cases step
      rfl
    split at step
    · cases step
    obtain ⟨ensured, isEnsured, rfl⟩ := Option.map_eq_some_iff.mp step
    rw [Subscriptions.State.ensureSet] at isEnsured
    split at isEnsured
    · cases isEnsured
      rfl
    · split at isEnsured <;> cases isEnsured
      rfl
  | enter i =>
    obtain ⟨sub, -, step⟩ := Option.bind_eq_some_iff.mp step
    rw [Subscriptions.State.enter] at step
    split at step <;> cases step
    rfl
  | remove i =>
    obtain ⟨sub, -, step⟩ := Option.bind_eq_some_iff.mp step
    rw [Subscriptions.State.remove] at step
    split at step
    · cases step
    split at step <;> cases step
    split <;> rfl
  | closeChan i =>
    obtain ⟨sub, -, step⟩ := Option.bind_eq_some_iff.mp step
    rw [Subscriptions.State.closeChan] at step
    split at step
    · split at step <;> cases step <;> rfl
    · cases step
  | receive i =>
    obtain ⟨sub, -, step⟩ := Option.bind_eq_some_iff.mp step
    rw [Subscriptions.State.receive] at step
    split at step <;> cases step
    rfl
  | dispatch ns info order =>
    rw [Subscriptions.State.act, Subscriptions.State.dispatch] at step
    split at step
    · split at step <;> cases step
      rfl
    · cases step
  | send =>
    rw [Subscriptions.State.act, Subscriptions.State.send] at step
    split at step
    · obtain ⟨sub, -, rfl⟩ := Option.map_eq_some_iff.mp step
      rw [Subscriptions.State.sendTo]
      split <;> rfl
    · cases step
  | unlock =>
    rw [Subscriptions.State.act, Subscriptions.State.unlock] at step
    split at step <;> cases step
    rfl
  | release =>
    rw [Subscriptions.State.act, Subscriptions.State.release] at step
    split at step
    · cases step
      rfl
    · split at step <;> cases step
      rfl
    · cases step
  | close => exact absurd rfl other

theorem done_of_subs_step {s s' : Subscriptions.State} {e : Subscriptions.Event} (step : s.step e = some s')
    (other : e ≠ .close) : s'.done = s.done := by
  rw [Subscriptions.State.step] at step
  split at step
  · cases step
  · exact done_of_act step other

theorem done_of_subs_close {s s' : Subscriptions.State} (step : s.step .close = some s') : s'.done = true := by
  rw [Subscriptions.State.step] at step
  split at step
  · cases step
  rw [Subscriptions.State.act, Subscriptions.State.close] at step
  split at step <;> cases step
  rfl

theorem toServe_setSubs {subs : Subscriptions.State} (same : subs.done = s.subs.done) :
    (s.setSubs subs).toServe = s.toServe := by
  simp only [State.toServe, State.setSubs, same]

theorem serve_step_eq {s : Serve.State} (notPanicked : ∀ fault, s.phase ≠ .panicked fault) (e : Serve.Event) :
    s.step W svc e = s.serve W svc e := by
  rw [Serve.State.step]
  split
  next isPhase => exact absurd isPhase (notPanicked _)
  next => rfl

/-- Of a response for subscribers `serve` only learns that there is no error. -/
theorem read_of_answer {s : Serve.State} {result : Except ConnError (List UInt8 × NetAddr)} {ns : Namespace}
    {info : Subscriptions.AddrInfo} (isAnswer : answer W svc result = some (ns, info)) (sending : Sending) :
    s.read W svc result sending = .ok none := by
  rw [answer] at isAnswer
  split at isAnswer
  next => cases isAnswer
  next r addr isScan =>
    split at isAnswer
    next isWhich isNs isInfo =>
      rw [Serve.State.read, isScan]
      simp only [handle, isNs, isWhich, dispatch, isInfo]
    next => cases isAnswer

theorem foldlM_expire (W : Wire) (svc : Service) (namespaces : List Namespace) {s : Serve.State}
    (notPanicked : ∀ fault, s.phase ≠ .panicked fault) :
    (namespaces.map Serve.Event.expire).foldlM (Serve.machine W svc).step s =
      some { s with advt := s.advt.filter (· ∉ namespaces) } := by
  induction namespaces generalizing s with
  | nil => simp
  | cons ns namespaces ih =>
    have step : (Serve.machine W svc).step s (.expire ns) = some { s with advt := s.advt.filter (· ≠ ns) } :=
      serve_step_eq notPanicked _
    rw [List.map_cons, Machine.foldlM_cons step]
    refine (ih (s := ⟨s.done, s.advt.filter (· ≠ ns), s.phase⟩) notPanicked).trans ?_
    simp [List.filter_filter, Bool.and_comm]

/-- The steps of `serve` between two reads change its phase only. -/
theorem serve_eq {s next : Serve.State} {e : Serve.Event} (inner : e = .check ∨ e = .report ∨ e = .decide)
    (step : s.serve W svc e = some next) : next = { s with phase := next.phase } := by
  rcases inner with rfl | rfl | rfl
  · rw [Serve.State.serve] at step
    split at step <;> cases step
    rfl
  · rw [Serve.State.serve] at step
    split at step <;> cases step
    unfold Serve.State.afterReport
    split <;> rfl
  · rw [Serve.State.serve] at step
    split at step <;> cases step
    rfl

theorem afterRead_eq (s : Serve.State) (out : Except Fault (Option GoError)) :
    s.afterRead out = { s with phase := (s.afterRead out).phase } := by
  unfold Serve.State.afterRead
  split
  · rfl
  · rfl
  · split <;> rfl

/-- `serve` behaves in the socket as it does on its own. -/
theorem refines_serve (W : Wire) (svc : Service) (now : Int) :
    (machine W svc now).Refines (Serve.machine W svc) State.toServe passes where
  start := rfl
  step {s e s'} step := by
    obtain ⟨notPanicked, step⟩ := act_of_step step
    have single {e : Serve.Event} {next : Serve.State} (step : s.toServe.serve W svc e = some next) :
        [e].foldlM (Serve.machine W svc).step s.toServe = some next :=
      Machine.foldlM_singleton ((serve_step_eq notPanicked e).trans step)
    have inner {e : Serve.Event} (isInner : e = .check ∨ e = .report ∨ e = .decide) (step : s.goOn W svc e = some s') :
        [e].foldlM (Serve.machine W svc).step s.toServe = some s'.toServe := by
      obtain ⟨next, isNext, rfl⟩ := goOn_cases step
      rw [single isNext, serve_eq isInner isNext]
      rfl
    cases e with
    | read result sending order =>
      obtain ⟨isPhase, -, ⟨ns, info, subs, isAnswer, isSubs, rfl⟩ | ⟨-, rfl⟩⟩ := read_cases step
      · have unchanged : s.toServe.serve W svc (.read result sending) = some s.toServe := by
          rw [Serve.State.serve, show s.toServe.phase = .scanning from isPhase, read_of_answer isAnswer]
          rfl
        rw [toServe_setSubs (done_of_subs_step isSubs fun same => by cases same)]
        exact single unchanged
      · refine single ?_
        rw [Serve.State.serve, show s.toServe.phase = .scanning from isPhase, afterRead_eq]
        rfl
    | check => exact inner (.inl rfl) step
    | report => exact inner (.inr (.inl rfl)) step
    | decide => exact inner (.inr (.inr rfl)) step
    | deferred =>
      obtain ⟨isPhase, subs, isSubs, rfl⟩ := deferred_cases step
      refine single ?_
      rw [Serve.State.serve, show s.toServe.phase = .closing from isPhase, State.toServe, State.toServe,
        done_of_subs_close isSubs]
    | close =>
      obtain ⟨subs, isSubs, rfl⟩ := Option.map_eq_some_iff.mp step
      refine single ?_
      rw [Serve.State.serve, State.setSubs, State.toServe, State.toServe, done_of_subs_close isSubs]
    | track ns ttl =>
      rw [State.act, State.track] at step
      split at step
      · cases step
      split at step
      next isDone =>
        cases step
        rw [passes, if_pos isDone]
        rfl
      next isOpen =>
        cases step
        have expires : (Serve.machine W svc).step s.toServe (.expire ns) =
            some ⟨s.subs.done, s.advt.keys.filter (· ≠ ns), s.phase⟩ := serve_step_eq notPanicked _
        rw [passes, if_neg isOpen, Machine.foldlM_cons expires]
        refine Machine.foldlM_singleton ((serve_step_eq notPanicked _).trans (congrArg some ?_))
        rw [if_neg isOpen, State.toServe, Deadlines.keys_set]
    | tick t =>
      rw [State.act, State.tick] at step
      split at step <;> cases step
      refine (foldlM_expire W svc (s.advt.overdue t) notPanicked).trans ?_
      rw [State.toServe, State.toServe, Deadlines.keys_expire]
    | subscription e =>
      obtain ⟨notClose, subs, isSubs, rfl⟩ := subscription_cases step
      exact congrArg some (toServe_setSubs (done_of_subs_step isSubs notClose)).symm

end Refinement

section Delivery

variable {W : Wire} {svc : Service} {now : Int} {s : State} {events : List Event} {i : Nat}
  {sub : Subscriptions.Subscription} {ns : Namespace} {info : Subscriptions.AddrInfo}

variable (W svc) in
/-- The datagram is a response of this peer in the namespace: the key of the peer has
signed it, and the peer is not the host itself. -/
def Vouches (ns : Namespace) (info : Subscriptions.AddrInfo) (result : Except ConnError (List UInt8 × NetAddr)) : Prop :=
  ∃ datagram addr r key, result = .ok (datagram, addr) ∧
    W.consumeTypedEnvelope (datagram.take maxDatagramSize) = .ok (r, key) ∧ r.which = .response ∧ r.ns = .ok ns ∧
    r.bindInfo W = .ok info ∧ W.matchesPublicKey info.id key = true ∧ (svc.self = [] ∨ info.id ≠ svc.self)

theorem opened_of_scan {self : PeerID} {result : Except ConnError (List UInt8 × NetAddr)} {r : Record} {addr : NetAddr}
    (isScan : scan W self result = .ok (r, addr)) : ∃ datagram key, result = .ok (datagram, addr) ∧
      W.consumeTypedEnvelope (datagram.take maxDatagramSize) = .ok (r, key) ∧ basicValidator W self key r = none := by
  cases result with
  | error err => cases isScan
  | ok received =>
    obtain ⟨datagram, from'⟩ := received
    rw [scan] at isScan
    split at isScan
    next => cases isScan
    next r' key opened =>
      split at isScan
      next => cases isScan
      next valid =>
        cases isScan
        exact ⟨datagram, key, rfl, opened, valid⟩

theorem signed_of_basicValidator {self : PeerID} {key : W.PublicKey} {r : Record}
    (valid : basicValidator W self key r = none) :
    ∃ id, r.peerID W = .ok id ∧ (self = [] ∨ id ≠ self) ∧ W.matchesPublicKey id key = true := by
  rw [basicValidator] at valid
  split at valid
  next => cases valid
  next id isPeer =>
    split at valid
    next => cases valid
    next notSelf =>
      split at valid
      next signed => exact ⟨id, isPeer, not_and_or.mp notSelf |>.imp_left not_not.mp, signed⟩
      next => cases valid

theorem id_of_bindInfo {r : Record} (bound : r.bindInfo W = .ok info) : r.peerID W = .ok info.id := by
  rw [Record.bindInfo] at bound
  obtain ⟨id, isPeer, bound⟩ := Except.bind_eq_ok.mp bound
  obtain ⟨entries, -, bound⟩ := Except.bind_eq_ok.mp bound
  obtain ⟨addrs, -, bound⟩ := Except.bind_eq_ok.mp bound
  cases bound
  exact isPeer

theorem vouches_of_answer {result : Except ConnError (List UInt8 × NetAddr)}
    (isAnswer : answer W svc result = some (ns, info)) : Vouches W svc ns info result := by
  rw [answer] at isAnswer
  split at isAnswer
  next => cases isAnswer
  next r addr isScan =>
    split at isAnswer
    next isWhich isNs isInfo =>
      cases isAnswer
      obtain ⟨datagram, key, rfl, opened, valid⟩ := opened_of_scan isScan
      obtain ⟨id, isPeer, notSelf, signed⟩ := signed_of_basicValidator valid
      cases isPeer.symm.trans (id_of_bindInfo isInfo)
      exact ⟨datagram, addr, r, key, rfl, opened, isWhich, isNs, isInfo, signed, notSelf⟩
    next => cases isAnswer

variable (W svc now) in
/-- What happens to the subscriptions in a run of the socket. -/
def history (events : List Event) : List Subscriptions.Event :=
  (machine W svc now).trace (calls W svc) events

theorem answer_of_dispatch {order : List Nat} (reached : (machine W svc now).run events = some s)
    (member : .dispatch ns info order ∈ history W svc now events) :
    ∃ result sending, .read result sending order ∈ events ∧ answer W svc result = some (ns, info) := by
  obtain ⟨before, e, s₀, isBefore, -, after, emitted⟩ := Machine.mem_trace reached member
  have isEvent : e ∈ events := isBefore.subset List.mem_concat_self
  cases e with
  | read result sending order' =>
    cases isAnswer : answer W svc result with
    | none => simp [calls, isAnswer] at emitted
    | some found =>
      obtain ⟨ns', info'⟩ := found
      simp only [calls, isAnswer, List.mem_singleton, Subscriptions.Event.dispatch.injEq] at emitted
      obtain ⟨rfl, rfl, rfl⟩ := emitted
      exact ⟨result, sending, isEvent, isAnswer⟩
  | subscription e =>
    obtain ⟨s', step⟩ := after
    cases List.mem_singleton.mp emitted
    have refused : none = some s' := (act_of_step step).2
    cases refused
  | deferred => cases List.mem_singleton.mp emitted
  | close => cases List.mem_singleton.mp emitted
  | _ => cases emitted

/-- A subscriber gets authentic responses only. What it has received, with what is in its
channel and on its way there, is a subsequence of the responses that were read while it
was subscribed, and lacks exactly those that found the channel full. -/
theorem subscriber_gets_authentic (reached : (machine W svc now).run events = some s)
    (known : s.subs.subscription i = some sub) :
    Subscriptions.Accounts
        (Subscriptions.machine.trace (Subscriptions.State.takes i) (history W svc now events) ++ sub.ch.buf ++
          s.subs.server.owed i)
        (Subscriptions.machine.trace (Subscriptions.State.drops i) (history W svc now events))
        (Subscriptions.machine.trace (Subscriptions.State.offers i) (history W svc now events)) ∧
      ∀ info ∈ Subscriptions.machine.trace (Subscriptions.State.offers i) (history W svc now events),
        ∃ result sending order, .read result sending order ∈ events ∧ Vouches W svc sub.ns info result := by
  have run := (refines_subscriptions W svc now).run reached
  refine ⟨(Subscriptions.balance_run run i).known sub known, fun info member => ?_⟩
  obtain ⟨order, isDispatch⟩ := Subscriptions.dispatched_of_offered run known member
  obtain ⟨result, sending, isRead, isAnswer⟩ := answer_of_dispatch reached isDispatch
  exact ⟨result, sending, order, isRead, vouches_of_answer isAnswer⟩

/-- A response in a namespace. -/
def responseIn (ns : Namespace) : Record where
  which := .response
  ns := .ok ns
  peer := .ok [1, 2, 3, 4]
  distance := 0
  addrs := .ok []

/-- A subscriber is sent a response and receives it. -/
def oneResponse : List Event :=
  [.subscription (.subscribe 0 0 [1] 0), .read (.ok ([0], "")) Serve.delivered [0], .subscription .send,
    .subscription .unlock, .subscription .release, .subscription (.receive 0)]

theorem subscriber_gets_oneResponse :
    let W := Serve.constantWire (responseIn [1])
    let received := Subscriptions.machine.trace (Subscriptions.State.takes 0) (history W Serve.crawlService 0 oneResponse)
    let offered := Subscriptions.machine.trace (Subscriptions.State.offers 0) (history W Serve.crawlService 0 oneResponse)
    let dropped := Subscriptions.machine.trace (Subscriptions.State.drops 0) (history W Serve.crawlService 0 oneResponse)
    ∃ s sub, (machine W Serve.crawlService 0).run oneResponse = some s ∧ s.subs.subscription 0 = some sub ∧
      received = [⟨[1, 2, 3, 4], []⟩] ∧
      Subscriptions.Accounts (received ++ sub.ch.buf ++ s.subs.server.owed 0) dropped offered ∧
      ∀ info ∈ offered, ∃ result sending order, .read result sending order ∈ oneResponse ∧
        Vouches W Serve.crawlService sub.ns info result := by
  intro W received offered dropped
  have reached : (machine W Serve.crawlService 0).run oneResponse = some _ := rfl
  exact ⟨_, _, reached, rfl, rfl, subscriber_gets_authentic reached rfl⟩

end Delivery

section Tracking

variable {W : Wire} {svc : Service} {now : Int} {s s' : State} {events : List Event} {ns : Namespace}

/-- The host advertises the namespace until the deadline. -/
def Tracks (ns : Namespace) (s : State) (e : Event) (deadline : Int) : Prop :=
  ∃ ttl, e = .track ns ttl ∧ s.subs.done = false ∧ deadline = s.time + ttl

/-- The clock of the socket passes the deadline. -/
def Lapses (e : Event) (deadline : Int) : Prop :=
  ∃ t, e = .tick t ∧ deadline < t

theorem advt_of_step {e : Event} (step : s.step W svc e = some s') (notTrack : ∀ ns ttl, e ≠ .track ns ttl)
    (notTick : ∀ t, e ≠ .tick t) : s'.advt = s.advt := by
  obtain ⟨-, step⟩ := act_of_step step
  have inner {e : Serve.Event} (step : s.goOn W svc e = some s') : s'.advt = s.advt := by
    obtain ⟨next, -, rfl⟩ := goOn_cases step
    rfl
  cases e with
  | read result sending order =>
    obtain ⟨-, -, ⟨_, _, _, -, -, rfl⟩ | ⟨-, rfl⟩⟩ := read_cases step
    · rfl
    · rfl
  | check => exact inner step
  | report => exact inner step
  | decide => exact inner step
  | deferred =>
    obtain ⟨-, _, -, rfl⟩ := deferred_cases step
    rfl
  | close =>
    obtain ⟨_, -, rfl⟩ := Option.map_eq_some_iff.mp step
    rfl
  | track ns ttl => exact absurd rfl (notTrack ns ttl)
  | tick t => exact absurd rfl (notTick t)
  | subscription e =>
    obtain ⟨-, _, -, rfl⟩ := subscription_cases step
    rfl

theorem track_cases {ttl : Int} (step : s.step W svc (.track ns ttl) = some s') :
    s.subs.done = true ∧ s' = s ∨ s.subs.done = false ∧ s' = { s with advt := s.advt.set ns (s.time + ttl) } := by
  obtain ⟨-, step⟩ := act_of_step step
  rw [State.act, State.track] at step
  split at step
  · cases step
  split at step
  next isDone =>
    cases step
    exact .inl ⟨isDone, rfl⟩
  next isOpen =>
    cases step
    exact .inr ⟨Bool.eq_false_of_not_eq_true isOpen, rfl⟩

theorem tick_eq {t : Int} (step : s.step W svc (.tick t) = some s') :
    s' = { s with time := t, advt := s.advt.expire t } := by
  obtain ⟨-, step⟩ := act_of_step step
  rw [State.act, State.tick] at step
  split at step <;> cases step
  rfl

theorem register_advt (W : Wire) (svc : Service) (now : Int) (ns : Namespace) :
    (machine W svc now).Register (fun _ _ => True) (fun s => s.advt.get ns) (Tracks ns) Lapses where
  start := rfl
  written {s e s' deadline} _ step wrote := by
    obtain ⟨ttl, rfl, isOpen, rfl⟩ := wrote
    rcases track_cases step with ⟨isDone, -⟩ | ⟨-, rfl⟩
    · cases isOpen.symm.trans isDone
    · exact Deadlines.get_set_self
  kept {s e s' deadline} _ step quiet := by
    have noLapse (notTick : ∀ t, e ≠ .tick t) : ¬ Lapses e deadline := fun ⟨t, isTick, _⟩ => notTick t isTick
    cases e with
    | track ns' ttl =>
      rw [and_iff_left (noLapse nofun)]
      rcases track_cases step with ⟨-, rfl⟩ | ⟨isOpen, rfl⟩
      · rfl
      · have other : ns ≠ ns' := by
          rintro rfl
          exact quiet _ ⟨ttl, rfl, isOpen, rfl⟩
        simp only [Deadlines.get_set_of_ne other]
    | tick t =>
      rw [tick_eq step]
      simp [Deadlines.get_expire, Lapses]
    | _ =>
      rw [and_iff_left (noLapse nofun), advt_of_step step nofun nofun]

/-- A valid request is answered exactly while the host advertises its namespace: `Track`
was called before `Close`, and since the last such call the clock of the socket has not
passed the deadline, counted from the time that the clock had then. -/
theorem handled_iff_tracked (reached : (machine W svc now).run events = some s) {r : Record} (isNs : r.ns = .ok ns)
    (isRequest : r.which = .request ∨ r.which = .survey) (sending : Sending) :
    ((∃ deadline, (machine W svc now).Last (Tracks ns) Lapses events deadline) →
        handle W svc s.toServe.advt r sending = svc.handler.run W r sending) ∧
      ((¬ ∃ deadline, (machine W svc now).Last (Tracks ns) Lapses events deadline) →
        handle W svc s.toServe.advt r sending = .ok none) := by
  have isHandled : handle W svc s.toServe.advt r sending =
      if tracking s.toServe.advt ns then svc.handler.run W r sending else .ok none := by
    rw [handle, isNs]
    rcases isRequest with isWhich | isWhich
    · rw [isWhich]
    · rw [isWhich]
  have isTracked : tracking s.toServe.advt ns = true ↔
      ∃ deadline, (machine W svc now).Last (Tracks ns) Lapses events deadline := by
    have met : (machine W svc now).Throughout (fun _ _ _ => True) events := fun _ _ _ _ _ _ _ => trivial
    simp only [← (register_advt W svc now ns).read_iff met reached, ← Deadlines.mem_keys_iff]
    simp [tracking, State.toServe]
  rw [isHandled, ← isTracked]
  exact ⟨fun holds => if_pos holds, fun fails => if_neg fails⟩

/-- The host advertises the namespace for a while. -/
def oneTrack : List Event :=
  [.track [1] 5, .tick 3]

theorem handled_iff_tracked_oneTrack :
    let W := Serve.constantWire (Serve.requestIn (.ok [1]))
    ∃ s, (machine W Serve.crawlService 0).run oneTrack = some s ∧
      (machine W Serve.crawlService 0).Last (Tracks [1]) Lapses oneTrack 5 ∧
      handle W Serve.crawlService s.toServe.advt (Serve.requestIn (.ok [1])) Serve.delivered =
        Serve.crawlService.handler.run W (Serve.requestIn (.ok [1])) Serve.delivered := by
  intro W
  have reached : (machine W Serve.crawlService 0).run oneTrack = some _ := rfl
  have tracked : (machine W Serve.crawlService 0).Last (Tracks [1]) Lapses ([.track [1] 5] ++ [.tick 3]) 5 := by
    refine (Machine.last_concat rfl).mpr (.inr ⟨by simp [Tracks], ?_, by simp [Lapses]⟩)
    exact (@Machine.last_concat _ _ _ _ _ _ [] _ _ _ rfl).mpr (.inl ⟨5, rfl, rfl, rfl⟩)
  exact ⟨_, reached, tracked, (handled_iff_tracked reached rfl (.inl rfl) Serve.delivered).1 ⟨5, tracked⟩⟩

end Tracking

section Progress

variable {W : Wire} {svc : Service} {now : Int} {s s' : State} {events : List Event}

/-- The steps of `serve` between two reads, with the calls of `cancel` that it waits for. -/
def State.Own (s : State) : Event → Prop
  | .check | .report | .decide => True
  | .subscription e => s.subs.Own e
  | _ => False

variable (W svc) in
/-- `serve` goes on by its own steps. -/
abbrev Proceeds : State → State → Prop :=
  Relation.ReflTransGen fun s s' => ∃ e, s.Own e ∧ s.step W svc e = some s'

/-- The reason why the socket may have stopped. -/
def Justified (before : List Event) : Prop :=
  .close ∈ before ∨ ∃ err sending order, .read (.error err) sending order ∈ before ∧ err.fatal = true

theorem step_eq (notPanicked : ∀ fault, s.phase ≠ .panicked fault) (noPanic : s.subs.panic = none) (e : Event) :
    s.step W svc e = s.act W svc e := by
  rw [State.step]
  split
  next isPhase => exact absurd isPhase (notPanicked _)
  next => rw [noPanic, if_neg (by decide)]

theorem subscription_own {e : Subscriptions.Event} {subs : Subscriptions.State}
    (notPanicked : ∀ fault, s.phase ≠ .panicked fault) (own : s.subs.Own e) (step : s.subs.step e = some subs) :
    s.step W svc (.subscription e) = some (s.setSubs subs) := by
  have noPanic : s.subs.panic = none := by
    rw [Subscriptions.State.step] at step
    split at step
    · cases step
    next none => exact Option.not_isSome_iff_eq_none.mp none
  have notClose : e ≠ .close := by
    rintro rfl
    exact own
  have notDispatch (ns : Namespace) (info : Subscriptions.AddrInfo) (order : List Nat) : e ≠ .dispatch ns info order := by
    rintro rfl
    exact own
  rw [step_eq notPanicked noPanic, State.act, subscription_eq notClose notDispatch, step, Option.map_some]

theorem proceeds_setSubs {subs : Subscriptions.State} (notPanicked : ∀ fault, s.phase ≠ .panicked fault)
    (proceeds : Subscriptions.Proceeds s.subs subs) : Proceeds W svc s (s.setSubs subs) := by
  induction proceeds with
  | refl => exact .refl
  | tail _ last ih =>
    obtain ⟨e, own, step⟩ := last
    exact ih.tail ⟨.subscription e, own, subscription_own (s := s.setSubs _) notPanicked own step⟩

theorem healthy_run {events : List Serve.Event} {s : Serve.State} (benign : ∀ e ∈ events, Serve.Benign W svc e)
    (reached : (Serve.machine W svc).run events = some s) : Serve.Healthy events s := by
  have start : Serve.Healthy [] (Serve.machine W svc).start := by
    refine ⟨nofun, nofun, nofun, nofun, nofun⟩
  have met : (Serve.machine W svc).Throughout (fun _ _ e => Serve.Benign W svc e) events := by
    intro before e s s' isBefore _ _
    exact benign e (isBefore.subset List.mem_concat_self)
  exact Machine.always_of_throughout (Serve.machine W svc).invariant_true start
    (fun before s e s' _ healthy allowed step => healthy.step allowed step) met events s List.prefix_rfl reached

/-- What `serve` reads in a run of the socket is read in the run. -/
theorem read_of_mem_passes {result : Except ConnError (List UInt8 × NetAddr)} {sending : Sending}
    (reached : (machine W svc now).run events = some s)
    (member : .read result sending ∈ (machine W svc now).trace passes events) :
    ∃ order, .read result sending order ∈ events := by
  obtain ⟨before, e, s₀, isBefore, -, -, emitted⟩ := Machine.mem_trace reached member
  have isEvent : e ∈ events := isBefore.subset List.mem_concat_self
  cases e with
  | read result' sending' order =>
    cases List.mem_singleton.mp emitted
    exact ⟨order, isEvent⟩
  | track ns ttl =>
    rw [passes] at emitted
    split at emitted <;> simp at emitted
  | _ => simp [passes] at emitted

theorem close_of_mem_passes (reached : (machine W svc now).run events = some s)
    (member : .close ∈ (machine W svc now).trace passes events) : .close ∈ events := by
  obtain ⟨before, e, s₀, isBefore, -, -, emitted⟩ := Machine.mem_trace reached member
  have isEvent : e ∈ events := isBefore.subset List.mem_concat_self
  cases e with
  | close => exact isEvent
  | track ns ttl =>
    rw [passes] at emitted
    split at emitted <;> simp at emitted
  | _ => simp [passes] at emitted

/-- An error that can be reported and is not fatal leads back to the read. -/
theorem proceeds_of_pending {err : GoError} (noPanic : s.subs.panic = none) (isOpen : s.subs.done = false)
    (isErr : s.phase.pending = some err) (reported : ∀ done, handleError done err = .ok ())
    (goesOn : err.fatal = false) : Proceeds W svc s { s with phase := .scanning } := by
  have decides : Proceeds W svc { s with phase := .deciding err } { s with phase := .scanning } := by
    refine .single ⟨.decide, trivial, ?_⟩
    rw [step_eq (s := { s with phase := .deciding err }) (fun _ same => by cases same) noPanic]
    simp [State.act, State.goOn, State.toServe, Serve.State.serve, goesOn]
  have reports : Proceeds W svc { s with phase := .reporting err } { s with phase := .scanning } := by
    refine .head ⟨.report, trivial, ?_⟩ decides
    rw [step_eq (s := { s with phase := .reporting err }) (fun _ same => by cases same) noPanic]
    simp [State.act, State.goOn, State.toServe, Serve.State.serve, reported, Serve.State.afterReport]
  have checks : Proceeds W svc { s with phase := .failed err } { s with phase := .scanning } := by
    refine .head ⟨.check, trivial, ?_⟩ reports
    rw [step_eq (s := { s with phase := .failed err }) (fun _ same => by cases same) noPanic]
    simp [State.act, State.goOn, State.toServe, Serve.State.serve, isOpen]
  obtain ⟨time, advt, phase, subs⟩ := s
  cases phase <;> cases isErr
  · exact checks
  · exact reports
  · exact decides

/-- If the datagrams are benign, `serve` is never stuck: unless the socket is closed or
cannot be read, it neither panics nor waits for a lock or for a `cancel` for ever, and its
own steps bring it back to its read. -/
theorem serve_reads_again (benign : ∀ result sending order, .read result sending order ∈ events →
      Serve.Benign W svc (.read result sending))
    (reached : (machine W svc now).run events = some s) (running : ¬ Justified events) :
    ∃ s', Proceeds W svc s s' ∧ s'.phase = .scanning ∧ s'.subs.server = .idle := by
  have benignServe : ∀ e ∈ (machine W svc now).trace passes events, Serve.Benign W svc e := by
    rintro e member result sending rfl
    obtain ⟨order, isEvent⟩ := read_of_mem_passes reached member
    exact benign result sending order isEvent result sending rfl
  have unjustified : ¬ Serve.Justified ((machine W svc now).trace passes events) := by
    rintro (closed | ⟨err, sending, isRead, fatal⟩)
    · exact running (.inl (close_of_mem_passes reached closed))
    · obtain ⟨order, isEvent⟩ := read_of_mem_passes reached isRead
      exact running (.inr ⟨err, sending, order, isEvent, fatal⟩)
  have healthy := healthy_run benignServe ((refines_serve W svc now).run reached)
  have sane := (refines_subscriptions W svc now).invariant Subscriptions.sane_invariant reached
  have isOpen : s.subs.done = false := Bool.eq_false_of_not_eq_true fun isDone => unjustified (healthy.done isDone)
  -- first the error, if there is one, then the dispatch
  have scans : Proceeds W svc s { s with phase := .scanning } := by
    cases isErr : s.phase.pending with
    | some err =>
      refine proceeds_of_pending sane.consistent.noPanic isOpen isErr (healthy.reported err isErr) ?_
      exact Bool.eq_false_of_not_eq_true fun fatal => unjustified (healthy.fatal err isErr fatal)
    | none =>
      have isPhase : s.phase = .scanning := by
        cases isPhase : s.phase with
        | scanning => rfl
        | failed err => rw [isPhase] at isErr; cases isErr
        | reporting err => rw [isPhase] at isErr; cases isErr
        | deciding err => rw [isPhase] at isErr; cases isErr
        | closing => exact absurd (healthy.ended (by rw [State.toServe, isPhase]; rfl)) unjustified
        | returned => exact absurd (healthy.ended (by rw [State.toServe, isPhase]; rfl)) unjustified
        | panicked fault => exact absurd isPhase (healthy.noPanic fault)
      rw [← isPhase]
  obtain ⟨subs, proceeds, -, isIdle⟩ := sane.finish
  exact ⟨_, scans.trans (proceeds_setSubs (s := { s with phase := .scanning }) nofun proceeds), rfl, isIdle⟩

theorem serve_reads_again_midway :
    let W := Serve.constantWire (responseIn [1])
    ∃ s s', (machine W Serve.crawlService 0).run (oneResponse.take 2) = some s ∧
      Proceeds W Serve.crawlService s s' ∧ s'.phase = .scanning ∧ s'.subs.server = .idle := by
  intro W
  have reached : (machine W Serve.crawlService 0).run (oneResponse.take 2) = some _ := rfl
  have benign (result : Except ConnError (List UInt8 × NetAddr)) (sending : Sending) (order : List Nat)
      (member : .read result sending order ∈ oneResponse.take 2) :
      Serve.Benign W Serve.crawlService (.read result sending) := by
    rintro _ _ ⟨⟩
    refine ⟨fun datagram addr r key _ opened _ => ?_, fun err isWrite => ?_⟩
    · cases opened
      exact ⟨[1], rfl⟩
    · have isDelivered : sending = Serve.delivered := by
        simp only [oneResponse, List.take_succ_cons, List.take_zero, List.mem_cons, Event.read.injEq, reduceCtorEq,
          List.not_mem_nil, or_false, false_or] at member
        exact member.2.1
      rw [isDelivered] at isWrite
      cases isWrite
  have running : ¬ Justified (oneResponse.take 2) := by simp [Justified, oneResponse]
  obtain ⟨s', proceeds, rest⟩ := serve_reads_again benign reached running
  exact ⟨_, s', reached, proceeds, rest⟩

end Progress

end Socket

end Casm.Boot
