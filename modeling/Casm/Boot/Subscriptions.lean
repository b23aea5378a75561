import Casm.Boot.Cache

namespace Casm.Boot.Subscriptions

/-- `peer.AddrInfo`. -/
structure AddrInfo where
  id : PeerID
  addrs : List Multiaddr
  deriving DecidableEq, Repr

def sendOnClosed : Fault :=
  .panic "send on closed channel"

def closeOfClosed : Fault :=
  .panic "close of closed channel"

structure Chan where
  buf : List AddrInfo
  closed : Bool

/-- A channel of `Subscribe` has room for 16. -/
def Chan.new : Chan where
  buf := []
  closed := false

/-- A send in a select with a default case, and whether it was taken. -/
def Chan.trySend (ch : Chan) (info : AddrInfo) : Except Fault (Chan × Bool) :=
  if ch.closed then .error sendOnClosed
  else if ch.buf.length < 16 then .ok ({ ch with buf := ch.buf ++ [info] }, true)
  else .ok (ch, false)

def Chan.close (ch : Chan) : Except Fault Chan :=
  if ch.closed then .error closeOfClosed else .ok { ch with closed := true }

/-- The results that a subscription still takes, or none for a nil limiter. -/
abbrev ResultLimiter := Option Int32

def limiter (limit : Int) : ResultLimiter :=
  if 0 < limit then some (Int32.ofInt limit) else none

def ResultLimiter.decr : ResultLimiter → ResultLimiter × Bool
  | none => (none, false)
  | some remaining => (some (remaining - 1), remaining - 1 = 0)

/-- How far the one effective call of `cancel` is: not made, past `once` and before
the lock, past the lock with the channel still to be closed, or over. -/
inductive Cancel where
  | idle
  | entered
  | removed
  | returned
  deriving DecidableEq

def Cancel.pending : Cancel → Bool
  | idle | entered => true
  | removed | returned => false

/-- What `Subscribe` has made. The set is the one that its `cancel` captured. -/
structure Subscription where
  ns : Namespace
  set : Nat
  lim : ResultLimiter
  ch : Chan
  cancel : Cancel

/-- Where the goroutine of `serve` is. While it sends it holds the read lock. -/
inductive Server where
  | idle
  | sending (info : AddrInfo) (todo done : List Nat)
  | releasing (todo : List Nat)

def Server.reading : Server → Bool
  | sending .. => true
  | _ => false

def Server.todo : Server → List Nat
  | sending _ todo _ => todo
  | _ => []

/-- Subscriptions and subscriber sets are known by numbers, as pointers are. -/
structure State where
  done : Bool
  subs : Namespace → Option Nat
  sets : Nat → Option (Finset Nat)
  subscription : Nat → Option Subscription
  server : Server
  panic : Option Fault

/-- What runs under the write lock is one step. A call of `cancel` has two more: it
passes its `once` before, and closes the channel after. The numbers in `subscribe` are
those of what it allocates. -/
inductive Event where
  | subscribe (i fresh : Nat) (ns : Namespace) (limit : Int)
  | enter (i : Nat)
  | remove (i : Nat)
  | closeChan (i : Nat)
  | receive (i : Nat)
  | dispatch (ns : Namespace) (info : AddrInfo) (order : List Nat)
  | send
  | unlock
  | release
  | close

namespace State

def new : State where
  done := false
  subs _ := none
  sets _ := none
  subscription _ := none
  server := .idle
  panic := none

def members (s : State) (ss : Nat) : Finset Nat :=
  (s.sets ss).getD ∅

/-- The subscriptions that a response in the namespace is sent to. -/
def subscribers (s : State) (ns : Namespace) : Finset Nat :=
  match s.subs ns with
  | some ss => s.members ss
  | none => ∅

def setSubscription (s : State) (i : Nat) (sub : Subscription) : State :=
  { s with subscription := Function.update s.subscription i (some sub) }

def setMembers (s : State) (ss : Nat) (m : Finset Nat) : State :=
  { s with sets := Function.update s.sets ss (some m) }

/-- The set of the namespace, which is made if there is none. -/
def ensureSet (s : State) (ns : Namespace) (fresh : Nat) : Option (State × Nat) :=
  match s.subs ns with
  | some ss => some (s, ss)
  | none =>
    if (s.sets fresh).isSome then none
    else some ({ s.setMembers fresh ∅ with subs := Function.update s.subs ns (some fresh) }, fresh)

/-- `subscriberSet.Add` of a new channel. -/
def add (s : State) (i ss : Nat) (ns : Namespace) (limit : Int) : State :=
  (s.setMembers ss (insert i (s.members ss))).setSubscription i ⟨ns, ss, limiter limit, .new, .idle⟩

/-- After `Close` the caller gets a closed channel and a `cancel` that does nothing. -/
def subscribe (s : State) (i fresh : Nat) (ns : Namespace) (limit : Int) : Option State :=
  if s.server.reading then none
  else if s.done then some s
  else if (s.subscription i).isSome then none
  else (s.ensureSet ns fresh).map fun ensured => ensured.1.add i ensured.2 ns limit

/-- `once` lets one call in. -/
def enter (s : State) (i : Nat) (sub : Subscription) : Option State :=
  if sub.cancel = .idle then some (s.setSubscription i { sub with cancel := .entered }) else none

/-- The map entry goes if the captured set has become empty. -/
def remove (s : State) (i : Nat) (sub : Subscription) : Option State :=
  if s.server.reading then none
  else if sub.cancel = .entered then
    let rest := (s.members sub.set).erase i
    let s' := (s.setMembers sub.set rest).setSubscription i { sub with cancel := .removed }
    some (if rest = ∅ then { s' with subs := Function.update s.subs sub.ns none } else s')
  else none

def closeChan (s : State) (i : Nat) (sub : Subscription) : Option State :=
  if sub.cancel = .removed then
    match sub.ch.close with
    | .ok ch => some (s.setSubscription i { sub with ch := ch, cancel := .returned })
    | .error fault => some { s with panic := some fault }
  else none

def receive (s : State) (i : Nat) (sub : Subscription) : Option State :=
  match sub.ch.buf with
  | [] => none
  | _ :: rest => some (s.setSubscription i { sub with ch := { sub.ch with buf := rest } })

/-- The order is the one in which Go happens to range over the map. -/
def dispatch (s : State) (ns : Namespace) (info : AddrInfo) (order : List Nat) : Option State :=
  match s.server with
  | .idle =>
    if order.Nodup ∧ order.toFinset = s.subscribers ns then some { s with server := .sending info order [] }
    else none
  | _ => none

def sendTo (s : State) (info : AddrInfo) (i : Nat) (todo done : List Nat) (sub : Subscription) : State :=
  match sub.ch.trySend info with
  | .error fault => { s with panic := some fault }
  | .ok (_, false) => { s with server := .sending info todo done }
  | .ok (ch, true) =>
    { s.setSubscription i { sub with ch := ch, lim := sub.lim.decr.1 } with
      server := .sending info todo (if sub.lim.decr.2 then done ++ [i] else done) }

def send (s : State) : Option State :=
  match s.server with
  | .sending info (i :: todo) done => (s.subscription i).map (s.sendTo info i todo done)
  | _ => none

def unlock (s : State) : Option State :=
  match s.server with
  | .sending _ [] done => some { s with server := .releasing done }
  | _ => none

/-- The server calls each `cancel` and waits for it, whoever is in its `once`. -/
def release (s : State) : Option State :=
  match s.server with
  | .releasing [] => some { s with server := .idle }
  | .releasing (i :: todo) =>
    if (s.subscription i).any (·.cancel = .returned) then some { s with server := .releasing todo } else none
  | _ => none

def close (s : State) : Option State :=
  if s.server.reading then none else some { s with done := true }

def act (s : State) : Event → Option State
  | .subscribe i fresh ns limit => s.subscribe i fresh ns limit
  | .enter i => (s.subscription i).bind (s.enter i)
  | .remove i => (s.subscription i).bind (s.remove i)
  | .closeChan i => (s.subscription i).bind (s.closeChan i)
  | .receive i => (s.subscription i).bind (s.receive i)
  | .dispatch ns info order => s.dispatch ns info order
  | .send => s.send
  | .unlock => s.unlock
  | .release => s.release
  | .close => s.close

/-- A panic ends the program. -/
def step (s : State) (e : Event) : Option State :=
  if s.panic.isSome then none else s.act e

end State

def machine : Machine State Event where
  start := State.new
  step := State.step

/-- The subscription is in the set that is in the map under its namespace. -/
def Subscription.Listed (s : State) (i : Nat) (sub : Subscription) : Prop :=
  s.subs sub.ns = some sub.set ∧ i ∈ s.members sub.set

/-- The set of a namespace has members, all of them with a `cancel` still to come. -/
structure Occupied (s : State) (ns : Namespace) (ss : Nat) : Prop where
  nonempty : (s.members ss).Nonempty
  members : ∀ i ∈ s.members ss, ∃ sub,
    s.subscription i = some sub ∧ sub.ns = ns ∧ sub.cancel.pending = true

structure Consistent (s : State) : Prop where
  noPanic : s.panic = none
  listed : ∀ i sub, s.subscription i = some sub → sub.cancel.pending = true → sub.Listed s i
  occupied : ∀ ns ss, s.subs ns = some ss → Occupied s ns ss
  closed : ∀ i sub, s.subscription i = some sub → (sub.ch.closed = true ↔ sub.cancel = .returned)
  sending : ∀ i ∈ s.server.todo, ∃ sub, s.subscription i = some sub ∧ sub.cancel.pending = true

section Steps

variable {s s' : State} {i j ss : Nat} {sub : Subscription} {m : Finset Nat}

theorem members_setMembers_self : (s.setMembers ss m).members ss = m := by
  simp only [State.members, State.setMembers, Function.update_self, Option.getD_some]

theorem members_setMembers_of_ne {other : Nat} (ne : other ≠ ss) :
    (s.setMembers ss m).members other = s.members other := by
  simp only [State.members, State.setMembers, Function.update_of_ne ne]

/-- The map has a set under one namespace only. -/
theorem Consistent.namespace_inj (inv : Consistent s) {ns ns' : Namespace} (first : s.subs ns = some ss)
    (second : s.subs ns' = some ss) : ns = ns' := by
  obtain ⟨i, member⟩ := (inv.occupied ns ss first).nonempty
  obtain ⟨sub, known, isNs, -⟩ := (inv.occupied ns ss first).members i member
  obtain ⟨sub', known', isNs', -⟩ := (inv.occupied ns' ss second).members i member
  have same : sub = sub' := Option.some.inj (known.symm.trans known')
  rw [← isNs, ← isNs', same]

theorem Consistent.mem_subscribers (inv : Consistent s) (known : s.subscription i = some sub)
    (pending : sub.cancel.pending = true) : i ∈ s.subscribers sub.ns := by
  obtain ⟨isSet, member⟩ := inv.listed i sub known pending
  rw [State.subscribers, isSet]
  exact member

theorem Consistent.open_of_pending (inv : Consistent s) (known : s.subscription i = some sub)
    (pending : sub.cancel.pending = true) : ¬ sub.ch.closed = true := by
  intro closed
  rw [(inv.closed i sub known).mp closed] at pending
  cases pending

/-- A step that only moves one subscription on, without removing it. -/
theorem Consistent.setSubscription {sub' : Subscription} (inv : Consistent s)
    (known : s.subscription i = some sub) (ns : sub'.ns = sub.ns) (set : sub'.set = sub.set)
    (pending : sub'.cancel.pending = sub.cancel.pending)
    (closed : sub'.ch.closed = true ↔ sub'.cancel = .returned) : Consistent (s.setSubscription i sub') := by
  have moved (j : Nat) (old : Subscription) (isOld : s.subscription j = some old) :
      ∃ new, (s.setSubscription i sub').subscription j = some new ∧ new.ns = old.ns ∧
        new.cancel.pending = old.cancel.pending := by
    by_cases same : j = i
    · subst same
      cases known.symm.trans isOld
      exact ⟨sub', Function.update_self .., ns, pending⟩
    · exact ⟨old, (Function.update_of_ne same ..).trans isOld, rfl, rfl⟩
  refine ⟨inv.noPanic, fun j new isNew open' => ?_, fun ns ss isSet => ⟨(inv.occupied ns ss isSet).nonempty, ?_⟩,
    fun j new isNew => ?_, fun j member => ?_⟩
  · rcases Function.update_cases isNew with ⟨rfl, same⟩ | ⟨-, old⟩
    · cases same
      have listed := inv.listed _ sub known (pending ▸ open')
      rw [Subscription.Listed, ns, set]
      exact listed
    · exact inv.listed j new old open'
  · intro j member
    obtain ⟨old, isOld, isNs, isPending⟩ := (inv.occupied ns ss isSet).members j member
    obtain ⟨new, isNew, sameNs, samePending⟩ := moved j old isOld
    exact ⟨new, isNew, sameNs.trans isNs, samePending.trans isPending⟩
  · rcases Function.update_cases isNew with ⟨-, same⟩ | ⟨-, old⟩
    · cases same
      exact closed
    · exact inv.closed j new old
  · obtain ⟨old, isOld, isPending⟩ := inv.sending j member
    obtain ⟨new, isNew, -, samePending⟩ := moved j old isOld
    exact ⟨new, isNew, samePending.trans isPending⟩

/-- The server may go on to send to fewer. -/
theorem Consistent.setServer (inv : Consistent s) {server : Server}
    (sending : ∀ i ∈ server.todo, ∃ sub, s.subscription i = some sub ∧ sub.cancel.pending = true) :
    Consistent { s with server := server } where
  noPanic := inv.noPanic
  listed := inv.listed
  occupied ns ss isSet := ⟨(inv.occupied ns ss isSet).nonempty, (inv.occupied ns ss isSet).members⟩
  closed := inv.closed
  sending := sending

theorem Consistent.enter (inv : Consistent s) (known : s.subscription i = some sub)
    (step : s.enter i sub = some s') : Consistent s' := by
  rw [State.enter] at step
  split at step
  next idle =>
    cases step
    have isOpen := inv.open_of_pending known (by rw [idle]; rfl)
    refine inv.setSubscription known rfl rfl (by rw [idle]; rfl) ⟨fun closed => ?_, fun ended => ?_⟩
    · exact absurd closed isOpen
    · cases ended
  next => cases step

theorem Consistent.closeChan (inv : Consistent s) (known : s.subscription i = some sub)
    (step : s.closeChan i sub = some s') : Consistent s' := by
  rw [State.closeChan] at step
  split at step
  next removed =>
    have isOpen : ¬ sub.ch.closed = true := by
      rw [inv.closed i sub known, removed]
      decide
    rw [Chan.close, if_neg isOpen] at step
    cases step
    exact inv.setSubscription known rfl rfl (by rw [removed]; rfl) ⟨fun _ => rfl, fun _ => rfl⟩
  next => cases step

theorem Consistent.receive (inv : Consistent s) (known : s.subscription i = some sub)
    (step : s.receive i sub = some s') : Consistent s' := by
  rw [State.receive] at step
  split at step
  · cases step
  · cases step
    exact inv.setSubscription known rfl rfl rfl (inv.closed i sub known)

theorem Consistent.dispatch (inv : Consistent s) {ns : Namespace} {info : AddrInfo} {order : List Nat}
    (step : s.dispatch ns info order = some s') : Consistent s' := by
  rw [State.dispatch] at step
  split at step
  next =>
    split at step
    next whole =>
      cases step
      refine inv.setServer fun i member => ?_
      have isMember : i ∈ s.subscribers ns := whole.2 ▸ List.mem_toFinset.mpr member
      rw [State.subscribers] at isMember
      split at isMember
      next ss isSet =>
        obtain ⟨sub, known, -, pending⟩ := (inv.occupied ns ss isSet).members i isMember
        exact ⟨sub, known, pending⟩
      next => cases isMember
    next => cases step
  next => cases step

theorem Consistent.send (inv : Consistent s) (step : s.send = some s') : Consistent s' := by
  rw [State.send] at step
  split at step
  next info i todo done isServer =>
    obtain ⟨sub, known, result⟩ := Option.map_eq_some_iff.mp step
    have sending := inv.sending
    rw [isServer] at sending
    obtain ⟨sub', known', pending⟩ := sending i List.mem_cons_self
    cases known.symm.trans known'
    have rest : ∀ j ∈ todo, ∃ sub, s.subscription j = some sub ∧ sub.cancel.pending = true :=
      fun j member => sending j (List.mem_cons_of_mem i member)
    have isOpen := inv.open_of_pending known pending
    rw [State.sendTo, Chan.trySend, if_neg isOpen] at result
    split at result
    next fault failed =>
      split at failed
      · cases failed
      · cases failed
    next =>
      cases result
      exact inv.setServer rest
    next ch sent =>
      split at sent
      · cases sent
        cases result
        have moved : Consistent { s with
            server := .sending info todo (if sub.lim.decr.2 then done ++ [i] else done) } := inv.setServer rest
        have known' : { s with
            server := Server.sending info todo (if sub.lim.decr.2 then done ++ [i] else done) }.subscription i =
              some sub := known
        exact moved.setSubscription known' rfl rfl rfl (inv.closed i sub known)
      · cases sent
  next => cases step

theorem Consistent.unlock (inv : Consistent s) (step : s.unlock = some s') : Consistent s' := by
  rw [State.unlock] at step
  split at step
  · cases step
    exact inv.setServer fun i member => absurd member List.not_mem_nil
  · cases step

theorem Consistent.release (inv : Consistent s) (step : s.release = some s') : Consistent s' := by
  have nothing (server : Server) (idle : server.todo = []) : Consistent { s with server := server } := by
    refine inv.setServer fun i member => ?_
    rw [idle] at member
    cases member
  rw [State.release] at step
  split at step
  · cases step
    exact nothing _ rfl
  · split at step
    · cases step
      exact nothing _ rfl
    · cases step
  · cases step

theorem Consistent.close (inv : Consistent s) (step : s.close = some s') : Consistent s' := by
  rw [State.close] at step
  split at step
  · cases step
  · cases step
    refine ⟨inv.noPanic, inv.listed, fun ns ss isSet => ?_, inv.closed, inv.sending⟩
    exact ⟨(inv.occupied ns ss isSet).nonempty, (inv.occupied ns ss isSet).members⟩

/-- What a call of `Subscribe` does before `Close`. The set was the one of the
namespace already, or it is new. -/
structure Adds (s s' : State) (i ss : Nat) (ns : Namespace) (lim : ResultLimiter) : Prop where
  unknown : s.subscription i = none
  origin : s.subs ns = some ss ∨ s.subs ns = none ∧ s.members ss = ∅
  subs : s'.subs = Function.update s.subs ns (some ss)
  self : s'.members ss = insert i (s.subscribers ns)
  others : ∀ other ≠ ss, s'.members other = s.members other
  subscription : s'.subscription = Function.update s.subscription i (some ⟨ns, ss, lim, .new, .idle⟩)
  server : s'.server = s.server
  panic : s'.panic = s.panic

theorem subscribe_cases {fresh : Nat} {ns : Namespace} {limit : Int}
    (step : s.subscribe i fresh ns limit = some s') :
    s.server.reading = false ∧ (s.done = true ∧ s' = s ∨ ∃ ss, Adds s s' i ss ns (limiter limit)) := by
  rw [State.subscribe] at step
  split at step
  next => cases step
  next writing =>
    refine ⟨Bool.eq_false_of_not_eq_true writing, ?_⟩
    split at step
    next isDone =>
      cases step
      exact .inl ⟨isDone, rfl⟩
    next =>
      split at step
      next => cases step
      next unknown =>
        have unknown' : s.subscription i = none := Option.not_isSome_iff_eq_none.mp unknown
        obtain ⟨⟨middle, ss⟩, ensured, result⟩ := Option.map_eq_some_iff.mp step
        subst result
        refine .inr ⟨ss, ?_⟩
        rw [State.ensureSet] at ensured
        split at ensured
        next isSet =>
          cases ensured
          have whole : s.subscribers ns = s.members ss := by rw [State.subscribers, isSet]
          have same : Function.update s.subs ns (some ss) = s.subs := by rw [← isSet, Function.update_eq_self]
          refine ⟨unknown', .inl isSet, same.symm, ?_, fun other ne => ?_, rfl, rfl, rfl⟩
          · rw [whole]
            exact members_setMembers_self
          · exact members_setMembers_of_ne ne
        next isNone =>
          split at ensured
          next => cases ensured
          next free =>
            cases ensured
            have free' : s.sets fresh = none := Option.not_isSome_iff_eq_none.mp free
            have none : s.subscribers ns = ∅ := by rw [State.subscribers, isNone]
            have made : s.members fresh = ∅ := by rw [State.members, free', Option.getD_none]
            refine ⟨unknown', .inr ⟨isNone, made⟩, rfl, ?_, fun other ne => ?_, rfl, rfl, rfl⟩
            · have start : (s.setMembers fresh ∅).members fresh = ∅ := members_setMembers_self
              refine members_setMembers_self.trans (congrArg (insert i) ?_)
              exact start.trans none.symm
            · exact (members_setMembers_of_ne ne).trans (members_setMembers_of_ne ne)

/-- The set that is added to is not the set of another namespace. -/
theorem Adds.separate {ns other : Namespace} {lim : ResultLimiter} {ss' : Nat} (inv : Consistent s)
    (adds : Adds s s' i ss ns lim) (ne : other ≠ ns) (isSet : s.subs other = some ss') : ss' ≠ ss := by
  rintro rfl
  rcases adds.origin with own | ⟨-, empty⟩
  · exact ne (inv.namespace_inj isSet own)
  · have nonempty := (inv.occupied other ss' isSet).nonempty
    rw [empty] at nonempty
    exact Finset.not_nonempty_empty nonempty

theorem Adds.subscription_of_some {ns : Namespace} {lim : ResultLimiter} (adds : Adds s s' i ss ns lim)
    (known : s.subscription j = some sub) : s'.subscription j = some sub := by
  have other : j ≠ i := by
    rintro rfl
    cases known.symm.trans adds.unknown
  rw [adds.subscription, Function.update_of_ne other, known]

theorem Adds.subscription_cases {ns : Namespace} {lim : ResultLimiter} (adds : Adds s s' i ss ns lim)
    (known : s'.subscription j = some sub) :
    (j = i ∧ sub = ⟨ns, ss, lim, .new, .idle⟩) ∨ s.subscription j = some sub := by
  rw [adds.subscription] at known
  rcases Function.update_cases known with ⟨same, isNew⟩ | ⟨-, old⟩
  · exact .inl ⟨same, (Option.some.inj isNew).symm⟩
  · exact .inr old

theorem Adds.occupied {ns : Namespace} {lim : ResultLimiter} (inv : Consistent s) (adds : Adds s s' i ss ns lim) :
    Occupied s' ns ss := by
  refine ⟨⟨i, ?_⟩, fun j member => ?_⟩
  · rw [adds.self]
    exact Finset.mem_insert_self ..
  · rw [adds.self] at member
    rcases Finset.mem_insert.mp member with rfl | old
    · exact ⟨_, by rw [adds.subscription, Function.update_self], rfl, rfl⟩
    · rw [State.subscribers] at old
      split at old
      next isSet =>
        obtain ⟨sub, known, isNs, pending⟩ := (inv.occupied ns _ isSet).members j old
        exact ⟨sub, adds.subscription_of_some known, isNs, pending⟩
      next => exact absurd old (Finset.notMem_empty j)

theorem Adds.listed {ns : Namespace} {lim : ResultLimiter} (inv : Consistent s) (adds : Adds s s' i ss ns lim)
    (known : s.subscription j = some sub) (pending : sub.cancel.pending = true) : sub.Listed s' j := by
  obtain ⟨isSet, member⟩ := inv.listed j sub known pending
  by_cases same : sub.ns = ns
  · have own : sub.set = ss := by
      rcases adds.origin with own | ⟨isNone, -⟩
      · rw [same, own] at isSet
        exact (Option.some.inj isSet).symm
      · rw [same, isNone] at isSet
        cases isSet
    refine ⟨by rw [adds.subs, same, own, Function.update_self], ?_⟩
    rw [own, adds.self]
    exact Finset.mem_insert_of_mem (same ▸ inv.mem_subscribers known pending)
  · refine ⟨by rw [adds.subs, Function.update_of_ne same, isSet], ?_⟩
    rw [adds.others _ (adds.separate inv same isSet)]
    exact member

theorem Consistent.subscribe (inv : Consistent s) {fresh : Nat} {ns : Namespace} {limit : Int}
    (step : s.subscribe i fresh ns limit = some s') : Consistent s' := by
  obtain ⟨-, ⟨-, rfl⟩ | ⟨ss, adds⟩⟩ := subscribe_cases step
  · exact inv
  refine ⟨adds.panic.trans inv.noPanic, fun j sub known pending => ?_, fun other ss' isSet => ?_,
    fun j sub known => ?_, fun j member => ?_⟩
  · rcases adds.subscription_cases known with ⟨rfl, rfl⟩ | old
    · refine ⟨by rw [adds.subs, Function.update_self], ?_⟩
      rw [adds.self]
      exact Finset.mem_insert_self ..
    · exact adds.listed inv old pending
  · rw [adds.subs] at isSet
    rcases Function.update_cases isSet with ⟨rfl, same⟩ | ⟨ne, old⟩
    · cases same
      exact adds.occupied inv
    · have same := adds.others ss' (adds.separate inv ne old)
      refine ⟨same ▸ (inv.occupied other ss' old).nonempty, fun j member => ?_⟩
      obtain ⟨sub, known, isNs, pending⟩ := (inv.occupied other ss' old).members j (same ▸ member)
      exact ⟨sub, adds.subscription_of_some known, isNs, pending⟩
  · rcases adds.subscription_cases known with ⟨-, rfl⟩ | old
    · exact ⟨fun closed => absurd closed Bool.false_ne_true, fun ended => by cases ended⟩
    · exact inv.closed j sub old
  · rw [adds.server] at member
    obtain ⟨sub, known, pending⟩ := inv.sending j member
    exact ⟨sub, adds.subscription_of_some known, pending⟩

/-- What the locked part of `cancel` does. -/
structure Removes (s s' : State) (i : Nat) (sub : Subscription) : Prop where
  entered : sub.cancel = .entered
  idle : s.server.todo = []
  self : s'.members sub.set = (s.members sub.set).erase i
  others : ∀ other ≠ sub.set, s'.members other = s.members other
  kept : s'.members sub.set ≠ ∅ → s'.subs = s.subs
  dropped : s'.members sub.set = ∅ → s'.subs = Function.update s.subs sub.ns none
  subscription : s'.subscription = Function.update s.subscription i (some { sub with cancel := .removed })
  server : s'.server = s.server
  panic : s'.panic = s.panic

theorem remove_removes (step : s.remove i sub = some s') : Removes s s' i sub := by
  rw [State.remove] at step
  split at step
  next => cases step
  next writing =>
    have idle : s.server.todo = [] := by
      cases isServer : s.server with
      | idle => rfl
      | releasing todo => rfl
      | sending info todo done =>
        rw [isServer] at writing
        exact absurd rfl writing
    split at step
    next entered =>
      have isResult := Option.some.inj step
      have self : s'.members sub.set = (s.members sub.set).erase i := by
        rw [← isResult]
        split
        · exact members_setMembers_self
        · exact members_setMembers_self
      split at isResult
      next empty =>
        subst isResult
        refine ⟨entered, idle, self, fun other ne => ?_, fun some => ?_, fun _ => rfl, rfl, rfl, rfl⟩
        · exact members_setMembers_of_ne ne
        · exact absurd (self.trans empty) some
      next nonempty =>
        subst isResult
        refine ⟨entered, idle, self, fun other ne => ?_, fun _ => rfl, fun empty => ?_, rfl, rfl, rfl⟩
        · exact members_setMembers_of_ne ne
        · exact absurd (self.symm.trans empty) nonempty
    next => cases step

theorem Removes.subs_of_some {ns : Namespace} {ss' : Nat} (removes : Removes s s' i sub)
    (isSet : s'.subs ns = some ss') : s.subs ns = some ss' ∧ (s'.members sub.set = ∅ → ns ≠ sub.ns) := by
  by_cases empty : s'.members sub.set = ∅
  · rw [removes.dropped empty] at isSet
    rcases Function.update_cases isSet with ⟨-, same⟩ | ⟨ne, old⟩
    · cases same
    · exact ⟨old, fun _ => ne⟩
  · rw [removes.kept empty] at isSet
    exact ⟨isSet, fun isEmpty => absurd isEmpty empty⟩

theorem Removes.listed {other : Subscription} (inv : Consistent s) (removes : Removes s s' i sub)
    (listed : sub.Listed s i) (ne : j ≠ i) (known : s.subscription j = some other)
    (pending : other.cancel.pending = true) : other.Listed s' j := by
  obtain ⟨isSet, member⟩ := inv.listed j other known pending
  by_cases same : other.set = sub.set
  · have stays : j ∈ s'.members other.set := by
      rw [same, removes.self]
      exact Finset.mem_erase.mpr ⟨ne, same ▸ member⟩
    have nonempty : s'.members sub.set ≠ ∅ := Finset.ne_empty_of_mem (same ▸ stays)
    exact ⟨by rw [removes.kept nonempty, isSet], stays⟩
  · refine ⟨?_, by rw [removes.others _ same]; exact member⟩
    by_cases empty : s'.members sub.set = ∅
    · have apart : other.ns ≠ sub.ns := by
        intro sameNs
        rw [sameNs, listed.1] at isSet
        exact same (Option.some.inj isSet).symm
      rw [removes.dropped empty, Function.update_of_ne apart, isSet]
    · rw [removes.kept empty, isSet]

theorem Removes.occupied {ns : Namespace} {ss' : Nat} (inv : Consistent s) (removes : Removes s s' i sub)
    (known : s.subscription i = some sub) (listed : sub.Listed s i) (isSet : s'.subs ns = some ss') :
    Occupied s' ns ss' := by
  obtain ⟨old, notDropped⟩ := removes.subs_of_some isSet
  have before := inv.occupied ns ss' old
  have unmoved (j : Nat) (ne : j ≠ i) : s'.subscription j = s.subscription j := by
    rw [removes.subscription, Function.update_of_ne ne]
  by_cases same : ss' = sub.set
  · subst same
    have isNs : ns = sub.ns := inv.namespace_inj old listed.1
    refine ⟨Finset.nonempty_iff_ne_empty.mpr fun empty => notDropped empty isNs, fun j member => ?_⟩
    rw [removes.self] at member
    obtain ⟨ne, isMember⟩ := Finset.mem_erase.mp member
    obtain ⟨other, isOther, rest⟩ := before.members j isMember
    exact ⟨other, (unmoved j ne).trans isOther, rest⟩
  · have others := removes.others ss' same
    refine ⟨others ▸ before.nonempty, fun j member => ?_⟩
    obtain ⟨other, isOther, isNs, pending⟩ := before.members j (others ▸ member)
    have ne : j ≠ i := by
      rintro rfl
      cases known.symm.trans isOther
      rw [← isNs, listed.1] at old
      exact same (Option.some.inj old).symm
    exact ⟨other, (unmoved j ne).trans isOther, isNs, pending⟩

theorem Consistent.remove (inv : Consistent s) (known : s.subscription i = some sub)
    (step : s.remove i sub = some s') : Consistent s' := by
  have removes := remove_removes step
  have listed := inv.listed i sub known (by rw [removes.entered]; rfl)
  refine ⟨removes.panic.trans inv.noPanic, fun j other isOther pending => ?_,
    fun ns ss' isSet => removes.occupied inv known listed isSet, fun j other isOther => ?_, fun j member => ?_⟩
  · rw [removes.subscription] at isOther
    rcases Function.update_cases isOther with ⟨-, same⟩ | ⟨ne, old⟩
    · cases same
      cases pending
    · exact removes.listed inv listed ne old pending
  · rw [removes.subscription] at isOther
    rcases Function.update_cases isOther with ⟨-, same⟩ | ⟨-, old⟩
    · cases same
      have isOpen := inv.open_of_pending known (by rw [removes.entered]; rfl)
      exact ⟨fun closed => absurd closed isOpen, fun ended => by cases ended⟩
    · exact inv.closed j other old
  · rw [removes.server, removes.idle] at member
    cases member

end Steps

theorem consistent_invariant : machine.Invariant Consistent where
  start := by
    refine ⟨rfl, fun i sub known => ?_, fun ns ss isSet => ?_, fun i sub known => ?_, fun i member => ?_⟩
    · cases known
    · cases isSet
    · cases known
    · cases member
  step s e s' inv step := by
    have going : ¬ s.panic.isSome = true := by
      rw [inv.noPanic]
      decide
    change s.step e = some s' at step
    rw [State.step, if_neg going] at step
    cases e with
    | subscribe i fresh ns limit => exact inv.subscribe step
    | enter i =>
      obtain ⟨sub, known, step⟩ := Option.bind_eq_some_iff.mp step
      exact inv.enter known step
    | remove i =>
      obtain ⟨sub, known, step⟩ := Option.bind_eq_some_iff.mp step
      exact inv.remove known step
    | closeChan i =>
      obtain ⟨sub, known, step⟩ := Option.bind_eq_some_iff.mp step
      exact inv.closeChan known step
    | receive i =>
      obtain ⟨sub, known, step⟩ := Option.bind_eq_some_iff.mp step
      exact inv.receive known step
    | dispatch ns info order => exact inv.dispatch step
    | send => exact inv.send step
    | unlock => exact inv.unlock step
    | release => exact inv.release step
    | close => exact inv.close step

/-- What a step does to the subscriptions and to the server. A step that panics on a
closed channel leaves them as they are. -/
inductive Effect (s : State) : Event → (Nat → Option Subscription) → Server → Prop
  | subscribeDone {i fresh : Nat} {ns : Namespace} {limit : Int} :
      Effect s (.subscribe i fresh ns limit) s.subscription s.server
  | subscribe {i fresh : Nat} {ns : Namespace} {limit : Int} (ss : Nat) : s.subscription i = none →
      Effect s (.subscribe i fresh ns limit)
        (Function.update s.subscription i (some ⟨ns, ss, limiter limit, .new, .idle⟩)) s.server
  | enter {i : Nat} {sub : Subscription} : s.subscription i = some sub → sub.cancel = .idle →
      Effect s (.enter i) (Function.update s.subscription i (some { sub with cancel := .entered })) s.server
  | remove {i : Nat} {sub : Subscription} : s.subscription i = some sub → sub.cancel = .entered →
      Effect s (.remove i) (Function.update s.subscription i (some { sub with cancel := .removed })) s.server
  | closeChan {i : Nat} {sub : Subscription} : s.subscription i = some sub → sub.cancel = .removed →
      Effect s (.closeChan i) (Function.update s.subscription i
        (some { sub with ch := { sub.ch with closed := true }, cancel := .returned })) s.server
  | closeClosed {i : Nat} : Effect s (.closeChan i) s.subscription s.server
  | receive {i : Nat} {sub : Subscription} {info : AddrInfo} {rest : List AddrInfo} :
      s.subscription i = some sub → sub.ch.buf = info :: rest →
      Effect s (.receive i)
        (Function.update s.subscription i (some { sub with ch := { sub.ch with buf := rest } })) s.server
  | dispatch {ns : Namespace} {info : AddrInfo} {order : List Nat} : s.server = .idle → order.Nodup →
      order.toFinset = s.subscribers ns → Effect s (.dispatch ns info order) s.subscription (.sending info order [])
  | sendClosed {info : AddrInfo} {i : Nat} {todo done : List Nat} {sub : Subscription} :
      s.server = .sending info (i :: todo) done → s.subscription i = some sub → sub.ch.closed = true →
      Effect s .send s.subscription s.server
  | sendFull {info : AddrInfo} {i : Nat} {todo done : List Nat} {sub : Subscription} :
      s.server = .sending info (i :: todo) done → s.subscription i = some sub → ¬ sub.ch.closed = true →
      ¬ sub.ch.buf.length < 16 → Effect s .send s.subscription (.sending info todo done)
  | sendRoom {info : AddrInfo} {i : Nat} {todo done : List Nat} {sub : Subscription} :
      s.server = .sending info (i :: todo) done → s.subscription i = some sub → ¬ sub.ch.closed = true →
      sub.ch.buf.length < 16 →
      Effect s .send (Function.update s.subscription i
          (some { sub with ch := { sub.ch with buf := sub.ch.buf ++ [info] }, lim := sub.lim.decr.1 }))
        (.sending info todo (if sub.lim.decr.2 then done ++ [i] else done))
  | unlock {info : AddrInfo} {done : List Nat} : s.server = .sending info [] done →
      Effect s .unlock s.subscription (.releasing done)
  | idle : s.server = .releasing [] → Effect s .release s.subscription .idle
  | release {i : Nat} {todo : List Nat} : s.server = .releasing (i :: todo) →
      (s.subscription i).any (·.cancel = .returned) = true → Effect s .release s.subscription (.releasing todo)
  | close : Effect s .close s.subscription s.server

section Effects

variable {s s' : State}

theorem effect_subscribe {i fresh : Nat} {ns : Namespace} {limit : Int}
    (step : s.subscribe i fresh ns limit = some s') :
    Effect s (.subscribe i fresh ns limit) s'.subscription s'.server := by
  obtain ⟨-, ⟨-, rfl⟩ | ⟨ss, adds⟩⟩ := subscribe_cases step
  · exact .subscribeDone
  · rw [adds.subscription, adds.server]
    exact .subscribe ss adds.unknown

theorem effect_enter {i : Nat} {sub : Subscription} (known : s.subscription i = some sub)
    (step : s.enter i sub = some s') : Effect s (.enter i) s'.subscription s'.server := by
  rw [State.enter] at step
  split at step
  next idle =>
    cases step
    exact .enter known idle
  next => cases step

theorem effect_remove {i : Nat} {sub : Subscription} (known : s.subscription i = some sub)
    (step : s.remove i sub = some s') : Effect s (.remove i) s'.subscription s'.server := by
  have removes := remove_removes step
  rw [removes.subscription, removes.server]
  exact .remove known removes.entered

theorem effect_closeChan {i : Nat} {sub : Subscription} (known : s.subscription i = some sub)
    (step : s.closeChan i sub = some s') : Effect s (.closeChan i) s'.subscription s'.server := by
  rw [State.closeChan] at step
  split at step
  next removed =>
    by_cases closed : sub.ch.closed = true
    · rw [Chan.close, if_pos closed] at step
      cases step
      exact .closeClosed
    · rw [Chan.close, if_neg closed] at step
      cases step
      exact .closeChan known removed
  next => cases step

theorem effect_receive {i : Nat} {sub : Subscription} (known : s.subscription i = some sub)
    (step : s.receive i sub = some s') : Effect s (.receive i) s'.subscription s'.server := by
  rw [State.receive] at step
  split at step
  next => cases step
  next isBuf =>
    cases step
    exact .receive known isBuf

theorem effect_dispatch {ns : Namespace} {info : AddrInfo} {order : List Nat}
    (step : s.dispatch ns info order = some s') : Effect s (.dispatch ns info order) s'.subscription s'.server := by
  rw [State.dispatch] at step
  split at step
  next isServer =>
    split at step
    next whole =>
      cases step
      exact .dispatch isServer whole.1 whole.2
    next => cases step
  next => cases step

theorem effect_send (step : s.send = some s') : Effect s .send s'.subscription s'.server := by
  rw [State.send] at step
  split at step
  next info i todo done isServer =>
    obtain ⟨sub, known, result⟩ := Option.map_eq_some_iff.mp step
    rw [State.sendTo, Chan.trySend] at result
    by_cases closed : sub.ch.closed = true
    · rw [if_pos closed] at result
      cases result
      exact .sendClosed isServer known closed
    · rw [if_neg closed] at result
      by_cases room : sub.ch.buf.length < 16
      · rw [if_pos room] at result
        cases result
        exact .sendRoom isServer known closed room
      · rw [if_neg room] at result
        cases result
        exact .sendFull isServer known closed room
  next => cases step

theorem effect_unlock (step : s.unlock = some s') : Effect s .unlock s'.subscription s'.server := by
  rw [State.unlock] at step
  split at step
  next isServer =>
    cases step
    exact .unlock isServer
  next => cases step

theorem effect_release (step : s.release = some s') : Effect s .release s'.subscription s'.server := by
  rw [State.release] at step
  split at step
  next isServer =>
    cases step
    exact .idle isServer
  next isServer =>
    split at step
    next isOver =>
      cases step
      exact .release isServer isOver
    next => cases step
  next => cases step

theorem effect_close (step : s.close = some s') : Effect s .close s'.subscription s'.server := by
  rw [State.close] at step
  split at step
  · cases step
  · cases step
    exact .close

theorem effect_of_step {e : Event} (step : s.step e = some s') : Effect s e s'.subscription s'.server := by
  rw [State.step] at step
  split at step
  · cases step
  cases e with
  | subscribe i fresh ns limit => exact effect_subscribe step
  | enter i =>
    obtain ⟨sub, known, step⟩ := Option.bind_eq_some_iff.mp step
    exact effect_enter known step
  | remove i =>
    obtain ⟨sub, known, step⟩ := Option.bind_eq_some_iff.mp step
    exact effect_remove known step
  | closeChan i =>
    obtain ⟨sub, known, step⟩ := Option.bind_eq_some_iff.mp step
    exact effect_closeChan known step
  | receive i =>
    obtain ⟨sub, known, step⟩ := Option.bind_eq_some_iff.mp step
    exact effect_receive known step
  | dispatch ns info order => exact effect_dispatch step
  | send => exact effect_send step
  | unlock => exact effect_unlock step
  | release => exact effect_release step
  | close => exact effect_close step

end Effects

/-- However the calls are interleaved, no goroutine panics on a channel; a subscription
stays in the set of its namespace until its `cancel` has the lock, so that every response
in between is sent to it; and no set in the map is empty. -/
theorem subscriptions_safe {events : List Event} {s : State} (reached : machine.run events = some s) :
    s.panic = none ∧
      (∀ i sub, s.subscription i = some sub → sub.cancel.pending = true → i ∈ s.subscribers sub.ns) ∧
      (∀ ns ss, s.subs ns = some ss → (s.members ss).Nonempty) ∧
      ∀ ns info order s', s.step (.dispatch ns info order) = some s' →
        ∀ i sub, s.subscription i = some sub → sub.ns = ns → sub.cancel.pending = true → i ∈ order := by
  have inv := consistent_invariant.run reached
  refine ⟨inv.noPanic, fun i sub => inv.mem_subscribers, ?_, ?_⟩
  · exact fun ns ss isSet => (inv.occupied ns ss isSet).nonempty
  intro ns info order s' step i sub known isNs pending
  rw [State.step, if_neg (by rw [inv.noPanic]; decide), State.act, State.dispatch] at step
  split at step
  next =>
    split at step
    next whole =>
      have member := inv.mem_subscribers known pending
      rw [isNs, ← whole.2] at member
      exact List.mem_toFinset.mp member
    next => cases step
  next => cases step

/-- Two subscriptions in one namespace. The first has had its last response and is
cancelled by the server; when the other is cancelled too, the set leaves the map. -/
def exhausted : List Event :=
  [.subscribe 0 0 [1] 1, .subscribe 1 1 [1] 0, .dispatch [1] ⟨[7], []⟩ [1, 0], .send, .send, .unlock,
    .enter 0, .remove 0, .subscribe 2 1 [2] 0, .closeChan 0, .release, .enter 1, .remove 1, .close]

theorem subscriptions_safe_exhausted :
    ∃ s, machine.run exhausted = some s ∧ s.panic = none ∧
      ∀ ns ss, s.subs ns = some ss → (s.members ss).Nonempty := by
  have runs : (machine.run exhausted).isSome = true := rfl
  obtain ⟨s, run⟩ := Option.isSome_iff_exists.mp runs
  exact ⟨s, run, (subscriptions_safe run).1, (subscriptions_safe run).2.2.1⟩

example : (machine.run exhausted).map (fun s => (s.subs [1], s.subs [2])) = some (none, some 1) := rfl

end Casm.Boot.Subscriptions
