import Casm.Boot.Subscriptions

namespace Casm.Boot.Subscriptions

/-- The responses in the namespace of a subscription since it was made: those that
found room in its channel, and those that were delivered. -/
structure Tally where
  found : Nat
  delivered : Nat

/-- The send that is made goes to the subscription, and finds room. -/
def State.delivers (s : State) (i : Nat) : Event → Bool
  | .send =>
    match s.server with
    | .sending _ (j :: _) _ => j = i && (s.subscription i).any fun sub => !sub.ch.closed && sub.ch.buf.length < 16
    | _ => false
  | _ => false

/-- The response is not sent to the subscription, although there is room. -/
def State.passes (s : State) (i : Nat) (ns : Namespace) : Event → Bool
  | .dispatch ns' _ order => ns' = ns && !order.contains i && (s.subscription i).any fun sub => sub.ch.buf.length < 16
  | _ => false

def Tally.step (t : Tally) (s : State) (i : Nat) (ns : Namespace) (e : Event) : Tally where
  found := t.found + (s.delivers i e).toNat + (s.passes i ns e).toNat
  delivered := t.delivered + (s.delivers i e).toNat

/-- The socket from a state on, with the tally of a subscription. -/
def watch (i : Nat) (ns : Namespace) (s : State) : Machine (State × Tally) Event where
  start := (s, ⟨0, 0⟩)
  step w e := (w.1.step e).map fun s' => (s', w.2.step w.1 i ns e)

/-- The subscription gets as many peers as found room, up to its limit. Its channel
is open until it has as many as that, and closed when the dispatch is over that
delivered the last one. Without a limit it stays open. -/
def Exact (i : Nat) (limit : Int) (w : State × Tally) : Prop :=
  ∃ sub, w.1.subscription i = some sub ∧ (0 < limit → (w.2.delivered : Int) = min limit w.2.found) ∧
    ((0 < limit → w.2.delivered < limit) → sub.ch.closed = false) ∧
    (0 < limit → w.2.delivered = limit → w.1.server = .idle → sub.ch.closed = true)

/-- Only the server calls `cancel`. -/
def OwnerKeeps (i : Nat) (s : State) (e : Event) : Prop :=
  e = .enter i → ∃ todo, s.server = .releasing (i :: todo)

/-- The limit is exact for every subscription that is made with it and that its owner
does not cancel, in every run. -/
def LimitExact (limit : Int) : Prop :=
  ∀ before s s' i fresh ns events, machine.run before = some s → s.done = false →
    s.step (.subscribe i fresh ns limit) = some s' →
    (watch i ns s').Throughout (fun _ w e => OwnerKeeps i w.1 e) events →
    (watch i ns s').Always (fun _ w => Exact i limit w) events

/-- The subscriptions that the server has yet to cancel. -/
def Server.scheduled : Server → List Nat
  | idle => []
  | sending _ _ done => done
  | releasing todo => todo

/-- The number of deliveries after which a limit is reached, in 32 bits. -/
structure Reached (limit : Int) (n : Nat) : Prop where
  positive : 0 < n
  le : (n : Int) ≤ limit
  wraps : (limit - n) % 2 ^ 32 = 0
  small : n ≤ 2 ^ 32

theorem ofInt_sub_one (x : Int) : Int32.ofInt x - 1 = Int32.ofInt (x - 1) := by
  rw [Int32.ofInt_sub]
  rfl

theorem ofInt_eq_zero_iff (x : Int) : Int32.ofInt x = 0 ↔ x % 2 ^ 32 = 0 := by
  rw [← Int32.toInt_inj, Int32.toInt_ofInt, Int32.toInt_zero, Int.bmod]
  simp only [Int32.size]
  split <;> omega

theorem limiter_decr_of_nonpos {limit : Int} (unlimited : limit ≤ 0) : (limiter limit).decr = (none, false) := by
  rw [limiter, if_neg (by omega)]
  rfl

theorem limiter_decr_of_pos {limit : Int} (limited : 0 < limit) :
    (limiter limit).decr = (some (Int32.ofInt (limit - 1)), decide ((limit - 1) % 2 ^ 32 = 0)) := by
  rw [limiter, if_pos limited, ResultLimiter.decr, ofInt_sub_one]
  simp only [ofInt_eq_zero_iff]

/-- A delivery that is not the last leaves the limiter of the rest. -/
theorem decr_of_more {limit : Int} {n k : Nat} (reached : 0 < limit → Reached limit n)
    (more : 0 < limit → k + 1 < n) :
    (limiter (limit - k)).decr = (limiter (limit - (k + 1 : Nat)), false) := by
  by_cases limited : 0 < limit
  · obtain ⟨-, le, wraps, small⟩ := reached limited
    have less := more limited
    have notZero : ¬ (limit - k - 1) % 2 ^ 32 = 0 := by omega
    rw [limiter_decr_of_pos (by omega), decide_eq_false notZero, limiter, if_pos (by omega)]
    congr 3
    omega
  · rw [limiter_decr_of_nonpos (by omega), limiter, if_neg (by omega)]

theorem decr_of_last {limit : Int} {n k : Nat} (reached : Reached limit n) (last : k + 1 = n) :
    (limiter (limit - k)).decr.2 = true := by
  obtain ⟨-, le, wraps, -⟩ := reached
  rw [limiter_decr_of_pos (by omega)]
  exact decide_eq_true (by omega)

/-- What a step does to a subscription and the server. -/
inductive Change (i : Nat) (s : State) (sub : Subscription) : Event → Subscription → Server → Prop
  | quiet {e : Event} (buf : List AddrInfo) : s.delivers i e = false → (∀ ns, s.passes i ns e = false) →
      Change i s sub e { sub with ch := { sub.ch with buf := buf } } s.server
  | enter : sub.cancel = .idle → Change i s sub (.enter i) { sub with cancel := .entered } s.server
  | remove : sub.cancel = .entered → Change i s sub (.remove i) { sub with cancel := .removed } s.server
  | closeChan (ch : Chan) : sub.cancel = .removed →
      Change i s sub (.closeChan i) { sub with ch := ch, cancel := .returned } s.server
  | dispatch {ns : Namespace} {info : AddrInfo} {order : List Nat} : s.server = .idle → order.Nodup →
      (i ∈ order ↔ i ∈ s.subscribers ns) →
      Change i s sub (.dispatch ns info order) sub (.sending info order [])
  | sendOther {info : AddrInfo} {j : Nat} {todo done : List Nat} (done' : List Nat) :
      s.server = .sending info (j :: todo) done → j ≠ i → (i ∈ done' ↔ i ∈ done) →
      Change i s sub .send sub (.sending info todo done')
  | sendFull {info : AddrInfo} {todo done : List Nat} : s.server = .sending info (i :: todo) done →
      s.delivers i .send = false → Change i s sub .send sub (.sending info todo done)
  | sendRoom {info : AddrInfo} {todo done : List Nat} (ch : Chan) : s.server = .sending info (i :: todo) done →
      s.delivers i .send = true → Change i s sub .send { sub with ch := ch, lim := sub.lim.decr.1 }
        (.sending info todo (if sub.lim.decr.2 then done ++ [i] else done))
  | unlock {info : AddrInfo} {done : List Nat} : s.server = .sending info [] done →
      Change i s sub .unlock sub (.releasing done)
  | idle : s.server = .releasing [] → Change i s sub .release sub .idle
  | release {j : Nat} {todo : List Nat} : s.server = .releasing (j :: todo) → (j = i → sub.cancel = .returned) →
      Change i s sub .release sub (.releasing todo)

def Changes (i : Nat) (s s' : State) (sub : Subscription) (e : Event) : Prop :=
  ∃ sub', s'.subscription i = some sub' ∧ Change i s sub e sub' s'.server

section Change

variable {s s' : State} {i : Nat} {sub : Subscription} {e : Event}

/-- A step that sets another subscription or none, and leaves the server alone. -/
theorem Changes.of_same (known : s.subscription i = some sub) (delivers : s.delivers i e = false)
    (passes : ∀ ns, s.passes i ns e = false) (same : s'.subscription i = s.subscription i)
    (server : s'.server = s.server) : Changes i s s' sub e :=
  ⟨sub, same.trans known, server ▸ .quiet sub.ch.buf delivers passes⟩

/-- Where the server is about to send to a subscription, it is open. -/
theorem Consistent.open_of_sending (inv : Consistent s) {info : AddrInfo} {j : Nat} {todo done : List Nat}
    (isServer : s.server = .sending info (j :: todo) done) (known : s.subscription j = some sub) :
    ¬ sub.ch.closed = true := by
  have sending := inv.sending
  rw [isServer] at sending
  obtain ⟨sub', known', pending⟩ := sending j List.mem_cons_self
  cases known.symm.trans known'
  exact inv.open_of_pending known pending

theorem delivers_send {info : AddrInfo} {todo done : List Nat} (isServer : s.server = .sending info (i :: todo) done)
    (known : s.subscription i = some sub) (isOpen : ¬ sub.ch.closed = true) :
    s.delivers i .send = decide (sub.ch.buf.length < 16) := by
  rw [State.delivers, isServer, known]
  simp [isOpen]

/-- Every step, as a subscription sees it. -/
theorem Consistent.change (inv : Consistent s) (known : s.subscription i = some sub) (step : s.step e = some s') :
    Changes i s s' sub e := by
  have effect := effect_of_step step
  unfold Changes
  generalize s'.subscription = subscription, s'.server = server at effect ⊢
  -- a step that sets a subscription is about this one or about another
  have set {j : Nat} {old new : Subscription} (isOld : s.subscription j = some old)
      (own : j = i → sub = old → Change i s sub e new s.server)
      (delivers : s.delivers i e = false) (passes : ∀ ns, s.passes i ns e = false) :
      ∃ sub', Function.update s.subscription j (some new) i = some sub' ∧ Change i s sub e sub' s.server := by
    by_cases same : j = i
    · subst same
      exact ⟨new, Function.update_self .., own rfl (Option.some.inj (known.symm.trans isOld))⟩
    · exact ⟨sub, (Function.update_of_ne (Ne.symm same) ..).trans known, .quiet sub.ch.buf delivers passes⟩
  cases effect with
  | subscribeDone => exact ⟨sub, known, .quiet sub.ch.buf rfl fun _ => rfl⟩
  | @subscribe j _ _ _ ss unknown =>
    have other : i ≠ j := by
      rintro rfl
      cases known.symm.trans unknown
    exact ⟨sub, (Function.update_of_ne other ..).trans known, .quiet sub.ch.buf rfl fun _ => rfl⟩
  | enter isOld idle =>
    refine set isOld (fun own same => ?_) rfl fun _ => rfl
    subst own same
    exact .enter idle
  | remove isOld entered =>
    refine set isOld (fun own same => ?_) rfl fun _ => rfl
    subst own same
    exact .remove entered
  | closeChan isOld removed =>
    refine set isOld (fun own same => ?_) rfl fun _ => rfl
    subst own same
    exact .closeChan _ removed
  | closeClosed => exact ⟨sub, known, .quiet sub.ch.buf rfl fun _ => rfl⟩
  | receive isOld isBuf =>
    refine set isOld (fun own same => ?_) rfl fun _ => rfl
    subst same
    exact .quiet _ rfl fun _ => rfl
  | dispatch isServer nodup whole =>
    refine ⟨sub, known, .dispatch isServer nodup ?_⟩
    rw [← whole, List.mem_toFinset]
  | sendClosed isServer isOther closed => exact absurd closed (inv.open_of_sending isServer isOther)
  | @sendFull _ j _ done _ isServer isOther isOpen full =>
    refine ⟨sub, known, ?_⟩
    by_cases own : j = i
    · subst own
      refine .sendFull isServer ?_
      rw [delivers_send isServer isOther isOpen, decide_eq_false full]
    · exact .sendOther done isServer own Iff.rfl
  | @sendRoom _ j _ _ _ isServer isOther isOpen room =>
    by_cases own : j = i
    · subst own
      cases known.symm.trans isOther
      refine ⟨_, Function.update_self .., .sendRoom _ isServer ?_⟩
      rw [delivers_send isServer known isOpen, decide_eq_true room]
    · refine ⟨sub, (Function.update_of_ne (Ne.symm own) ..).trans known, .sendOther _ isServer own ?_⟩
      split
      · simp only [List.mem_append, List.mem_singleton, Ne.symm own, or_false]
      · exact Iff.rfl
  | unlock isServer => exact ⟨sub, known, .unlock isServer⟩
  | idle isServer => exact ⟨sub, known, .idle isServer⟩
  | release isServer isOver =>
    refine ⟨sub, known, .release isServer fun own => ?_⟩
    rw [own, known] at isOver
    simpa using isOver
  | close => exact ⟨sub, known, .quiet sub.ch.buf rfl fun _ => rfl⟩

end Change

/-- The subscription has deliveries to come. -/
structure Active (i : Nat) (limit : Int) (n : Nat) (server : Server) (t : Tally) (sub : Subscription) : Prop where
  cancel : sub.cancel = .idle
  unscheduled : i ∉ server.scheduled
  lim : sub.lim = limiter (limit - t.delivered)
  fewer : 0 < limit → t.delivered < n
  found : t.found = t.delivered

/-- The subscription has had its last delivery, and the server cancels it. -/
structure Finished (i : Nat) (limit : Int) (n : Nat) (server : Server) (t : Tally) (sub : Subscription) : Prop where
  limited : 0 < limit
  delivered : t.delivered = n
  found : n ≤ t.found
  released : i ∈ server.scheduled ∧ i ∉ server.todo ∨ sub.cancel = .returned

structure Counting (i : Nat) (ns : Namespace) (limit : Int) (n : Nat) (w : State × Tally) : Prop where
  consistent : Consistent w.1
  nodup : w.1.server.todo.Nodup
  phase : ∃ sub, w.1.subscription i = some sub ∧ sub.ns = ns ∧
    (Active i limit n w.1.server w.2 sub ∨ Finished i limit n w.1.server w.2 sub)

section Phases

variable {s s' : State} {i n : Nat} {ns : Namespace} {limit : Int} {sub sub' : Subscription} {e : Event}
  {t : Tally} {server : Server}

theorem Tally.step_eq (delivers : s.delivers i e = false) (passes : s.passes i ns e = false) : t.step s i ns e = t := by
  rw [Tally.step, delivers, passes]
  rfl

theorem Change.nodup (change : Change i s sub e sub' server) (nodup : s.server.todo.Nodup) : server.todo.Nodup := by
  cases change with
  | quiet _ _ _ => exact nodup
  | enter _ => exact nodup
  | remove _ => exact nodup
  | closeChan _ _ => exact nodup
  | dispatch _ orderNodup _ => exact orderNodup
  | sendOther _ isServer _ _ =>
    rw [isServer] at nodup
    exact (List.nodup_cons.mp nodup).2
  | sendFull isServer _ =>
    rw [isServer] at nodup
    exact (List.nodup_cons.mp nodup).2
  | sendRoom _ isServer _ =>
    rw [isServer] at nodup
    exact (List.nodup_cons.mp nodup).2
  | unlock _ => exact List.nodup_nil
  | idle _ => exact List.nodup_nil
  | release _ _ => exact List.nodup_nil

theorem Change.ns_eq (change : Change i s sub e sub' server) : sub'.ns = sub.ns := by
  cases change <;> rfl

theorem delivers_of_ne {info : AddrInfo} {j : Nat} {todo done : List Nat}
    (isServer : s.server = .sending info (j :: todo) done) (other : j ≠ i) : s.delivers i .send = false := by
  rw [State.delivers, isServer]
  simp only [other, decide_false, Bool.false_and]

theorem passes_of_mem {ns' : Namespace} {info : AddrInfo} {order : List Nat} (member : ns' = ns → i ∈ order) :
    s.passes i ns (.dispatch ns' info order) = false := by
  rw [State.passes]
  by_cases same : ns' = ns
  · simp only [List.contains_eq_mem, decide_eq_true (member same), Bool.not_true, Bool.and_false, Bool.false_and]
  · simp only [same, decide_false, Bool.false_and]

/-- The last delivery schedules the `cancel`; any other leaves the limiter of the rest. -/
theorem Active.delivery (active : Active i limit n s.server t sub) (reached : 0 < limit → Reached limit n)
    {info : AddrInfo} {todo done : List Nat} (isServer : s.server = .sending info (i :: todo) done)
    (nodup : s.server.todo.Nodup) (ch : Chan) (delivers : s.delivers i .send = true) :
    let server := .sending info todo (if sub.lim.decr.2 then done ++ [i] else done)
    let sub' := { sub with ch := ch, lim := sub.lim.decr.1 }
    Active i limit n server (t.step s i ns .send) sub' ∨ Finished i limit n server (t.step s i ns .send) sub' := by
  have counted : (t.step s i ns .send).delivered = t.delivered + 1 := by
    rw [Tally.step, delivers]
    rfl
  have found : (t.step s i ns .send).found = t.found + 1 := by
    rw [Tally.step, delivers]
    rfl
  have unscheduled := active.unscheduled
  rw [isServer] at unscheduled nodup
  by_cases last : 0 < limit ∧ t.delivered + 1 = n
  · obtain ⟨limited, isLast⟩ := last
    have ends : sub.lim.decr.2 = true := by
      rw [active.lim]
      exact decr_of_last (reached limited) isLast
    refine .inr ⟨limited, by rw [counted, isLast], ?_, .inl ⟨?_, (List.nodup_cons.mp nodup).1⟩⟩
    · rw [found, active.found, isLast]
    · rw [ends]
      exact List.mem_append_right _ (List.mem_singleton_self i)
  · have more : 0 < limit → t.delivered + 1 < n := by
      intro limited
      have fewer := active.fewer limited
      omega
    have goesOn := decr_of_more reached more
    rw [← active.lim] at goesOn
    refine .inl ⟨active.cancel, ?_, ?_, fun limited => ?_, ?_⟩
    · rw [goesOn]
      exact unscheduled
    · rw [counted, goesOn]
    · rw [counted]
      exact more limited
    · rw [found, counted, active.found]

theorem Active.step (active : Active i limit n s.server t sub) (inv : Consistent s)
    (known : s.subscription i = some sub) (isNs : sub.ns = ns) (nodup : s.server.todo.Nodup)
    (reached : 0 < limit → Reached limit n) (keeps : OwnerKeeps i s e) (change : Change i s sub e sub' server) :
    Active i limit n server (t.step s i ns e) sub' ∨ Finished i limit n server (t.step s i ns e) sub' := by
  obtain ⟨cancel, unscheduled, lim, fewer, found⟩ := active
  cases change with
  | quiet buf delivers passes =>
    rw [Tally.step_eq delivers (passes ns)]
    exact .inl ⟨cancel, unscheduled, lim, fewer, found⟩
  | enter _ =>
    obtain ⟨todo, isServer⟩ := keeps rfl
    rw [isServer] at unscheduled
    exact absurd List.mem_cons_self unscheduled
  | remove entered => cases cancel.symm.trans entered
  | closeChan _ removed => cases cancel.symm.trans removed
  | @dispatch ns' info order _ _ member =>
    have subscribed : i ∈ s.subscribers sub.ns := inv.mem_subscribers known (by rw [cancel]; rfl)
    have inOrder : ns' = ns → i ∈ order := by
      intro same
      rw [member, same, ← isNs]
      exact subscribed
    rw [Tally.step_eq rfl (passes_of_mem inOrder)]
    exact .inl ⟨cancel, List.not_mem_nil, lim, fewer, found⟩
  | sendOther done' isServer other same =>
    rw [Tally.step_eq (delivers_of_ne isServer other) rfl]
    rw [isServer] at unscheduled
    exact .inl ⟨cancel, fun member => unscheduled (same.mp member), lim, fewer, found⟩
  | sendFull isServer delivers =>
    rw [Tally.step_eq delivers rfl]
    rw [isServer] at unscheduled
    exact .inl ⟨cancel, unscheduled, lim, fewer, found⟩
  | sendRoom ch isServer delivers =>
    exact Active.delivery ⟨cancel, unscheduled, lim, fewer, found⟩ reached isServer nodup ch delivers
  | unlock isServer =>
    rw [Tally.step_eq rfl rfl]
    rw [isServer] at unscheduled
    exact .inl ⟨cancel, unscheduled, lim, fewer, found⟩
  | idle _ =>
    rw [Tally.step_eq rfl rfl]
    exact .inl ⟨cancel, List.not_mem_nil, lim, fewer, found⟩
  | release isServer _ =>
    rw [Tally.step_eq rfl rfl]
    rw [isServer] at unscheduled
    exact .inl ⟨cancel, fun member => unscheduled (List.mem_cons_of_mem _ member), lim, fewer, found⟩

/-- A subscription that is being cancelled is not sent to. -/
theorem Finished.not_todo (finished : Finished i limit n s.server t sub) (inv : Consistent s)
    (known : s.subscription i = some sub) : i ∉ s.server.todo := by
  intro member
  rcases finished.released with ⟨-, notTodo⟩ | returned
  · exact notTodo member
  · obtain ⟨sub', known', pending⟩ := inv.sending i member
    cases known.symm.trans known'
    rw [returned] at pending
    cases pending

theorem Finished.step (finished : Finished i limit n s.server t sub) (inv : Consistent s)
    (known : s.subscription i = some sub) (change : Change i s sub e sub' server) :
    Finished i limit n server (t.step s i ns e) sub' := by
  have notTodo := finished.not_todo inv known
  obtain ⟨limited, delivered, found, released⟩ := finished
  have silent (delivers : s.delivers i e = false) :
      (t.step s i ns e).delivered = n ∧ n ≤ (t.step s i ns e).found := by
    rw [Tally.step, delivers]
    exact ⟨delivered, found.trans (Nat.le_add_right ..)⟩
  cases change with
  | quiet buf delivers _ => exact ⟨limited, (silent delivers).1, (silent delivers).2, released⟩
  | enter idle =>
    refine ⟨limited, (silent rfl).1, (silent rfl).2, .inl (released.resolve_right fun returned => ?_)⟩
    cases idle.symm.trans returned
  | remove entered =>
    refine ⟨limited, (silent rfl).1, (silent rfl).2, .inl (released.resolve_right fun returned => ?_)⟩
    cases entered.symm.trans returned
  | closeChan _ _ => exact ⟨limited, (silent rfl).1, (silent rfl).2, .inr rfl⟩
  | dispatch isServer _ _ =>
    refine ⟨limited, (silent rfl).1, (silent rfl).2, .inr (released.resolve_left fun scheduled => ?_)⟩
    rw [isServer] at scheduled
    cases scheduled.1
  | sendOther done' isServer other same =>
    have count := silent (delivers_of_ne isServer other)
    refine ⟨limited, count.1, count.2, released.imp_left fun scheduled => ⟨?_, ?_⟩⟩
    · rw [isServer] at scheduled
      exact same.mpr scheduled.1
    · rw [isServer] at notTodo
      exact fun member => notTodo (List.mem_cons_of_mem _ member)
  | sendFull isServer _ =>
    rw [isServer] at notTodo
    exact absurd List.mem_cons_self notTodo
  | sendRoom _ isServer _ =>
    rw [isServer] at notTodo
    exact absurd List.mem_cons_self notTodo
  | unlock isServer =>
    refine ⟨limited, (silent rfl).1, (silent rfl).2, released.imp_left fun scheduled => ⟨?_, List.not_mem_nil⟩⟩
    rw [isServer] at scheduled
    exact scheduled.1
  | idle isServer =>
    refine ⟨limited, (silent rfl).1, (silent rfl).2, .inr (released.resolve_left fun scheduled => ?_)⟩
    rw [isServer] at scheduled
    cases scheduled.1
  | release isServer own =>
    refine ⟨limited, (silent rfl).1, (silent rfl).2, ?_⟩
    rcases released with ⟨scheduled, -⟩ | returned
    · rw [isServer] at scheduled
      rcases List.mem_cons.mp scheduled with same | later
      · exact .inr (own same.symm)
      · exact .inl ⟨later, List.not_mem_nil⟩
    · exact .inr returned

theorem Counting.step {w w' : State × Tally} {s₁ : State} (counting : Counting i ns limit n w)
    (reached : 0 < limit → Reached limit n) (keeps : OwnerKeeps i w.1 e) (step : (watch i ns s₁).step w e = some w') :
    Counting i ns limit n w' := by
  obtain ⟨inv, nodup, sub, known, isNs, phase⟩ := counting
  obtain ⟨s', stepped, rfl⟩ := Option.map_eq_some_iff.mp step
  obtain ⟨sub', known', change⟩ := inv.change known stepped
  refine ⟨consistent_invariant.step _ e _ inv stepped, change.nodup nodup, sub', known', change.ns_eq.trans isNs, ?_⟩
  rcases phase with active | finished
  · exact active.step inv known isNs nodup reached keeps change
  · exact .inr (finished.step inv known change)

/-- A `cancel` is scheduled for a subscription that has been sent to. -/
theorem scheduled_step {j : Nat} (step : s.step e = some s') (member : j ∈ s'.server.scheduled) :
    j ∈ s.server.scheduled ∨ ∃ sub, s.subscription j = some sub := by
  have effect := effect_of_step step
  generalize s'.subscription = subscription, s'.server = server at effect member
  cases effect with
  | dispatch => cases member
  | sendFull isServer =>
    rw [isServer]
    exact .inl member
  | @sendRoom _ i _ done sub isServer known =>
    rw [isServer]
    change j ∈ (if sub.lim.decr.2 = true then done ++ [i] else done) at member
    split at member
    · rcases List.mem_append.mp member with earlier | last
      · exact .inl earlier
      · exact .inr ⟨sub, List.mem_singleton.mp last ▸ known⟩
    · exact .inl member
  | unlock isServer =>
    rw [isServer]
    exact .inl member
  | idle => cases member
  | release isServer =>
    rw [isServer]
    exact .inl (List.mem_cons_of_mem _ member)
  | _ => exact .inl member

/-- The server cancels only what there is. -/
theorem scheduled_invariant :
    machine.Invariant fun s => Consistent s ∧ ∀ j ∈ s.server.scheduled, ∃ sub, s.subscription j = some sub where
  start := ⟨consistent_invariant.start, fun j member => by cases member⟩
  step s e s' holds step := by
    obtain ⟨inv, scheduled⟩ := holds
    refine ⟨consistent_invariant.step s e s' inv step, fun j member => ?_⟩
    obtain ⟨sub, known⟩ : ∃ sub, s.subscription j = some sub := by
      rcases scheduled_step step member with earlier | known
      · exact scheduled j earlier
      · exact known
    obtain ⟨sub', known', -⟩ := inv.change known step
    exact ⟨sub', known'⟩

theorem Counting.start {before : List Event} {fresh : Nat} (reachable : machine.run before = some s)
    (notDone : s.done = false) (created : s.step (.subscribe i fresh ns limit) = some s')
    (reached : 0 < limit → Reached limit n) : Counting i ns limit n (watch i ns s').start := by
  obtain ⟨inv, scheduled⟩ := scheduled_invariant.run reachable
  have inv' := consistent_invariant.step s _ s' inv created
  rw [State.step, if_neg (by rw [inv.noPanic]; exact Bool.false_ne_true)] at created
  obtain ⟨writing, ⟨isDone, -⟩ | ⟨ss, adds⟩⟩ := subscribe_cases created
  · cases notDone.symm.trans isDone
  have idle : s'.server.todo = [] := by
    rw [adds.server]
    cases isServer : s.server with
    | sending info todo done =>
      rw [isServer] at writing
      cases writing
    | _ => rfl
  have known : s'.subscription i = some ⟨ns, ss, limiter limit, .new, .idle⟩ := by
    rw [adds.subscription, Function.update_self]
  refine ⟨inv', ?_, _, known, rfl, .inl ⟨rfl, ?_, ?_, ?_, rfl⟩⟩
  · show s'.server.todo.Nodup
    rw [idle]
    exact List.nodup_nil
  · intro member
    obtain ⟨sub, known⟩ := scheduled i (adds.server ▸ member)
    cases known.symm.trans adds.unknown
  · exact congrArg limiter (Int.sub_zero limit).symm
  · exact fun limited => (reached limited).positive

theorem Counting.exact {w : State × Tally} (counting : Counting i ns limit n w) (same : 0 < limit → (n : Int) = limit) :
    Exact i limit w := by
  obtain ⟨inv, -, sub, known, -, phase⟩ := counting
  refine ⟨sub, known, fun limited => ?_, fun fewer => ?_, fun limited all idle => ?_⟩
  · have isLimit := same limited
    rcases phase with active | finished
    · have fewer := active.fewer limited
      rw [active.found]
      omega
    · have delivered := finished.delivered
      have found := finished.found
      omega
  · rcases phase with active | finished
    · exact Bool.eq_false_of_not_eq_true (inv.open_of_pending known (by rw [active.cancel]; rfl))
    · have delivered := finished.delivered
      have isLimit := same finished.limited
      have less := fewer finished.limited
      omega
  · have isLimit := same limited
    rcases phase with active | finished
    · have fewer := active.fewer limited
      omega
    · rcases finished.released with ⟨scheduled, -⟩ | returned
      · rw [idle] at scheduled
        cases scheduled
      · exact (inv.closed i sub known).mpr returned

end Phases

theorem reached_self {limit : Int} (limited : 0 < limit) (small : limit ≤ 2 ^ 32) : Reached limit limit.toNat where
  positive := by omega
  le := by omega
  wraps := by
    rw [Int.toNat_of_nonneg limited.le, Int.sub_self]
    rfl
  small := by omega

/-- Limits that fit into 32 bits are exact. -/
theorem limitExact_of_le {limit : Int} (small : limit ≤ 2 ^ 32) : LimitExact limit := by
  intro before s s' i fresh ns events reachable notDone created keeps
  have reached : 0 < limit → Reached limit limit.toNat := fun limited => reached_self limited small
  have counting : (watch i ns s').Always (fun _ w => Counting i ns limit limit.toNat w) events := by
    refine Machine.always_of_throughout (watch i ns s').invariant_true
      (Counting.start reachable notDone created reached) ?_ keeps
    intro before w e w' _ counting keeps step
    exact counting.step reached keeps step
  intro before w isBefore run
  exact (counting before w isBefore run).exact fun limited => Int.toNat_of_nonneg limited.le

section Rounds

/-- A socket with one subscription in one namespace. -/
def oneSubscription (lim : ResultLimiter) (ch : Chan) (cancel : Cancel) (server : Server) : State where
  done := false
  subs := Function.update (fun _ => none) [1] (some 0)
  sets := Function.update (fun _ => none) 0 (some {0})
  subscription := Function.update (fun _ => none) 0 (some ⟨[1], 0, lim, ch, cancel⟩)
  server := server
  panic := none

theorem subscribe_one (limit : Int) : State.new.step (.subscribe 0 0 [1] limit) =
    some (oneSubscription (limiter limit) .new .idle .idle) := by
  have once : Function.update (Function.update (fun _ : Nat => (none : Option (Finset Nat))) 0 (some ∅)) 0 (some {0}) =
      Function.update (fun _ => none) 0 (some {0}) := Function.update_idem ..
  rw [oneSubscription, ← once]
  rfl

variable {lim : ResultLimiter} {ch : Chan} {cancel : Cancel} {server : Server} {info : AddrInfo} {limit : Int} {n : Nat}

theorem oneSubscription_set (lim' : ResultLimiter) (ch' : Chan) (cancel' : Cancel) :
    (oneSubscription lim ch cancel server).setSubscription 0 ⟨[1], 0, lim', ch', cancel'⟩ =
      oneSubscription lim' ch' cancel' server := by
  rw [State.setSubscription, oneSubscription, oneSubscription, Function.update_idem]

theorem send_one : (oneSubscription lim .new cancel (.sending info [0] [])).step .send =
    some (oneSubscription lim.decr.1 ⟨[info], false⟩ cancel (.sending info [] (if lim.decr.2 then [0] else []))) := by
  have set : (oneSubscription lim .new cancel (.sending info [0] [])).setSubscription 0
      ⟨[1], 0, lim.decr.1, ⟨[info], false⟩, cancel⟩ =
      oneSubscription lim.decr.1 ⟨[info], false⟩ cancel (.sending info [0] []) := oneSubscription_set ..
  exact congrArg (fun s => some { s with server := .sending info [] (if lim.decr.2 then [0] else []) }) set

theorem receive_one : (oneSubscription lim ⟨[info], false⟩ cancel server).step (.receive 0) =
    some (oneSubscription lim .new cancel server) :=
  congrArg some (oneSubscription_set ..)

theorem watch_step {s s' s₁ : State} {t : Tally} {e : Event} (step : s.step e = some s') :
    (watch 0 [1] s₁).step (s, t) e = some (s', t.step s 0 [1] e) := by
  show (s.step e).map _ = _
  rw [step]
  rfl

/-- A response that is delivered, up to where the server releases. -/
def delivery : List Event :=
  [.dispatch [1] ⟨[7], []⟩ [0], .send, .unlock]

theorem delivery_run (s₁ : State) (lim : ResultLimiter) (k : Nat) :
    delivery.foldlM (watch 0 [1] s₁).step (oneSubscription lim .new .idle .idle, ⟨k, k⟩) =
      some (oneSubscription lim.decr.1 ⟨[⟨[7], []⟩], false⟩ .idle (.releasing (if lim.decr.2 then [0] else [])),
        ⟨k + 1, k + 1⟩) := by
  have dispatch : (oneSubscription lim .new .idle .idle).step (.dispatch [1] ⟨[7], []⟩ [0]) =
      some (oneSubscription lim .new .idle (.sending ⟨[7], []⟩ [0] [])) := rfl
  rw [delivery, Machine.foldlM_cons (watch_step dispatch), Machine.foldlM_cons (watch_step send_one)]
  rfl

/-- The delivery and its receipt. -/
def round : List Event :=
  delivery ++ [.release, .receive 0]

def rounds : Nat → List Event
  | 0 => []
  | k + 1 => rounds k ++ round

theorem round_run (s₁ : State) (lim : ResultLimiter) (more : lim.decr.2 = false) (k : Nat) :
    round.foldlM (watch 0 [1] s₁).step (oneSubscription lim .new .idle .idle, ⟨k, k⟩) =
      some (oneSubscription lim.decr.1 .new .idle .idle, ⟨k + 1, k + 1⟩) := by
  have release : (oneSubscription lim.decr.1 ⟨[⟨[7], []⟩], false⟩ .idle (.releasing [])).step .release =
      some (oneSubscription lim.decr.1 ⟨[⟨[7], []⟩], false⟩ .idle .idle) := rfl
  rw [round, List.foldlM_append, delivery_run, more]
  refine (Machine.foldlM_cons (watch_step release)).trans ((Machine.foldlM_cons (watch_step receive_one)).trans ?_)
  rfl

theorem rounds_run (reached : Reached limit n) {k : Nat} (fewer : k < n) :
    (watch 0 [1] (oneSubscription (limiter limit) .new .idle .idle)).run (rounds k) =
      some (oneSubscription (limiter (limit - k)) .new .idle .idle, ⟨k, k⟩) := by
  induction k with
  | zero =>
    rw [Nat.cast_zero, Int.sub_zero]
    rfl
  | succ k ih =>
    have decr := decr_of_more (k := k) (fun _ => reached) fun _ => fewer
    rw [rounds, Machine.run_append (ih (by omega)), round_run _ _ (by rw [decr]), decr]

/-- No one else cancels. -/
theorem not_enter_of_mem (k : Nat) : ∀ e ∈ rounds k ++ delivery, e ≠ .enter 0 := by
  have deliver : ∀ e ∈ delivery, e ≠ .enter 0 := by
    simp [delivery]
  have go : ∀ e ∈ rounds k, e ≠ .enter 0 := by
    induction k with
    | zero => exact fun e member => (List.not_mem_nil member).elim
    | succ k ih =>
      simp only [rounds, round, List.forall_mem_append]
      exact ⟨ih, deliver, by simp⟩
  exact List.forall_mem_append.mpr ⟨go, deliver⟩

theorem closing_run (s₁ : State) (lim : ResultLimiter) (t : Tally) :
    ∃ w, [Event.enter 0, .remove 0, .closeChan 0].foldlM (watch 0 [1] s₁).step
        (oneSubscription lim ⟨[⟨[7], []⟩], false⟩ .idle (.releasing [0]), t) = some w ∧ w.2 = t ∧
      ∃ sub, w.1.subscription 0 = some sub ∧ sub.ch.closed = true :=
  ⟨_, rfl, rfl, _, rfl, rfl⟩

theorem reached_wrapped {limit : Int} (limited : 0 < limit) : Reached limit (((limit - 1) % 2 ^ 32).toNat + 1) := by
  have nonneg : 0 ≤ (limit - 1) % 2 ^ 32 := Int.emod_nonneg _ (by decide)
  have value : ((((limit - 1) % 2 ^ 32).toNat + 1 : Nat) : Int) = (limit - 1) % 2 ^ 32 + 1 := by omega
  refine ⟨Nat.succ_pos _, ?_, ?_, ?_⟩
  · rw [value]
    omega
  · rw [value]
    omega
  · omega

/-- A limit that does not fit is reached too early. -/
theorem not_limitExact {limit : Int} (large : 2 ^ 32 < limit) : ¬ LimitExact limit := by
  intro isExact
  have reached := reached_wrapped (by omega : 0 < limit)
  obtain ⟨k, isCount⟩ : ∃ k, k = ((limit - 1) % 2 ^ 32).toNat := ⟨_, rfl⟩
  rw [← isCount] at reached
  have last := decr_of_last reached rfl
  have delivered : (watch 0 [1] (oneSubscription (limiter limit) .new .idle .idle)).run (rounds k ++ delivery) =
      some (oneSubscription (limiter (limit - k)).decr.1 ⟨[⟨[7], []⟩], false⟩ .idle (.releasing [0]),
        ⟨k + 1, k + 1⟩) := by
    rw [Machine.run_append (rounds_run reached (Nat.lt_succ_self k)), delivery_run, last]
    rfl
  obtain ⟨w, closing, tally, sub, known, closed⟩ := closing_run (oneSubscription (limiter limit) .new .idle .idle)
    (limiter (limit - k)).decr.1 ⟨k + 1, k + 1⟩
  have run := (Machine.run_append delivered).trans closing
  -- the server is the only one that calls `cancel`
  have keeps : (watch 0 [1] (oneSubscription (limiter limit) .new .idle .idle)).Throughout
      (fun _ w e => OwnerKeeps 0 w.1 e) (rounds k ++ delivery) := by
    intro before e w w' isBefore _ _ isEnter
    exact absurd isEnter (not_enter_of_mem k e (isBefore.subset (List.mem_concat_self ..)))
  have enters := Machine.throughout_concat (e := .enter 0).mpr ⟨keeps, fun w w' reached _ _ => by
    cases delivered.symm.trans reached
    exact ⟨[], rfl⟩⟩
  have removes := Machine.throughout_concat (e := .remove 0).mpr ⟨enters, fun _ _ _ _ isEnter => by cases isEnter⟩
  have closes := Machine.throughout_concat (e := .closeChan 0).mpr ⟨removes, fun _ _ _ _ isEnter => by cases isEnter⟩
  simp only [List.append_assoc, List.cons_append, List.nil_append] at closes run
  obtain ⟨sub', known', -, early, -⟩ :=
    isExact [] .new _ 0 0 [1] _ rfl rfl (subscribe_one limit) closes _ w List.prefix_rfl run
  cases known.symm.trans known'
  have fewer : (w.2.delivered : Int) < limit := by
    have small := reached.small
    have counted : w.2.delivered = k + 1 := congrArg Tally.delivered tally
    omega
  cases closed.symm.trans (early fun _ => fewer)

end Rounds

/-- A limit is exact, in every run, exactly when it is at most 2³². The limiter counts
down from the lowest 32 bits of the limit, and a larger one is reached when these
have come to zero. -/
theorem limit_exact_iff (limit : Int) : LimitExact limit ↔ limit ≤ 2 ^ 32 := by
  constructor
  · intro isExact
    by_contra large
    exact not_limitExact (not_le.mp large) isExact
  · exact limitExact_of_le

/-- With this limit a channel is closed after its first delivery. -/
theorem limit_wraps : ¬ LimitExact 4294967297 :=
  not_limitExact (by decide)

end Casm.Boot.Subscriptions
