import Casm.Lib.Refinement
import Casm.Boot.Limits

namespace Casm.Boot.Subscriptions

namespace State

/-- The peer that is received from the channel of the subscription. -/
def takes (i : Nat) (s : State) : Event → List AddrInfo
  | .receive j => if j = i then ((s.subscription i).bind (·.ch.buf.head?)).toList else []
  | _ => []

/-- The response in the namespace of the subscription, which is not cancelled. -/
def offers (i : Nat) (s : State) : Event → List AddrInfo
  | .dispatch ns info _ =>
    if (s.subscription i).any fun sub => sub.ns = ns && sub.cancel.pending then [info] else []
  | _ => []

/-- The response that finds the channel of the subscription full. -/
def drops (i : Nat) (s : State) : Event → List AddrInfo
  | .send =>
    match s.server with
    | .sending info (j :: _) _ =>
      if j = i && (s.subscription i).any fun sub => 16 ≤ sub.ch.buf.length then [info] else []
    | _ => []
  | _ => []

end State

/-- The response that the server is about to send to the subscription. -/
def Server.owed (i : Nat) : Server → List AddrInfo
  | sending info todo _ => if i ∈ todo then [info] else []
  | _ => []

/-- What was offered was kept, in the same order, or it was lost. -/
structure Accounts (kept lost offered : List AddrInfo) : Prop where
  sublist : kept.Sublist offered
  perm : (kept ++ lost).Perm offered

/-- The account of a subscription, by what was taken from its channel, offered to it and
dropped. -/
structure Balance (i : Nat) (subscription : Nat → Option Subscription) (server : Server)
    (taken offered dropped : List AddrInfo) : Prop where
  unknown : subscription i = none → taken = [] ∧ offered = [] ∧ dropped = []
  known : ∀ sub, subscription i = some sub → Accounts (taken ++ sub.ch.buf ++ server.owed i) dropped offered

/-- The server sends to each once, and cancels what was subscribed. -/
structure Orderly (subscription : Nat → Option Subscription) (server : Server) : Prop where
  nodup : server.todo.Nodup
  scheduled : ∀ i ∈ server.scheduled, (subscription i).isSome = true

section Account

variable {kept lost offered : List AddrInfo} {info : AddrInfo}

theorem Accounts.nil : Accounts [] [] [] :=
  ⟨.slnil, .nil⟩

theorem Accounts.offer (accounts : Accounts kept lost offered) : Accounts (kept ++ [info]) lost (offered ++ [info]) where
  sublist := accounts.sublist.append_right [info]
  perm := by
    rw [List.append_assoc, List.singleton_append]
    exact List.perm_middle.trans ((accounts.perm.cons info).trans (List.perm_append_singleton info offered).symm)

theorem Accounts.lose (accounts : Accounts (kept ++ [info]) lost offered) : Accounts kept (lost ++ [info]) offered where
  sublist := (List.sublist_append_left kept [info]).trans accounts.sublist
  perm := by
    have perm := accounts.perm
    rw [List.append_assoc, List.singleton_append] at perm
    exact ((List.perm_append_singleton info lost).append_left kept).trans perm

end Account

section Steps

variable {s s' : State} {i j : Nat} {sub : Subscription} {e : Event} {info : AddrInfo} {ns : Namespace}
  {subscription : Nat → Option Subscription} {server : Server} {taken offered dropped : List AddrInfo}

theorem Consistent.mem_subscribers_iff (inv : Consistent s) (known : s.subscription i = some sub) :
    i ∈ s.subscribers ns ↔ sub.ns = ns ∧ sub.cancel.pending = true := by
  constructor
  · intro member
    rw [State.subscribers] at member
    split at member
    next ss isSet =>
      obtain ⟨sub', known', isNs, pending⟩ := (inv.occupied ns ss isSet).members i member
      cases known.symm.trans known'
      exact ⟨isNs, pending⟩
    next => cases member
  · rintro ⟨rfl, pending⟩
    exact inv.mem_subscribers known pending

theorem owed_of_mem {todo done : List Nat} (member : i ∈ todo) : (Server.sending info todo done).owed i = [info] :=
  if_pos member

theorem owed_of_not_mem (other : i ∉ server.todo) : server.owed i = [] := by
  cases server with
  | idle => rfl
  | sending info todo done => exact if_neg other
  | releasing todo => rfl

theorem owed_cons_of_ne {todo done done' : List Nat} (other : j ≠ i) :
    (Server.sending info todo done').owed i = (Server.sending info (j :: todo) done).owed i := by
  simp only [Server.owed, List.mem_cons, Ne.symm other, false_or]

theorem Balance.of_known (isNew : subscription i = some sub)
    (accounts : Accounts (taken ++ sub.ch.buf ++ server.owed i) dropped offered) :
    Balance i subscription server taken offered dropped where
  unknown isNone := by cases isNew.symm.trans isNone
  known sub' isSub := by
    cases isNew.symm.trans isSub
    exact accounts

/-- A step that is not about the subscription. -/
theorem Balance.same (balance : Balance i s.subscription s.server taken offered dropped)
    (isSame : subscription i = s.subscription i) (owed : server.owed i = s.server.owed i) :
    Balance i subscription server (taken ++ []) (offered ++ []) (dropped ++ []) := by
  simp only [List.append_nil]
  refine ⟨fun isNone => balance.unknown (isSame ▸ isNone), fun sub isSub => ?_⟩
  rw [owed]
  exact balance.known sub (isSame ▸ isSub)

/-- A step that moves a subscription on without its channel. -/
theorem Balance.set {new : Subscription} (balance : Balance i s.subscription s.server taken offered dropped)
    (isOld : s.subscription j = some sub) (buf : new.ch.buf = sub.ch.buf) :
    Balance i (Function.update s.subscription j (some new)) s.server (taken ++ []) (offered ++ []) (dropped ++ []) := by
  by_cases own : i = j
  · subst own
    simp only [List.append_nil]
    refine .of_known (Function.update_self ..) ?_
    rw [buf]
    exact balance.known sub isOld
  · exact balance.same (Function.update_of_ne own ..) rfl

theorem Balance.subscribe {new : Subscription} (inv : Consistent s)
    (balance : Balance i s.subscription s.server taken offered dropped) (unknown : s.subscription j = none)
    (isEmpty : new.ch.buf = []) :
    Balance i (Function.update s.subscription j (some new)) s.server (taken ++ []) (offered ++ []) (dropped ++ []) := by
  by_cases own : i = j
  · subst own
    have notTodo : i ∉ s.server.todo := by
      intro member
      obtain ⟨sub, known, -⟩ := inv.sending i member
      cases known.symm.trans unknown
    obtain ⟨rfl, rfl, rfl⟩ := balance.unknown unknown
    refine .of_known (Function.update_self ..) ?_
    rw [isEmpty, owed_of_not_mem notTodo]
    exact .nil
  · exact balance.same (Function.update_of_ne own ..) rfl

theorem Balance.receive {rest : List AddrInfo} (balance : Balance i s.subscription s.server taken offered dropped)
    (isOld : s.subscription j = some sub) (isBuf : sub.ch.buf = info :: rest) :
    Balance i (Function.update s.subscription j (some { sub with ch := { sub.ch with buf := rest } })) s.server
      (taken ++ s.takes i (.receive j)) (offered ++ []) (dropped ++ []) := by
  by_cases own : j = i
  · subst own
    have takes : s.takes j (.receive j) = [info] := by simp [State.takes, isOld, isBuf]
    simp only [takes, List.append_nil]
    refine .of_known (Function.update_self ..) ?_
    have accounts := balance.known sub isOld
    rw [isBuf] at accounts
    simpa using accounts
  · have takes : s.takes i (.receive j) = [] := if_neg own
    rw [takes]
    exact balance.same (Function.update_of_ne (Ne.symm own) ..) rfl

/-- The server sends a response to those that it is offered to. -/
theorem Balance.dispatch {order : List Nat} (inv : Consistent s)
    (balance : Balance i s.subscription s.server taken offered dropped) (isServer : s.server = .idle)
    (whole : order.toFinset = s.subscribers ns) :
    Balance i s.subscription (.sending info order []) (taken ++ []) (offered ++ s.offers i (.dispatch ns info order))
      (dropped ++ []) := by
  have member {sub : Subscription} (known : s.subscription i = some sub) :
      i ∈ order ↔ sub.ns = ns ∧ sub.cancel.pending = true := by
    rw [← List.mem_toFinset, whole, inv.mem_subscribers_iff known]
  simp only [List.append_nil]
  refine ⟨fun isNone => ?_, fun sub known => ?_⟩
  · obtain ⟨rfl, rfl, rfl⟩ := balance.unknown isNone
    simp [State.offers, isNone]
  · have accounts := balance.known sub known
    rw [isServer, owed_of_not_mem List.not_mem_nil, List.append_nil] at accounts
    by_cases isOffered : sub.ns = ns ∧ sub.cancel.pending = true
    · have offers : s.offers i (.dispatch ns info order) = [info] := by simp [State.offers, known, isOffered]
      rw [offers, owed_of_mem ((member known).mpr isOffered)]
      exact accounts.offer
    · have offers : s.offers i (.dispatch ns info order) = [] := by
        simp only [State.offers, known, Option.any_some, Bool.and_eq_true, decide_eq_true_eq, if_neg isOffered]
      rw [offers, owed_of_not_mem fun isMember => isOffered ((member known).mp isMember)]
      simpa using accounts

theorem drops_of_ne {todo done : List Nat} (isServer : s.server = .sending info (j :: todo) done) (other : j ≠ i) :
    s.drops i .send = [] := by
  simp [State.drops, isServer, other]

/-- The send to a subscription with a full channel, and to one with room. -/
theorem Balance.send {todo done done' : List Nat} {new : Subscription} {lost : List AddrInfo}
    (balance : Balance i s.subscription s.server taken offered dropped) (nodup : s.server.todo.Nodup)
    (isServer : s.server = .sending info (i :: todo) done) (isOld : s.subscription i = some sub)
    (sent : new.ch.buf = sub.ch.buf ∧ lost = [info] ∨ new.ch.buf = sub.ch.buf ++ [info] ∧ lost = [])
    (isNew : subscription i = some new) :
    Balance i subscription (.sending info todo done') (taken ++ []) (offered ++ []) (dropped ++ lost) := by
  have accounts := balance.known sub isOld
  rw [isServer] at accounts nodup
  rw [owed_of_mem List.mem_cons_self] at accounts
  have notTodo : i ∉ (Server.sending info todo done').todo := (List.nodup_cons.mp nodup).1
  simp only [List.append_nil]
  refine .of_known isNew ?_
  rw [owed_of_not_mem notTodo, List.append_nil]
  rcases sent with ⟨same, rfl⟩ | ⟨longer, rfl⟩
  · rw [same]
    exact accounts.lose
  · rw [longer, ← List.append_assoc, List.append_nil]
    exact accounts

theorem Balance.step (inv : Consistent s) (nodup : s.server.todo.Nodup)
    (balance : Balance i s.subscription s.server taken offered dropped) (effect : Effect s e subscription server) :
    Balance i subscription server (taken ++ s.takes i e) (offered ++ s.offers i e) (dropped ++ s.drops i e) := by
  cases effect with
  | subscribeDone => exact balance.same rfl rfl
  | subscribe ss unknown => exact balance.subscribe inv unknown rfl
  | enter isOld _ => exact balance.set isOld rfl
  | remove isOld _ => exact balance.set isOld rfl
  | closeChan isOld _ => exact balance.set isOld rfl
  | closeClosed => exact balance.same rfl rfl
  | receive isOld isBuf => exact balance.receive isOld isBuf
  | dispatch isServer _ whole => exact balance.dispatch inv isServer whole
  | sendClosed isServer isOther closed => exact absurd closed (inv.open_of_sending isServer isOther)
  | @sendFull info j todo done old isServer isOld _ full =>
    by_cases own : j = i
    · subst own
      have drops : s.drops j .send = [info] := by simp [State.drops, isServer, isOld, Nat.le_of_not_lt full]
      rw [drops]
      exact balance.send nodup isServer isOld (.inl ⟨rfl, rfl⟩) isOld
    · rw [drops_of_ne isServer own]
      exact balance.same rfl (isServer ▸ owed_cons_of_ne own)
  | @sendRoom info j todo done old isServer isOld _ room =>
    by_cases own : j = i
    · subst own
      have drops : s.drops j .send = [] := by simp [State.drops, isServer, isOld, room]
      rw [drops]
      exact balance.send nodup isServer isOld (.inr ⟨rfl, rfl⟩) (Function.update_self ..)
    · rw [drops_of_ne isServer own]
      exact balance.same (Function.update_of_ne (Ne.symm own) ..) (isServer ▸ owed_cons_of_ne own)
  | unlock isServer => exact balance.same rfl (by rw [isServer]; rfl)
  | idle isServer => exact balance.same rfl (by rw [isServer]; rfl)
  | release isServer _ => exact balance.same rfl (by rw [isServer]; rfl)
  | close => exact balance.same rfl rfl

theorem Effect.isSome (effect : Effect s e subscription server) (known : (s.subscription j).isSome = true) :
    (subscription j).isSome = true := by
  have set {i : Nat} {new : Subscription} : (Function.update s.subscription i (some new) j).isSome = true := by
    rw [Function.update_apply]
    split
    · rfl
    · exact known
  cases effect with
  | subscribe _ _ => exact set
  | enter _ _ => exact set
  | remove _ _ => exact set
  | closeChan _ _ => exact set
  | receive _ _ => exact set
  | sendRoom _ _ _ _ => exact set
  | _ => exact known

theorem Orderly.step (orderly : Orderly s.subscription s.server) (effect : Effect s e subscription server) :
    Orderly subscription server := by
  have known := fun i member => effect.isSome (orderly.scheduled i member)
  have nodup := orderly.nodup
  cases effect with
  | dispatch _ orderNodup _ => exact ⟨orderNodup, nofun⟩
  | sendFull isServer _ _ _ =>
    rw [isServer] at nodup known
    exact ⟨(List.nodup_cons.mp nodup).2, known⟩
  | @sendRoom info j todo done _ isServer isOld _ _ =>
    rw [isServer] at nodup known
    refine ⟨(List.nodup_cons.mp nodup).2, fun i member => ?_⟩
    simp only [Server.scheduled] at member
    split at member
    · rcases List.mem_append.mp member with old | last
      · exact known i old
      · rw [List.mem_singleton.mp last, Function.update_self]
        rfl
    · exact known i member
  | unlock isServer =>
    rw [isServer] at known
    exact ⟨List.nodup_nil, known⟩
  | idle _ => exact ⟨List.nodup_nil, nofun⟩
  | release isServer _ =>
    rw [isServer] at known
    exact ⟨List.nodup_nil, fun i member => known i (List.mem_cons_of_mem _ member)⟩
  | _ => exact ⟨nodup, known⟩

theorem orderly_invariant : machine.Invariant fun s => Orderly s.subscription s.server where
  start := ⟨List.nodup_nil, nofun⟩
  step _ _ _ orderly step := orderly.step (effect_of_step step)

end Steps

/-- What the owner of a subscription has received, with what is in its channel and on its
way there, is a subsequence of the responses that were offered to it. It lacks exactly
those that found the channel full. -/
theorem balance_run {events : List Event} {s : State} (reached : machine.run events = some s) (i : Nat) :
    Balance i s.subscription s.server (machine.trace (State.takes i) events) (machine.trace (State.offers i) events)
      (machine.trace (State.drops i) events) := by
  induction events using List.reverseRecOn generalizing s with
  | nil =>
    cases reached
    exact ⟨fun _ => ⟨rfl, rfl, rfl⟩, nofun⟩
  | append_singleton events e ih =>
    obtain ⟨before, isBefore, step⟩ := Machine.run_concat.mp reached
    rw [Machine.trace_concat isBefore step, Machine.trace_concat isBefore step, Machine.trace_concat isBefore step]
    exact (ih isBefore).step (consistent_invariant.run isBefore) (orderly_invariant.run isBefore).nodup
      (effect_of_step step)

/-- A subscription keeps its namespace. -/
theorem Effect.ns_eq {s : State} {e : Event} {subscription : Nat → Option Subscription} {server : Server} {i : Nat}
    {sub : Subscription} (effect : Effect s e subscription server) (known : subscription i = some sub) :
    s.subscription i = none ∨ ∃ old, s.subscription i = some old ∧ old.ns = sub.ns := by
  have same (known : s.subscription i = some sub) :
      s.subscription i = none ∨ ∃ old, s.subscription i = some old ∧ old.ns = sub.ns := .inr ⟨sub, known, rfl⟩
  have set {j : Nat} {old new : Subscription} (isOld : s.subscription j = some old)
      (known : Function.update s.subscription j (some new) i = some sub) (ns : old.ns = new.ns) :
      s.subscription i = none ∨ ∃ old, s.subscription i = some old ∧ old.ns = sub.ns := by
    rcases Function.update_cases known with ⟨rfl, isNew⟩ | ⟨-, known⟩
    · cases isNew
      exact .inr ⟨old, isOld, ns⟩
    · exact same known
  cases effect with
  | subscribe ss unknown =>
    rcases Function.update_cases known with ⟨rfl, -⟩ | ⟨-, known⟩
    · exact .inl unknown
    · exact same known
  | enter isOld _ => exact set isOld known rfl
  | remove isOld _ => exact set isOld known rfl
  | closeChan isOld _ => exact set isOld known rfl
  | receive isOld _ => exact set isOld known rfl
  | sendRoom _ isOld _ _ => exact set isOld known rfl
  | _ => exact same known

/-- What was offered to a subscription was dispatched in its namespace. -/
theorem dispatched_of_offered {events : List Event} {s : State} {i : Nat} {sub : Subscription} {info : AddrInfo}
    (reached : machine.run events = some s) (known : s.subscription i = some sub)
    (member : info ∈ machine.trace (State.offers i) events) : ∃ order, .dispatch sub.ns info order ∈ events := by
  induction events using List.reverseRecOn generalizing s sub with
  | nil => cases member
  | append_singleton events e ih =>
    obtain ⟨before, isBefore, step⟩ := Machine.run_concat.mp reached
    rw [Machine.trace_concat isBefore step, List.mem_append] at member
    rcases (effect_of_step step).ns_eq known with unknown | ⟨old, isOld, ns⟩
    · rw [((balance_run isBefore i).unknown unknown).2.1] at member
      rcases member with none | new
      · cases none
      · simp only [State.offers, unknown] at new
        split at new <;> simp at new
    · rcases member with earlier | new
      · obtain ⟨order, isEvent⟩ := ih isBefore isOld earlier
        exact ⟨order, ns ▸ List.mem_append_left _ isEvent⟩
      · rw [State.offers.eq_def] at new
        split at new
        next ns' info' order =>
          simp only [isOld, Option.any_some, Bool.and_eq_true, decide_eq_true_eq] at new
          split at new
          next isOffered =>
            cases List.mem_singleton.mp new
            exact ⟨order, by simp [← ns, isOffered.1]⟩
          next => cases new
        next => cases new

/-- The steps of the server, with the calls of `cancel` that it waits for. -/
def State.Own (s : State) : Event → Prop
  | .send | .unlock | .release => True
  | .enter i | .remove i | .closeChan i => ∃ todo, s.server = .releasing (i :: todo)
  | _ => False

/-- The server goes on by its own steps. -/
abbrev Proceeds : State → State → Prop :=
  Relation.ReflTransGen fun s s' => ∃ e, s.Own e ∧ s.step e = some s'

section Progress

variable {s s' : State} {i : Nat} {sub : Subscription} {info : AddrInfo} {todo done : List Nat}

/-- The invariants on which the server relies. -/
structure Sane (s : State) : Prop where
  consistent : Consistent s
  orderly : Orderly s.subscription s.server

theorem sane_invariant : machine.Invariant Sane where
  start := ⟨consistent_invariant.start, orderly_invariant.start⟩
  step s e s' sane step := ⟨consistent_invariant.step s e s' sane.consistent step, sane.orderly.step (effect_of_step step)⟩

theorem Sane.step_eq (sane : Sane s) (e : Event) : s.step e = s.act e := by
  rw [State.step, sane.consistent.noPanic]
  rfl

theorem Sane.send (sane : Sane s) (isServer : s.server = .sending info (i :: todo) done) :
    ∃ s' done', s.step .send = some s' ∧ s'.server = .sending info todo done' := by
  obtain ⟨sub, known, -⟩ := sane.consistent.sending i (by rw [isServer]; exact List.mem_cons_self)
  have step : s.step .send = some (s.sendTo info i todo done sub) := by
    rw [sane.step_eq, State.act, State.send, isServer]
    simp only [known, Option.map_some]
  suffices sends : ∃ done', (s.sendTo info i todo done sub).server = .sending info todo done' by
    obtain ⟨done', isSending⟩ := sends
    exact ⟨_, done', step, isSending⟩
  have effect := effect_of_step step
  generalize (s.sendTo info i todo done sub).subscription = subscription,
    (s.sendTo info i todo done sub).server = server at effect ⊢
  cases effect with
  | sendClosed isServer' known' closed => exact absurd closed (sane.consistent.open_of_sending isServer' known')
  | sendFull isServer' _ _ _ =>
    cases isServer.symm.trans isServer'
    exact ⟨_, rfl⟩
  | sendRoom isServer' _ _ _ =>
    cases isServer.symm.trans isServer'
    exact ⟨_, rfl⟩

/-- Once it has sent to all, the server has released the lock. -/
theorem Sane.finish_sending (sane : Sane s) (isServer : s.server = .sending info todo done) :
    ∃ s' done', Proceeds s s' ∧ Sane s' ∧ s'.server = .releasing done' := by
  induction todo generalizing s done with
  | nil =>
    have step : s.step .unlock = some { s with server := .releasing done } := by
      rw [sane.step_eq, State.act, State.unlock, isServer]
    exact ⟨_, done, .single ⟨.unlock, trivial, step⟩, sane_invariant.step _ _ _ sane step, rfl⟩
  | cons i todo ih =>
    obtain ⟨s₁, done₁, step, isSending⟩ := sane.send isServer
    obtain ⟨s', done', proceeds, sane', isReleasing⟩ := ih (sane_invariant.step _ _ _ sane step) isSending
    exact ⟨s', done', .head ⟨.send, trivial, step⟩ proceeds, sane', isReleasing⟩

/-- The steps that a call of `cancel` has before it. -/
def Cancel.rest : Cancel → Nat
  | idle => 3
  | entered => 2
  | removed => 1
  | returned => 0

/-- Nothing blocks a `cancel` that the server waits for: the lock is free, and the channel
was not closed before. -/
theorem Sane.cancel_step (sane : Sane s) (isServer : s.server = .releasing (i :: todo))
    (known : s.subscription i = some sub) {n : Nat} (more : sub.cancel.rest = n + 1) :
    ∃ e s' sub', s.Own e ∧ s.step e = some s' ∧ s'.server = s.server ∧ s'.subscription i = some sub' ∧
      sub'.cancel.rest = n := by
  cases isCancel : sub.cancel with
  | idle =>
    have step : s.step (.enter i) = some (s.setSubscription i { sub with cancel := .entered }) := by
      rw [sane.step_eq, State.act, known, Option.bind_some, State.enter, if_pos isCancel]
    rw [isCancel] at more
    exact ⟨.enter i, _, _, ⟨todo, isServer⟩, step, rfl, Function.update_self .., Nat.succ.inj more⟩
  | entered =>
    have free : ¬ s.server.reading = true := by
      rw [isServer]
      exact Bool.false_ne_true
    obtain ⟨s', step⟩ : ∃ s', s.remove i sub = some s' := by
      rw [State.remove, if_neg free, if_pos isCancel]
      exact ⟨_, rfl⟩
    have removes := remove_removes step
    have isStep : s.step (.remove i) = some s' := by
      rw [sane.step_eq, State.act, known, Option.bind_some, step]
    rw [isCancel] at more
    refine ⟨.remove i, s', { sub with cancel := .removed }, ⟨todo, isServer⟩, isStep, removes.server, ?_,
      Nat.succ.inj more⟩
    rw [removes.subscription, Function.update_self]
  | removed =>
    have isOpen : ¬ sub.ch.closed = true := by
      rw [sane.consistent.closed i sub known, isCancel]
      decide
    have step : s.step (.closeChan i) =
        some (s.setSubscription i { sub with ch := { sub.ch with closed := true }, cancel := .returned }) := by
      rw [sane.step_eq, State.act, known, Option.bind_some, State.closeChan, if_pos isCancel, Chan.close, if_neg isOpen]
    rw [isCancel] at more
    exact ⟨.closeChan i, _, _, ⟨todo, isServer⟩, step, rfl, Function.update_self .., Nat.succ.inj more⟩
  | returned =>
    rw [isCancel] at more
    cases more

/-- A call of `cancel` that the server waits for comes to its end, wherever it is. -/
theorem Sane.finish_cancel (sane : Sane s) (isServer : s.server = .releasing (i :: todo))
    (known : s.subscription i = some sub) :
    ∃ s' sub', Proceeds s s' ∧ Sane s' ∧ s'.server = s.server ∧ s'.subscription i = some sub' ∧
      sub'.cancel = .returned := by
  generalize left : sub.cancel.rest = n
  induction n generalizing s sub with
  | zero =>
    refine ⟨s, sub, .refl, sane, rfl, known, ?_⟩
    cases isCancel : sub.cancel with
    | returned => rfl
    | _ => rw [isCancel] at left; cases left
  | succ n ih =>
    obtain ⟨e, s₁, sub₁, own, step, same, known₁, left₁⟩ := sane.cancel_step isServer known left
    obtain ⟨s', sub', proceeds, sane', same', rest⟩ :=
      ih (sane_invariant.step _ _ _ sane step) (same.trans isServer) known₁ left₁
    exact ⟨s', sub', .head ⟨e, own, step⟩ proceeds, sane', same'.trans same, rest⟩

theorem Sane.finish_releasing (sane : Sane s) (isServer : s.server = .releasing todo) :
    ∃ s', Proceeds s s' ∧ Sane s' ∧ s'.server = .idle := by
  induction todo generalizing s with
  | nil =>
    have step : s.step .release = some { s with server := .idle } := by
      rw [sane.step_eq, State.act, State.release, isServer]
    exact ⟨_, .single ⟨.release, trivial, step⟩, sane_invariant.step _ _ _ sane step, rfl⟩
  | cons i todo ih =>
    obtain ⟨sub, known⟩ := Option.isSome_iff_exists.mp
      (sane.orderly.scheduled i (by rw [isServer]; exact List.mem_cons_self))
    obtain ⟨s₁, sub₁, cancels, sane₁, same, known₁, returned⟩ := sane.finish_cancel isServer known
    have step : s₁.step .release = some { s₁ with server := .releasing todo } := by
      rw [sane₁.step_eq, State.act, State.release, same, isServer]
      simp only [known₁, Option.any_some, returned, decide_true, if_true]
    obtain ⟨s', proceeds, rest⟩ := ih (sane_invariant.step _ _ _ sane₁ step) rfl
    exact ⟨s', cancels.trans (.head ⟨.release, trivial, step⟩ proceeds), rest⟩

/-- Wherever a dispatch is, the server can bring it to its end. -/
theorem Sane.finish (sane : Sane s) : ∃ s', Proceeds s s' ∧ Sane s' ∧ s'.server = .idle := by
  cases isServer : s.server with
  | idle => exact ⟨s, .refl, sane, isServer⟩
  | sending info todo done =>
    obtain ⟨s₁, done', sends, sane₁, isReleasing⟩ := sane.finish_sending isServer
    obtain ⟨s', releases, rest⟩ := sane₁.finish_releasing isReleasing
    exact ⟨s', sends.trans releases, rest⟩
  | releasing todo => exact sane.finish_releasing isServer

end Progress

end Casm.Boot.Subscriptions
