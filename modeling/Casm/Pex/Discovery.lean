import Casm.Lib.Machine
import Casm.Pex.Namespaces

namespace Casm.Pex.Discovery

/-- Where the goroutine of a tracker is. `advertising` is inside the call of the
discovery service, at the start or when the timer has fired; `checking` is the head
of the loop; `leaving` is before the deferred delete. -/
inductive Phase where
  | advertising
  | checking
  | selecting
  | leaving
  | gone
  deriving DecidableEq

/-- A tracker has a context of its own, made from the context of the caller that
started it. `canceled` says that its cancel function has been called. -/
structure Tracker where
  ns : Namespace
  parent : Nat
  canceled : Bool
  phase : Phase

/-- The map `advertising` has a cancel function for each namespace, given as the
number of its tracker. The contexts of the callers are numbered too, and
`ended` tells those that are done. -/
structure State where
  advertising : Namespace → Option Nat
  trackers : Nat → Option Tracker
  next : Nat
  ended : Nat → Bool

namespace State

def newDiscover : State where
  advertising _ := none
  trackers _ := none
  next := 0
  ended _ := false

/-- The context of the tracker is not done. -/
def live (s : State) (tr : Tracker) : Bool :=
  !tr.canceled && !s.ended tr.parent

def setTracker (s : State) (t : Nat) (tr : Tracker) : State :=
  { s with trackers := Function.update s.trackers t (some tr) }

/-- The entry of the map stays. -/
def stopTracking (s : State) (ns : Namespace) : State :=
  match s.advertising ns with
  | none => s
  | some t =>
    match s.trackers t with
    | none => s
    | some tr => s.setTracker t { tr with canceled := true }

def startTracking (s : State) (ctx : Nat) (ns : Namespace) : State :=
  { s.setTracker s.next ⟨ns, ctx, false, .advertising⟩ with
    advertising := Function.update s.advertising ns (some s.next)
    next := s.next + 1 }

def bootstrap (s : State) (ctx : Nat) (ns : Namespace) : State :=
  match s.advertising ns with
  | none => s.startTracking ctx ns
  | some _ => s

end State

/-- What the goroutine of a tracker does next. -/
inductive Tracker.Event where
  | advertised
  | check
  | timer
  | ctxDone
  | delete

/-- The deferred delete removes the entry of the namespace, whoever it belongs to. -/
def State.trackerStep (s : State) (t : Nat) (tr : Tracker) : Tracker.Event → Option State
  | .advertised => if tr.phase = .advertising then some (s.setTracker t { tr with phase := .checking }) else none
  | .check =>
    if tr.phase = .checking then
      some (s.setTracker t { tr with phase := if s.live tr then .selecting else .leaving })
    else none
  | .timer => if tr.phase = .selecting then some (s.setTracker t { tr with phase := .advertising }) else none
  | .ctxDone =>
    if tr.phase = .selecting ∧ s.live tr = false then some (s.setTracker t { tr with phase := .leaving }) else none
  | .delete =>
    if tr.phase = .leaving then
      some { s.setTracker t { tr with phase := .gone } with
        advertising := Function.update s.advertising tr.ns none }
    else none

/-- The functions hold the mutex from start to end. -/
inductive Event where
  | bootstrap (ctx : Nat) (ns : Namespace)
  | stopTracking (ns : Namespace)
  | cancel (ctx : Nat)
  | tracker (t : Nat) (e : Tracker.Event)

def State.step (s : State) : Event → Option State
  | .bootstrap ctx ns => some (s.bootstrap ctx ns)
  | .stopTracking ns => some (s.stopTracking ns)
  | .cancel ctx => some { s with ended := Function.update s.ended ctx true }
  | .tracker t e => (s.trackers t).bind fun tr => s.trackerStep t tr e

def machine : Machine State Event where
  start := State.newDiscover
  step := State.step

/-- `Bootstrap` has been called with the context for the namespace, and since then
`StopTracking` has not. -/
def Bootstrapped (history : List Event) (ctx : Nat) (ns : Namespace) : Prop :=
  ∃ before after, history = before ++ .bootstrap ctx ns :: after ∧ .stopTracking ns ∉ after

/-- Two trackers of one namespace are not both alive. -/
def State.Single (s : State) : Prop :=
  ∀ t t' tr tr', s.trackers t = some tr → s.trackers t' = some tr' → tr.phase ≠ .gone → tr'.phase ≠ .gone →
    tr.ns = tr'.ns → t = t'

/-- A tracker of the namespace is alive and its context is not done. -/
def State.Serves (s : State) (ns : Namespace) : Prop :=
  ∃ t tr, s.trackers t = some tr ∧ tr.ns = ns ∧ tr.phase ≠ .gone ∧ s.live tr = true

/-- A namespace that a live context has bootstrapped is served. -/
def Tracked (history : List Event) (s : State) : Prop :=
  ∀ ctx ns, Bootstrapped history ctx ns → s.ended ctx = false → s.Serves ns

/-- A live context that finds an entry finds one of a live tracker, and a context
that ends leaves no tracker dead that another live context relies on. -/
def Covered (history : List Event) (s : State) : Event → Prop
  | .bootstrap ctx ns => s.ended ctx = false → ∀ t tr, s.advertising ns = some t → s.trackers t = some tr →
      s.live tr = true
  | .cancel ctx => ∀ ns t tr, s.advertising ns = some t → s.trackers t = some tr → s.live tr = true →
      tr.parent = ctx → ∀ ctx', ctx' ≠ ctx → s.ended ctx' = false → ¬ Bootstrapped history ctx' ns
  | _ => True

variable {s s' : State} {t : Nat} {tr tr' : Tracker} {ctx : Nat} {ns : Namespace} {history : List Event}

theorem setTracker_self : (s.setTracker t tr).trackers t = some tr :=
  Function.update_self ..

theorem setTracker_of_ne {t' : Nat} (other : t' ≠ t) : (s.setTracker t tr).trackers t' = s.trackers t' :=
  Function.update_of_ne other ..

theorem setTracker_cases {t' : Nat} {found : Tracker} (known : (s.setTracker t tr).trackers t' = some found) :
    (t' = t ∧ found = tr) ∨ (t' ≠ t ∧ s.trackers t' = some found) :=
  (Function.update_cases known).imp_left fun ⟨same, isNew⟩ => ⟨same, (Option.some.inj isNew).symm⟩

/-- The entries of the map are the trackers that are alive, and a tracker leaves
only when its context is done. -/
structure Entered (s : State) : Prop where
  fresh : ∀ t, s.next ≤ t → s.trackers t = none
  entry : ∀ t tr, s.trackers t = some tr → tr.phase ≠ .gone → s.advertising tr.ns = some t
  tracker : ∀ ns t, s.advertising ns = some t → ∃ tr, s.trackers t = some tr ∧ tr.ns = ns ∧ tr.phase ≠ .gone
  done : ∀ t tr, s.trackers t = some tr → tr.phase = .leaving → s.live tr = false

theorem Entered.single (entered : Entered s) : s.Single := by
  intro t t' tr tr' known known' alive alive' same
  have entry := entered.entry t tr known alive
  have entry' := entered.entry t' tr' known' alive'
  rw [same, entry', Option.some.injEq] at entry
  exact entry.symm

theorem Entered.lt_next (entered : Entered s) (known : s.trackers t = some tr) : t < s.next := by
  by_contra notBelow
  rw [entered.fresh t (by omega)] at known
  cases known

/-- A tracker that stays alive and keeps its namespace stays entered. -/
theorem Entered.setTracker (entered : Entered s) (known : s.trackers t = some tr) (alive : tr.phase ≠ .gone)
    (sameNs : tr'.ns = tr.ns) (alive' : tr'.phase ≠ .gone) (done : tr'.phase = .leaving → s.live tr' = false) :
    Entered (s.setTracker t tr') := by
  constructor
  · intro t' notBelow
    have other : t' ≠ t := by
      have below := entered.lt_next known
      have notBelow : s.next ≤ t' := notBelow
      omega
    exact (setTracker_of_ne other).trans (entered.fresh t' notBelow)
  · intro t' found isFound isAlive
    rcases setTracker_cases isFound with ⟨same, isNew⟩ | ⟨_, before⟩
    · rw [same, isNew, sameNs]
      exact entered.entry t tr known alive
    · exact entered.entry t' found before isAlive
  · intro ns t' isEntry
    by_cases same : t' = t
    · obtain ⟨found, isFound, hasNs, _⟩ := entered.tracker ns t' isEntry
      rw [same, known, Option.some.injEq] at isFound
      exact ⟨tr', same ▸ setTracker_self, by rw [sameNs, isFound, hasNs], alive'⟩
    · obtain ⟨found, isFound, facts⟩ := entered.tracker ns t' isEntry
      exact ⟨found, (setTracker_of_ne same).trans isFound, facts⟩
  · intro t' found isFound leaving
    rcases setTracker_cases isFound with ⟨_, isNew⟩ | ⟨_, before⟩
    · rw [isNew] at leaving ⊢
      exact done leaving
    · exact entered.done t' found before leaving

theorem Entered.startTracking (entered : Entered s) (unused : s.advertising ns = none) (ctx : Nat) :
    Entered (s.startTracking ctx ns) := by
  have newKnown : (s.startTracking ctx ns).trackers s.next = some ⟨ns, ctx, false, .advertising⟩ := setTracker_self
  constructor
  · intro t notBelow
    have notBelow : s.next + 1 ≤ t := notBelow
    have other : t ≠ s.next := by omega
    exact (setTracker_of_ne other).trans (entered.fresh t (by omega))
  · intro t tr known alive
    rcases setTracker_cases known with ⟨same, isNew⟩ | ⟨_, before⟩
    · rw [same, isNew]
      exact Function.update_self ..
    · have entry := entered.entry t tr before alive
      have other : tr.ns ≠ ns := by
        intro same
        rw [same, unused] at entry
        cases entry
      exact (Function.update_of_ne other ..).trans entry
  · intro ns' t isEntry
    by_cases same : ns' = ns
    · have isNew : t = s.next := by
        rw [same] at isEntry
        exact (Option.some.inj ((Function.update_self ns _ _).symm.trans isEntry)).symm
      rw [isNew, same]
      exact ⟨_, newKnown, rfl, nofun⟩
    · obtain ⟨tr, known, facts⟩ := entered.tracker ns' t ((Function.update_of_ne same _ _).symm.trans isEntry)
      have other : t ≠ s.next := (entered.lt_next known).ne
      exact ⟨tr, (setTracker_of_ne other).trans known, facts⟩
  · intro t tr known leaving
    rcases setTracker_cases known with ⟨_, isNew⟩ | ⟨_, before⟩
    · rw [isNew] at leaving
      cases leaving
    · exact entered.done t tr before leaving

theorem Entered.delete (entered : Entered s) (known : s.trackers t = some tr) (alive : tr.phase ≠ .gone) :
    Entered { s.setTracker t { tr with phase := .gone } with
      advertising := Function.update s.advertising tr.ns none } := by
  have isEntered := entered.entry t tr known alive
  constructor
  · intro t' notBelow
    have other : t' ≠ t := by
      have below := entered.lt_next known
      have notBelow : s.next ≤ t' := notBelow
      omega
    exact (setTracker_of_ne other).trans (entered.fresh t' notBelow)
  · intro t' found isFound isAlive
    rcases setTracker_cases isFound with ⟨_, isNew⟩ | ⟨notSame, before⟩
    · rw [isNew] at isAlive
      exact absurd rfl isAlive
    · have entry := entered.entry t' found before isAlive
      have other : found.ns ≠ tr.ns := by
        intro same
        rw [same, isEntered, Option.some.injEq] at entry
        exact notSame entry.symm
      exact (Function.update_of_ne other ..).trans entry
  · intro ns t' isEntry
    by_cases same : ns = tr.ns
    · rw [same] at isEntry
      exact absurd ((Function.update_self tr.ns _ _).symm.trans isEntry) nofun
    · have before := (Function.update_of_ne same _ _).symm.trans isEntry
      obtain ⟨found, isFound, hasNs, isAlive⟩ := entered.tracker ns t' before
      have other : t' ≠ t := by
        intro isSame
        rw [isSame, known, Option.some.injEq] at isFound
        exact same (by rw [isFound, hasNs])
      exact ⟨found, (setTracker_of_ne other).trans isFound, hasNs, isAlive⟩
  · intro t' found isFound leaving
    rcases setTracker_cases isFound with ⟨_, isNew⟩ | ⟨_, before⟩
    · rw [isNew] at leaving
      cases leaving
    · exact entered.done t' found before leaving

theorem live_cancel : State.live { s with ended := Function.update s.ended ctx true } tr = true ↔
    s.live tr = true ∧ tr.parent ≠ ctx := by
  by_cases same : tr.parent = ctx
  · simp [State.live, same]
  · simp [State.live, same]

theorem Entered.cancel (entered : Entered s) (ctx : Nat) :
    Entered { s with ended := Function.update s.ended ctx true } where
  fresh := entered.fresh
  entry := entered.entry
  tracker := entered.tracker
  done t tr known leaving := by
    have done := entered.done t tr known leaving
    rw [Bool.eq_false_iff] at done ⊢
    exact fun isLive => done (live_cancel.mp isLive).1

theorem State.trackerStep_cases {e : Tracker.Event} (step : s.trackerStep t tr e = some s') :
    (∃ phase, s' = s.setTracker t { tr with phase := phase } ∧ tr.phase ≠ .gone ∧ phase ≠ .gone ∧
        (phase = .leaving → s.live tr = false)) ∨
      (tr.phase = .leaving ∧ s' = { s.setTracker t { tr with phase := .gone } with
        advertising := Function.update s.advertising tr.ns none }) := by
  cases e <;> simp only [State.trackerStep, Option.ite_none_right_eq_some, Option.some.injEq] at step
  case advertised =>
    exact Or.inl ⟨.checking, step.2.symm, by rw [step.1]; nofun, nofun, nofun⟩
  case check =>
    refine Or.inl ⟨_, step.2.symm, by rw [step.1]; nofun, ?_, ?_⟩
    · split
      · nofun
      · nofun
    · cases isLive : s.live tr with
      | true => nofun
      | false => exact fun _ => rfl
  case timer =>
    exact Or.inl ⟨.advertising, step.2.symm, by rw [step.1]; nofun, nofun, nofun⟩
  case ctxDone =>
    exact Or.inl ⟨.leaving, step.2.symm, by rw [step.1.1]; nofun, nofun, fun _ => step.1.2⟩
  case delete =>
    exact Or.inr ⟨step.1, step.2.symm⟩

/-- What `StopTracking` does: nothing, or it cancels the tracker of the entry. -/
theorem Entered.stopTracking_cases (entered : Entered s) (ns : Namespace) :
    (s.stopTracking ns = s) ∨ ∃ t tr, s.trackers t = some tr ∧ tr.ns = ns ∧ tr.phase ≠ .gone ∧
      s.stopTracking ns = s.setTracker t { tr with canceled := true } := by
  cases isEntry : s.advertising ns with
  | none =>
    left
    simp only [State.stopTracking, isEntry]
  | some t =>
    right
    obtain ⟨tr, known, hasNs, alive⟩ := entered.tracker ns t isEntry
    refine ⟨t, tr, known, hasNs, alive, ?_⟩
    simp only [State.stopTracking, isEntry, known]

theorem live_canceled : s.live { tr with canceled := true } = false := rfl

theorem entered_invariant : machine.Invariant Entered where
  start := by
    constructor
    · intro t _
      rfl
    · intro t tr known
      cases known
    · intro ns t isEntry
      cases isEntry
    · intro t tr known
      cases known
  step s e s' entered step := by
    cases e with
    | bootstrap ctx ns =>
      cases step
      cases isEntry : s.advertising ns with
      | none =>
        simp only [State.bootstrap, isEntry]
        exact entered.startTracking isEntry ctx
      | some t =>
        simp only [State.bootstrap, isEntry]
        exact entered
    | stopTracking ns =>
      cases step
      rcases entered.stopTracking_cases ns with same | ⟨t, tr, known, _, alive, stopped⟩
      · rw [same]
        exact entered
      · rw [stopped]
        exact entered.setTracker known alive rfl alive fun _ => live_canceled
    | cancel ctx =>
      cases step
      exact entered.cancel ctx
    | tracker t e =>
      obtain ⟨tr, known, moves⟩ := Option.bind_eq_some_iff.mp step
      rcases State.trackerStep_cases moves with ⟨phase, isNext, alive, alive', done⟩ | ⟨leaving, isNext⟩
      · rw [isNext]
        exact entered.setTracker known alive rfl alive' done
      · rw [isNext]
        exact entered.delete known (by rw [leaving]; nofun)

theorem bootstrapped_concat {e : Event} : Bootstrapped (history ++ [e]) ctx ns ↔
    e = .bootstrap ctx ns ∨ (e ≠ .stopTracking ns ∧ Bootstrapped history ctx ns) := by
  constructor
  · intro ⟨before, after, split, notStopped⟩
    rcases List.eq_nil_or_concat after with isNil | ⟨middle, last, isConcat⟩
    · subst isNil
      exact Or.inl (List.append_inj_right' split rfl |> List.head_eq_of_cons_eq)
    · subst isConcat
      rw [List.concat_eq_append] at split notStopped
      have parts : history = before ++ .bootstrap ctx ns :: middle ∧ [e] = [last] := by
        refine List.append_inj' ?_ rfl
        rw [split, List.append_assoc, List.cons_append]
      have isLast : e = last := List.head_eq_of_cons_eq parts.2
      refine Or.inr ⟨?_, before, middle, parts.1, fun member => notStopped (List.mem_append_left _ member)⟩
      intro isStop
      exact notStopped (by rw [← isStop, isLast]; simp)
  · intro isLast
    rcases isLast with isNew | ⟨notStop, before, after, split, notStopped⟩
    · exact ⟨history, [], by rw [isNew], List.not_mem_nil⟩
    · refine ⟨before, after ++ [e], by rw [split, List.append_assoc, List.cons_append], fun member => ?_⟩
      rcases List.mem_append.mp member with earlier | last
      · exact notStopped earlier
      · exact notStop (List.mem_singleton.mp last).symm

/-- The tracker that serves a namespace is the one of the entry. -/
theorem Entered.serves_iff (entered : Entered s) : s.Serves ns ↔
    ∃ t tr, s.advertising ns = some t ∧ s.trackers t = some tr ∧ s.live tr = true := by
  constructor
  · intro ⟨t, tr, known, hasNs, alive, isLive⟩
    exact ⟨t, tr, hasNs ▸ entered.entry t tr known alive, known, isLive⟩
  · intro ⟨t, tr, isEntry, known, isLive⟩
    obtain ⟨found, isFound, hasNs, alive⟩ := entered.tracker ns t isEntry
    rw [known, Option.some.injEq] at isFound
    subst isFound
    exact ⟨t, tr, known, hasNs, alive, isLive⟩

/-- A change of another tracker, or one that keeps the tracker alive and live, leaves
the namespace served. -/
theorem State.Serves.setTracker (serves : s.Serves ns) (known : s.trackers t = some tr)
    (kept : tr.ns = ns → tr.phase ≠ .gone → s.live tr = true → tr'.ns = ns ∧ tr'.phase ≠ .gone ∧ s.live tr' = true) :
    (s.setTracker t tr').Serves ns := by
  obtain ⟨t', found, isFound, hasNs, alive, isLive⟩ := serves
  by_cases same : t' = t
  · rw [same, known, Option.some.injEq] at isFound
    subst isFound
    exact ⟨t, tr', setTracker_self, kept hasNs alive isLive⟩
  · exact ⟨t', found, (setTracker_of_ne same).trans isFound, hasNs, alive, isLive⟩

theorem Entered.serves_startTracking (entered : Entered s) {ns' : Namespace} (serves : s.Serves ns') (ctx : Nat)
    (ns : Namespace) : (s.startTracking ctx ns).Serves ns' := by
  obtain ⟨t, tr, known, facts⟩ := serves
  have other : t ≠ s.next := (entered.lt_next known).ne
  exact ⟨t, tr, (setTracker_of_ne other).trans known, facts⟩

theorem tracked_bootstrap (entered : Entered s) (before : Tracked history s) :
    Tracked (history ++ [.bootstrap ctx ns]) (s.bootstrap ctx ns) ↔ Covered history s (.bootstrap ctx ns) := by
  cases isEntry : s.advertising ns with
  | none =>
    simp only [State.bootstrap, isEntry]
    refine iff_of_true ?_ ?_
    · intro ctx' ns' wanted isLive
      rcases bootstrapped_concat.mp wanted with isNew | ⟨_, earlier⟩
      · cases isNew
        refine ⟨s.next, _, setTracker_self, rfl, nofun, ?_⟩
        have isLive : s.ended ctx = false := isLive
        show (!false && !s.ended ctx) = true
        rw [isLive]
        rfl
      · exact entered.serves_startTracking (before ctx' ns' earlier isLive) ctx ns
    · intro _ t tr isEntry'
      rw [isEntry] at isEntry'
      cases isEntry'
  | some t =>
    simp only [State.bootstrap, isEntry]
    constructor
    · intro tracked isLive t' tr isEntry' known
      have serves := tracked ctx ns (bootstrapped_concat.mpr (Or.inl rfl)) isLive
      obtain ⟨t'', tr', isEntry'', known', isLive'⟩ := entered.serves_iff.mp serves
      rw [isEntry', Option.some.injEq] at isEntry''
      rw [← isEntry'', known, Option.some.injEq] at known'
      rw [known']
      exact isLive'
    · intro covered ctx' ns' wanted isLive
      rcases bootstrapped_concat.mp wanted with isNew | ⟨_, earlier⟩
      · cases isNew
        obtain ⟨tr, known, _, _⟩ := entered.tracker ns t isEntry
        exact entered.serves_iff.mpr ⟨t, tr, isEntry, known, covered isLive t tr isEntry known⟩
      · exact before ctx' ns' earlier isLive

theorem tracked_cancel (entered : Entered s) (before : Tracked history s) :
    Tracked (history ++ [.cancel ctx]) { s with ended := Function.update s.ended ctx true } ↔
      Covered history s (.cancel ctx) := by
  constructor
  · intro tracked ns t tr isEntry known _ isParent ctx' other isLive wanted
    have isLive' : Function.update s.ended ctx true ctx' = false := (Function.update_of_ne other ..).trans isLive
    obtain ⟨t', tr', known', hasNs, alive, serves⟩ :=
      tracked ctx' ns (bootstrapped_concat.mpr (Or.inr ⟨nofun, wanted⟩)) isLive'
    have isEntry' := entered.entry t' tr' known' alive
    rw [hasNs, isEntry, Option.some.injEq] at isEntry'
    have known' : s.trackers t' = some tr' := known'
    rw [← isEntry', known, Option.some.injEq] at known'
    exact (live_cancel.mp serves).2 (known' ▸ isParent)
  · intro covered ctx' ns wanted isLive
    have earlier : Bootstrapped history ctx' ns := by
      rcases bootstrapped_concat.mp wanted with isNew | ⟨_, earlier⟩
      · cases isNew
      · exact earlier
    have other : ctx' ≠ ctx := by
      intro same
      have ended : Function.update s.ended ctx true ctx' = true := by rw [same, Function.update_self]
      exact absurd (ended.symm.trans isLive) nofun
    have wasLive : s.ended ctx' = false := (Function.update_of_ne other _ _).symm.trans isLive
    obtain ⟨t, tr, known, hasNs, alive, serves⟩ := before ctx' ns earlier wasLive
    refine ⟨t, tr, known, hasNs, alive, live_cancel.mpr ⟨serves, fun isParent => ?_⟩⟩
    exact covered ns t tr (hasNs ▸ entered.entry t tr known alive) known serves isParent ctx' other wasLive earlier

theorem tracked_stopTracking (entered : Entered s) (before : Tracked history s) :
    Tracked (history ++ [.stopTracking ns]) (s.stopTracking ns) := by
  intro ctx ns' wanted isLive
  have earlier : ns' ≠ ns ∧ Bootstrapped history ctx ns' := by
    rcases bootstrapped_concat.mp wanted with isNew | ⟨notStop, earlier⟩
    · cases isNew
    · exact ⟨fun same => notStop (by rw [same]), earlier⟩
  rcases entered.stopTracking_cases ns with same | ⟨t, tr, known, hasNs, _, stopped⟩
  · rw [same] at isLive ⊢
    exact before ctx ns' earlier.2 isLive
  · rw [stopped] at isLive ⊢
    refine (before ctx ns' earlier.2 isLive).setTracker known fun isNs => ?_
    exact absurd (isNs.symm.trans hasNs) earlier.1

theorem tracked_trackerStep {e : Tracker.Event} (entered : Entered s) (before : Tracked history s)
    (known : s.trackers t = some tr) (step : s.trackerStep t tr e = some s') :
    Tracked (history ++ [.tracker t e]) s' := by
  intro ctx ns wanted isLive
  have earlier : Bootstrapped history ctx ns := by
    rcases bootstrapped_concat.mp wanted with isNew | ⟨_, earlier⟩
    · cases isNew
    · exact earlier
  rcases State.trackerStep_cases step with ⟨phase, isNext, _, alive', _⟩ | ⟨leaving, isNext⟩
  · rw [isNext] at isLive ⊢
    exact (before ctx ns earlier isLive).setTracker known fun isNs _ serves => ⟨isNs, alive', serves⟩
  · rw [isNext] at isLive ⊢
    refine (before ctx ns earlier isLive).setTracker known fun _ _ serves => ?_
    rw [entered.done t tr known leaving] at serves
    cases serves

/-- A step leaves a bootstrapped namespace without a tracker exactly when it is not covered. -/
theorem tracked_step {e : Event} (entered : Entered s) (before : Tracked history s) (step : s.step e = some s') :
    Tracked (history ++ [e]) s' ↔ Covered history s e := by
  cases e with
  | bootstrap ctx ns =>
    cases step
    exact tracked_bootstrap entered before
  | stopTracking ns =>
    cases step
    exact iff_of_true (tracked_stopTracking entered before) trivial
  | cancel ctx =>
    cases step
    exact tracked_cancel entered before
  | tracker t e =>
    obtain ⟨tr, known, moves⟩ := Option.bind_eq_some_iff.mp step
    exact iff_of_true (tracked_trackerStep entered before known moves) trivial

theorem tracked_newDiscover : Tracked [] State.newDiscover := by
  intro ctx ns ⟨before, after, split, _⟩
  simp at split

/-- In every run a namespace has at most one tracker that is alive; every namespace
that a live context has bootstrapped is tracked throughout exactly when every step
of the run is covered. -/
theorem single_and_tracked_iff_covered (events : List Event) :
    machine.Always (fun history s => s.Single ∧ Tracked history s) events ↔
      machine.Throughout Covered events := by
  refine Machine.always_iff_throughout entered_invariant ⟨entered_invariant.start.single, tracked_newDiscover⟩ ?_
  intro history s e s' entered before step
  have entered' := entered_invariant.step s e s' entered step
  rw [← tracked_step entered before.2 step]
  exact and_iff_right entered'.single

/-- The first caller's context ends. Its tracker is still entered when the second
caller bootstraps, so that none is started. -/
theorem untracked_after_bootstrap : ∃ s, machine.run [.bootstrap 0 [97], .cancel 0, .bootstrap 1 [97]] = some s ∧
    ¬ Tracked [.bootstrap 0 [97], .cancel 0, .bootstrap 1 [97]] s := by
  refine ⟨_, rfl, fun tracked => ?_⟩
  obtain ⟨t, tr, known, _, _, isLive⟩ := tracked 1 [97] ⟨[.bootstrap 0 [97], .cancel 0], [], rfl, List.not_mem_nil⟩ rfl
  rcases setTracker_cases known with ⟨_, isFirst⟩ | ⟨_, before⟩
  · rw [isFirst] at isLive
    cases isLive
  · cases before

end Casm.Pex.Discovery
