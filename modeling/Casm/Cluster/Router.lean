import Casm.Lib.Fault
import Casm.Lib.Machine

namespace Casm.Cluster

/-- A clock, by whether its context has ended. -/
structure Clock where
  stopped : Bool

/-- The fields of a `Router` that its life cycle depends on. `announce` is whether
the channel was made, `started` whether the goroutines of `advance` and `heartbeat`
were. -/
structure Router where
  init : Bool
  relaying : Bool
  clock : Option Clock
  announce : Bool
  started : Bool

namespace Router

/-- A router as its user makes it, with a clock or without. -/
def new (clock : Option Clock) : Router where
  init := false
  relaying := false
  clock := clock
  announce := false
  started := false

def errClosing : Fault :=
  .error "closing"

def nilDereference : Fault :=
  .panic "invalid memory address or nil pointer dereference"

/-- The assignments of `setup`. -/
def assign (r : Router) : Router :=
  { r with clock := some (r.clock.getD ⟨false⟩), announce := true }

def setup (r : Router) : Router :=
  if r.init then r else { r with init := true }.assign

/-- `relay`, for an answer of `Topic.Relay`. The flag is set before the topic is asked. -/
def relay (r : Router) (topic : Except String Unit) : Router × Except Fault Unit :=
  let r := r.setup
  if r.relaying then (r, .ok ())
  else
    match topic with
    | .error msg => ({ r with relaying := true }, .error (.error msg))
    | .ok () => ({ r with relaying := true, started := true }, .ok ())

/-- How far a `Bootstrap` comes by itself: it returns, or it enters its select. -/
inductive Bootstrapping where
  | returned (result : Except Fault Unit)
  | selecting

/-- The test of the clock's context. -/
def checkClock (r : Router) : Bootstrapping :=
  match r.clock with
  | none => .returned (.error nilDereference)
  | some clock => if clock.stopped then .returned (.error errClosing) else .selecting

def bootstrap (r : Router) (topic : Except String Unit) : Router × Bootstrapping :=
  match r.relay topic with
  | (r, .error fault) => (r, .returned (.error fault))
  | (r, .ok ()) => (r, r.checkClock)

/-- `Clock.Stop`. -/
def stopClock (r : Router) : Router × Except Fault Unit :=
  match r.clock with
  | none => (r, .error nilDereference)
  | some _ => ({ r with clock := some ⟨true⟩ }, .ok ())

def stop (r : Router) : Router × Except Fault Unit :=
  if r.relaying then { r with relaying := true }.stopClock else ({ r with relaying := true }, .ok ())

/-- The calls, each with the answer that `Topic.Relay` gives if it is asked. -/
inductive Call where
  | bootstrap (topic : Except String Unit)
  | stop
  | id
  | view

/-- `ID` and `View` set the router up, and read fields that no call changes then. -/
def call (r : Router) : Call → Router
  | .bootstrap topic => (r.bootstrap topic).1
  | .stop => r.stop.1
  | .id => r.setup
  | .view => r.setup

def machine (clock : Option Clock) : Machine Router Call where
  start := new clock
  step r c := some (r.call c)

/-- The clock of the router has been stopped. -/
def stopped (r : Router) : Bool :=
  match r.clock with
  | none => false
  | some clock => clock.stopped

/-- The flag says that the goroutines were started or the clock was stopped. Then a
`Bootstrap` that waits has a receiver, one that comes after `Stop` is refused, and
`Stop` finds a clock. -/
structure Truthful (before : List Call) (r : Router) : Prop where
  flag : r.relaying = true → r.started = true ∨ r.stopped = true
  served : ∀ topic, (r.bootstrap topic).2 = .selecting → (r.bootstrap topic).1.started = true
  refused : .stop ∈ before → ∀ topic, (r.bootstrap topic).2 = .returned (.error errClosing)
  stoppable : r.stop.2.NoPanic

/-- The call does not set the flag, or it starts the goroutines, or the clock has
been stopped. -/
def Call.Justified (r : Router) : Call → Prop
  | .bootstrap topic => r.relaying = true ∨ r.stopped = true ∨ topic = .ok ()
  | .stop => r.relaying = true ∨ r.stopped = true
  | .id => True
  | .view => True

section Fields

variable {r : Router} {topic : Except String Unit}

theorem setup_relaying : r.setup.relaying = r.relaying := by
  rw [setup]
  split <;> rfl

theorem setup_started : r.setup.started = r.started := by
  rw [setup]
  split <;> rfl

theorem assign_stopped : r.assign.stopped = r.stopped := by
  cases clock : r.clock <;> simp [assign, stopped, clock]

theorem setup_stopped : r.setup.stopped = r.stopped := by
  rw [setup]
  split
  · rfl
  · exact assign_stopped

theorem bootstrap_relaying (relaying : r.relaying = true) :
    r.bootstrap topic = (r.setup, r.setup.checkClock) := by
  simp [bootstrap, relay, setup_relaying, relaying]

theorem bootstrap_fails (idle : r.relaying = false) (msg : String) :
    r.bootstrap (.error msg) = ({ r.setup with relaying := true }, .returned (.error (.error msg))) := by
  simp [bootstrap, relay, setup_relaying, idle]

theorem bootstrap_starts (idle : r.relaying = false) :
    r.bootstrap (.ok ()) = ({ r.setup with relaying := true, started := true }, r.setup.checkClock) := by
  simp only [bootstrap, relay, setup_relaying, idle]
  rfl

theorem stop_idle (idle : r.relaying = false) : r.stop = ({ r with relaying := true }, .ok ()) := by
  simp [stop, idle]

theorem stop_clock {clock : Clock} (relaying : r.relaying = true) (isSet : r.clock = some clock) :
    r.stop = ({ r with relaying := true, clock := some ⟨true⟩ }, .ok ()) := by
  simp [stop, stopClock, relaying, isSet]

theorem stop_unset (relaying : r.relaying = true) (unset : r.clock = none) :
    r.stop = ({ r with relaying := true }, .error nilDereference) := by
  simp [stop, stopClock, relaying, unset]

end Fields

/-- The clock is set once the router is set up, which it is before anything is started. -/
structure Sound (r : Router) : Prop where
  clock : r.init = true → r.clock.isSome
  started : r.started = true → r.relaying = true ∧ r.init = true

section Sound

variable {r : Router} {topic : Except String Unit} {before : List Call} {c : Call}

theorem isSome_of_stopped (stopped : r.stopped = true) : r.clock.isSome := by
  cases clock : r.clock with
  | none => simp [Router.stopped, clock] at stopped
  | some clock => rfl

theorem Sound.setup (sound : Sound r) : Sound r.setup ∧ r.setup.init = true := by
  rw [Router.setup]
  split
  case isTrue init => exact ⟨sound, init⟩
  case isFalse notInit =>
    refine ⟨⟨fun _ => rfl, fun started => ?_⟩, rfl⟩
    exact absurd (sound.started started).2 notInit

theorem Sound.checkClock (sound : Sound r) :
    r.setup.checkClock = if r.stopped then .returned (.error errClosing) else .selecting := by
  obtain ⟨ready, init⟩ := sound.setup
  obtain ⟨clock, isSet⟩ := Option.isSome_iff_exists.mp (ready.clock init)
  rw [← setup_stopped]
  simp only [Router.checkClock, Router.stopped, isSet]

theorem Sound.call (sound : Sound r) (c : Call) : Sound (r.call c) := by
  obtain ⟨ready, init⟩ := sound.setup
  cases c with
  | id => exact ready
  | view => exact ready
  | bootstrap topic =>
    show Sound (r.bootstrap topic).1
    cases relaying : r.relaying with
    | true =>
      rw [bootstrap_relaying relaying]
      exact ready
    | false =>
      cases topic with
      | error msg =>
        rw [bootstrap_fails relaying]
        exact ⟨ready.clock, fun started => ⟨rfl, (ready.started started).2⟩⟩
      | ok _ =>
        rw [bootstrap_starts relaying]
        exact ⟨ready.clock, fun _ => ⟨rfl, init⟩⟩
  | stop =>
    show Sound r.stop.1
    cases relaying : r.relaying with
    | false =>
      rw [stop_idle relaying]
      exact ⟨sound.clock, fun started => ⟨rfl, (sound.started started).2⟩⟩
    | true =>
      cases clock : r.clock with
      | none =>
        rw [stop_unset relaying clock]
        exact ⟨sound.clock, fun started => ⟨rfl, (sound.started started).2⟩⟩
      | some clock =>
        rw [stop_clock relaying clock]
        exact ⟨fun _ => rfl, fun started => ⟨rfl, (sound.started started).2⟩⟩

theorem sound_invariant (clock : Option Clock) : (machine clock).Invariant Sound where
  start := ⟨nofun, nofun⟩
  step r c r' sound step := by
    cases step
    exact sound.call c

/-- The flag means something, and `Stop` has stopped the clock. -/
def Settled (before : List Call) (r : Router) : Prop :=
  (r.relaying = true → r.started = true ∨ r.stopped = true) ∧
    (.stop ∈ before → r.relaying = true ∧ r.stopped = true)

theorem Settled.of_stopped (relaying : r.relaying = true) (stopped : r.stopped = true) : Settled before r :=
  ⟨fun _ => Or.inr stopped, fun _ => ⟨relaying, stopped⟩⟩

theorem Settled.setup (settled : Settled before r) (notStop : c ≠ .stop) : Settled (before ++ [c]) r.setup := by
  rw [Settled, setup_relaying, setup_started, setup_stopped]
  refine ⟨settled.1, fun isStopped => settled.2 ?_⟩
  exact (List.mem_append.mp isStopped).resolve_right fun last => notStop (List.mem_singleton.mp last).symm

theorem Settled.isSome (settled : Settled before r) (sound : Sound r) (relaying : r.relaying = true) :
    ∃ clock, r.clock = some clock := by
  refine Option.isSome_iff_exists.mp ?_
  rcases settled.1 relaying with started | stopped
  · exact sound.clock (sound.started started).2
  · exact isSome_of_stopped stopped

/-- A `Bootstrap` is refused whatever the topic answers only if it does not ask. -/
theorem Sound.stopped_of_refused (sound : Sound r)
    (refused : ∀ topic, (r.bootstrap topic).2 = .returned (.error errClosing)) :
    r.relaying = true ∧ r.stopped = true := by
  cases relaying : r.relaying with
  | false =>
    have failing := refused (.error "")
    rw [bootstrap_fails relaying] at failing
    simp [errClosing] at failing
  | true =>
    refine ⟨rfl, ?_⟩
    have closing := refused (.ok ())
    rw [bootstrap_relaying relaying, sound.checkClock] at closing
    by_contra running
    rw [if_neg running] at closing
    cases closing

theorem Settled.served (settled : Settled before r) (sound : Sound r)
    (selecting : (r.bootstrap topic).2 = .selecting) : (r.bootstrap topic).1.started = true := by
  cases relaying : r.relaying with
  | true =>
    rw [bootstrap_relaying relaying] at selecting ⊢
    rw [setup_started]
    refine (settled.1 relaying).resolve_right fun stopped => ?_
    rw [sound.checkClock, if_pos stopped] at selecting
    cases selecting
  | false =>
    cases topic with
    | error msg =>
      rw [bootstrap_fails relaying] at selecting
      cases selecting
    | ok _ => rw [bootstrap_starts relaying]

theorem Settled.refused (settled : Settled before r) (sound : Sound r) (isStopped : .stop ∈ before) :
    (r.bootstrap topic).2 = .returned (.error errClosing) := by
  obtain ⟨relaying, stopped⟩ := settled.2 isStopped
  rw [bootstrap_relaying relaying, sound.checkClock, if_pos stopped]

theorem Settled.stoppable (settled : Settled before r) (sound : Sound r) : r.stop.2.NoPanic := by
  cases relaying : r.relaying with
  | false =>
    rw [stop_idle relaying]
    exact Except.noPanic_ok ()
  | true =>
    obtain ⟨clock, isSet⟩ := settled.isSome sound relaying
    rw [stop_clock relaying isSet]
    exact Except.noPanic_ok ()

theorem Sound.truthful_iff (sound : Sound r) : Truthful before r ↔ Settled before r := by
  constructor
  · intro truthful
    exact ⟨truthful.flag, fun isStopped => sound.stopped_of_refused (truthful.refused isStopped)⟩
  · intro settled
    refine ⟨settled.1, fun topic => settled.served sound, fun isStopped topic => settled.refused sound isStopped, ?_⟩
    exact settled.stoppable sound

theorem Sound.not_started (sound : Sound r) (idle : r.relaying = false) : r.started = false := by
  by_contra started
  cases idle.symm.trans (sound.started (Bool.eq_true_of_not_eq_false started)).1

/-- The flag is set with nothing behind it unless the clock has been stopped. -/
theorem Sound.settled_set_iff (sound : Sound r) (idle : r.relaying = false) :
    Settled before { r with relaying := true } ↔ r.stopped = true := by
  constructor
  · intro settled
    refine (settled.1 rfl).resolve_left fun started => ?_
    cases (sound.not_started idle).symm.trans started
  · intro stopped
    exact .of_stopped rfl stopped

theorem Sound.settled_bootstrap_iff (sound : Sound r) (settled : Settled before r) (topic : Except String Unit) :
    Settled (before ++ [.bootstrap topic]) (r.bootstrap topic).1 ↔ (Call.bootstrap topic).Justified r := by
  cases relaying : r.relaying with
  | true =>
    rw [bootstrap_relaying relaying]
    exact iff_of_true (settled.setup nofun) (Or.inl relaying)
  | false =>
    cases topic with
    | ok _ =>
      rw [bootstrap_starts relaying]
      refine iff_of_true ⟨fun _ => Or.inl rfl, fun isStopped => ?_⟩ (Or.inr (Or.inr rfl))
      have earlier : .stop ∈ before :=
        (List.mem_append.mp isStopped).resolve_right fun last => by cases List.mem_singleton.mp last
      cases relaying.symm.trans (settled.2 earlier).1
    | error msg =>
      rw [bootstrap_fails relaying, sound.setup.1.settled_set_iff (setup_relaying.trans relaying), setup_stopped]
      simp [Call.Justified, relaying]

theorem Sound.settled_stop_iff (sound : Sound r) (settled : Settled before r) :
    Settled (before ++ [.stop]) r.stop.1 ↔ Call.stop.Justified r := by
  cases relaying : r.relaying with
  | true =>
    obtain ⟨clock, isSet⟩ := settled.isSome sound relaying
    rw [stop_clock relaying isSet]
    exact iff_of_true (.of_stopped rfl rfl) (Or.inl relaying)
  | false =>
    rw [stop_idle relaying, sound.settled_set_iff relaying]
    simp [Call.Justified, relaying]

theorem Sound.truthful_call_iff (sound : Sound r) (truthful : Truthful before r) :
    Truthful (before ++ [c]) (r.call c) ↔ c.Justified r := by
  have settled := sound.truthful_iff.mp truthful
  rw [(sound.call c).truthful_iff]
  cases c with
  | id => exact iff_of_true (settled.setup nofun) trivial
  | view => exact iff_of_true (settled.setup nofun) trivial
  | bootstrap topic => exact sound.settled_bootstrap_iff settled topic
  | stop => exact sound.settled_stop_iff settled

theorem new_truthful (clock : Option Clock) : Truthful [] (new clock) := by
  have sound := (sound_invariant clock).start
  exact sound.truthful_iff.mpr ⟨nofun, nofun⟩

end Sound

/-- The flag is truthful throughout a sequence of calls exactly when it is never set
in vain: `Topic.Relay` succeeds when it is asked, and `Stop` comes after that. -/
theorem truthful_iff_justified (clock : Option Clock) (calls : List Call) :
    (machine clock).Always Truthful calls ↔ (machine clock).Throughout (fun _ r c => c.Justified r) calls := by
  refine Machine.always_iff_throughout (sound_invariant clock) (new_truthful clock) ?_
  intro before r c r' sound truthful step
  cases step
  exact sound.truthful_call_iff truthful

/-- A relay that fails leaves the flag set, and the next call waits for a receiver
that was never started. `Stop` by itself sets the flag too: the next call waits as
well, and a second `Stop` has no clock to stop. -/
theorem flag_set_in_vain :
    (∃ r, (machine none).run [.bootstrap (.error "relay")] = some r ∧ ¬ Truthful [.bootstrap (.error "relay")] r ∧
        (r.bootstrap (.ok ())).2 = .selecting ∧ (r.bootstrap (.ok ())).1.started = false) ∧
      ∃ r, (machine none).run [.stop] = some r ∧ ¬ Truthful [.stop] r ∧
        (r.bootstrap (.ok ())).2 = .selecting ∧ r.stop.2 = .error nilDereference := by
  refine ⟨⟨_, rfl, fun truthful => ?_, rfl, rfl⟩, ⟨_, rfl, fun truthful => ?_, rfl, rfl⟩⟩
  · rcases truthful.flag rfl with started | stopped
    · cases started
    · cases stopped
  · rcases truthful.flag rfl with started | stopped
    · cases started
    · cases stopped

end Router

end Casm.Cluster
