import Mathlib

/-- One part of a state is set, the others are as before. -/
theorem Function.update_cases {α β : Type*} [DecidableEq α] {f : α → β} {a a' : α} {b b' : β}
    (found : Function.update f a b a' = b') : (a' = a ∧ b = b') ∨ (a' ≠ a ∧ f a' = b') := by
  by_cases same : a' = a
  · rw [same, Function.update_self] at found
    exact Or.inl ⟨same, found⟩
  · rw [Function.update_of_ne same] at found
    exact Or.inr ⟨same, found⟩

/-- A system that takes one step after another. An event says what happens next,
with every choice that the system leaves open; the step is `none` where the event
cannot happen. -/
structure Machine (S E : Type*) where
  start : S
  step : S → E → Option S

namespace Machine

variable {S E : Type*} (M : Machine S E)

def run (events : List E) : Option S :=
  events.foldlM M.step M.start

/-- The property holds in every state that the run goes through. It may also speak
of the events that led there. -/
def Always (P : List E → S → Prop) (events : List E) : Prop :=
  ∀ before s, before <+: events → M.run before = some s → P before s

/-- Every step of the run is taken where the condition allows it. -/
def Throughout (C : List E → S → E → Prop) (events : List E) : Prop :=
  ∀ before e s s', before ++ [e] <+: events → M.run before = some s → M.step s e = some s' → C before s e

/-- Some steps lead from one state to the other. -/
def Reaches (s s' : S) : Prop :=
  ∃ events : List E, events.foldlM M.step s = some s'

/-- The property holds at the start and every step keeps it. -/
structure Invariant (P : S → Prop) : Prop where
  start : P M.start
  step : ∀ s e s', P s → M.step s e = some s' → P s'

theorem invariant_true : M.Invariant fun _ => True where
  start := trivial
  step _ _ _ _ _ := trivial

variable {M} {P : S → Prop} {events : List E} {s s' : S} {e : E}

theorem run_concat : M.run (events ++ [e]) = some s' ↔ ∃ s, M.run events = some s ∧ M.step s e = some s' := by
  rw [run, List.foldlM_append]
  simp only [List.foldlM_cons, List.foldlM_nil]
  exact Option.bind_eq_some_iff.trans (by simp [run])

theorem foldlM_cons {events : List E} (step : M.step s e = some s') :
    (e :: events).foldlM M.step s = events.foldlM M.step s' := by
  rw [List.foldlM_cons, step]
  rfl

theorem run_append {later : List E} (reached : M.run events = some s) :
    M.run (events ++ later) = later.foldlM M.step s := by
  rw [run] at reached ⊢
  rw [List.foldlM_append, reached]
  rfl

/-- What every step keeps also holds of the states that come later. -/
theorem run_later (kept : ∀ s e s', P s → M.step s e = some s' → P s') (reached : M.run events = some s)
    (holds : P s) {later : List E} (ends : M.run (events ++ later) = some s') : P s' := by
  induction later using List.reverseRecOn generalizing s' with
  | nil =>
    rw [List.append_nil, reached] at ends
    exact Option.some.inj ends ▸ holds
  | append_singleton later e ih =>
    rw [← List.append_assoc] at ends
    obtain ⟨middle, isMiddle, step⟩ := run_concat.mp ends
    exact kept middle e s' (ih isMiddle) step

theorem run_nil : M.run [] = some M.start :=
  rfl

theorem Invariant.run (inv : M.Invariant P) (reached : M.run events = some s) : P s :=
  run_later inv.step run_nil inv.start reached

theorem Reaches.refl (s : S) : M.Reaches s s :=
  ⟨[], rfl⟩

theorem Reaches.single (step : M.step s e = some s') : M.Reaches s s' :=
  ⟨[e], by simp [step]⟩

theorem Reaches.trans {s'' : S} (first : M.Reaches s s') (second : M.Reaches s' s'') : M.Reaches s s'' := by
  obtain ⟨events, isRun⟩ := first
  obtain ⟨later, isLater⟩ := second
  refine ⟨events ++ later, ?_⟩
  rw [List.foldlM_append, isRun]
  exact isLater

/-- What every step keeps holds wherever the steps lead. -/
theorem Reaches.kept (kept : ∀ s e s', P s → M.step s e = some s' → P s') (reaches : M.Reaches s s') (holds : P s) :
    P s' := by
  obtain ⟨events, isRun⟩ := reaches
  induction events generalizing s with
  | nil => exact Option.some.inj isRun ▸ holds
  | cons e events ih =>
    rw [List.foldlM_cons] at isRun
    obtain ⟨middle, step, rest⟩ := Option.bind_eq_some_iff.mp isRun
    exact ih (kept s e middle holds step) rest

theorem throughout_nil {C : List E → S → E → Prop} : M.Throughout C [] := by
  intro before e s s' isBefore
  cases List.append_eq_nil_iff.mp (List.prefix_nil.mp isBefore) |>.2

theorem throughout_concat {C : List E → S → E → Prop} : M.Throughout C (events ++ [e]) ↔
    M.Throughout C events ∧ ∀ s s', M.run events = some s → M.step s e = some s' → C events s e := by
  constructor
  · intro met
    refine ⟨fun before e' s s' isBefore => ?_, fun s s' => met events e s s' List.prefix_rfl⟩
    exact met before e' s s' (isBefore.trans (List.prefix_append events [e]))
  · intro ⟨met, last⟩ before e' s s' isBefore reached step
    rcases List.prefix_concat_iff.mp isBefore with whole | shorter
    · obtain ⟨same, isLast⟩ := List.append_inj' whole rfl
      cases isLast
      subst same
      exact last s s' reached step
    · exact met before e' s s' shorter reached step

/-- A property holds throughout a run if every step meets a condition under which
it keeps the property. -/
theorem always_of_throughout {Inv : S → Prop} {P : List E → S → Prop} {C : List E → S → E → Prop}
    (inv : M.Invariant Inv) (start : P [] M.start)
    (kept : ∀ before s e s', Inv s → P before s → C before s e → M.step s e = some s' → P (before ++ [e]) s')
    (met : M.Throughout C events) : M.Always P events := by
  intro before s isBefore reached
  induction before using List.reverseRecOn generalizing s with
  | nil => exact Option.some.inj reached ▸ start
  | append_singleton before e ih =>
    obtain ⟨middle, isMiddle, step⟩ := run_concat.mp reached
    have holds := ih middle ((List.prefix_append before [e]).trans isBefore) isMiddle
    exact kept before middle e s (inv.run isMiddle) holds (met before e middle s isBefore isMiddle step) step

/-- If a step keeps the property exactly under the condition, then the runs with
the property throughout are those whose steps all meet the condition. -/
theorem always_iff_throughout {Inv : S → Prop} {P : List E → S → Prop} {C : List E → S → E → Prop}
    (inv : M.Invariant Inv) (start : P [] M.start)
    (exact : ∀ before s e s', Inv s → P before s → M.step s e = some s' → (P (before ++ [e]) s' ↔ C before s e)) :
    M.Always P events ↔ M.Throughout C events := by
  constructor
  · intro always before e s s' isBefore reached step
    have holds := always before s ((List.prefix_append before [e]).trans isBefore) reached
    have after := always (before ++ [e]) s' isBefore (run_concat.mpr ⟨s, reached, step⟩)
    exact (exact before s e s' (inv.run reached) holds step).mp after
  · intro met
    refine always_of_throughout inv start ?_ met
    intro before s e s' holds earlier allowed step
    exact (exact before s e s' holds earlier step).mpr allowed

end Machine
