import Mathlib

variable {S E : Type*}

/-- Steps of a relation one after the other, with their events. Unlike the events of a
machine, these need not determine the next state. -/
inductive Steps (R : S → E → S → Prop) : S → List E → S → Prop
  | nil {s : S} : Steps R s [] s
  | cons {s s' s'' : S} {e : E} {events : List E} : R s e s' → Steps R s' events s'' → Steps R s (e :: events) s''

namespace Steps

variable {R : S → E → S → Prop} {s s' s'' : S} {e : E} {events later : List E}

theorem cons_iff : Steps R s (e :: events) s'' ↔ ∃ s', R s e s' ∧ Steps R s' events s'' := by
  constructor
  · intro steps
    cases steps with
    | cons step rest => exact ⟨_, step, rest⟩
  · rintro ⟨s', step, rest⟩
    exact .cons step rest

theorem nil_iff : Steps R s [] s' ↔ s = s' := by
  constructor
  · intro steps
    cases steps
    rfl
  · rintro rfl
    exact .nil

theorem append_iff : Steps R s (events ++ later) s'' ↔ ∃ s', Steps R s events s' ∧ Steps R s' later s'' := by
  induction events generalizing s with
  | nil => simp [nil_iff]
  | cons e events ih =>
    simp only [List.cons_append, cons_iff, ih]
    constructor
    · rintro ⟨s₁, step, s₂, rest, more⟩
      exact ⟨s₂, ⟨s₁, step, rest⟩, more⟩
    · rintro ⟨s₂, ⟨s₁, step, rest⟩, more⟩
      exact ⟨s₁, step, s₂, rest, more⟩

theorem concat_iff : Steps R s (events ++ [e]) s'' ↔ ∃ s', Steps R s events s' ∧ R s' e s'' := by
  simp [append_iff, cons_iff, nil_iff]

/-- What every allowed step keeps holds after the steps. -/
theorem kept {P : S → Prop} {A : E → Prop} (steps : Steps R s events s')
    (step : ∀ s e s', P s → A e → R s e s' → P s') (allowed : ∀ e ∈ events, A e) (holds : P s) : P s' := by
  induction steps with
  | nil => exact holds
  | cons first _ ih =>
    refine ih (fun e member => allowed e (List.mem_cons_of_mem _ member)) ?_
    exact step _ _ _ holds (allowed _ List.mem_cons_self) first

end Steps
