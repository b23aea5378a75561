import Casm.Lib.Machine

namespace Machine

variable {S E T F : Type*}

/-- What the steps of a run emit, from a state on. -/
def traceFrom (M : Machine S E) (emit : S → E → List F) (s : S) : List E → List F
  | [] => []
  | e :: events =>
    match M.step s e with
    | some s' => emit s e ++ M.traceFrom emit s' events
    | none => []

def trace (M : Machine S E) (emit : S → E → List F) (events : List E) : List F :=
  M.traceFrom emit M.start events

/-- Each step is a series of steps of another machine on the states behind a map. -/
structure Refines (M : Machine S E) (N : Machine T F) (abs : S → T) (emit : S → E → List F) : Prop where
  start : abs M.start = N.start
  step : ∀ {s e s'}, M.step s e = some s' → (emit s e).foldlM N.step (abs s) = some (abs s')

variable {M : Machine S E} {N : Machine T F} {abs : S → T} {emit : S → E → List F} {events : List E} {s s' : S} {e : E}

theorem foldlM_singleton (step : M.step s e = some s') : [e].foldlM M.step s = some s' := by
  rw [foldlM_cons step]
  rfl

theorem traceFrom_concat (reached : events.foldlM M.step s = some s') (step : (M.step s' e).isSome) :
    M.traceFrom emit s (events ++ [e]) = M.traceFrom emit s events ++ emit s' e := by
  induction events generalizing s with
  | nil =>
    cases reached
    obtain ⟨after, isAfter⟩ := Option.isSome_iff_exists.mp step
    simp [traceFrom, isAfter]
  | cons first events ih =>
    rw [List.foldlM_cons] at reached
    obtain ⟨middle, isMiddle, rest⟩ := Option.bind_eq_some_iff.mp reached
    simp only [List.cons_append, traceFrom, isMiddle, ih rest, List.append_assoc]

theorem trace_concat (reached : M.run events = some s) (step : M.step s e = some s') :
    M.trace emit (events ++ [e]) = M.trace emit events ++ emit s e :=
  traceFrom_concat reached (Option.isSome_of_eq_some step)

/-- A run goes through the states of a run of the other machine. -/
theorem Refines.run (refines : M.Refines N abs emit) (reached : M.run events = some s) :
    N.run (M.trace emit events) = some (abs s) := by
  induction events using List.reverseRecOn generalizing s with
  | nil =>
    cases reached
    exact congrArg some refines.start.symm
  | append_singleton events e ih =>
    obtain ⟨before, isBefore, step⟩ := run_concat.mp reached
    rw [trace_concat isBefore step, run_append (ih isBefore)]
    exact refines.step step

theorem Refines.invariant (refines : M.Refines N abs emit) {P : T → Prop} (inv : N.Invariant P)
    (reached : M.run events = some s) : P (abs s) :=
  inv.run (refines.run reached)

/-- An event is emitted by a step of the run. -/
theorem mem_trace {f : F} (reached : M.run events = some s) (member : f ∈ M.trace emit events) :
    ∃ before e s₀, before ++ [e] <+: events ∧ M.run before = some s₀ ∧ (∃ s', M.step s₀ e = some s') ∧
      f ∈ emit s₀ e := by
  induction events using List.reverseRecOn generalizing s with
  | nil => cases member
  | append_singleton events e ih =>
    obtain ⟨s₀, isBefore, step⟩ := run_concat.mp reached
    rw [trace_concat isBefore step] at member
    rcases List.mem_append.mp member with old | new
    · obtain ⟨before, e', s₁, isBefore', rest⟩ := ih isBefore old
      exact ⟨before, e', s₁, isBefore'.trans (List.prefix_append _ _), rest⟩
    · exact ⟨events, e, s₀, List.prefix_rfl, isBefore, ⟨s, step⟩, new⟩

end Machine
