import Casm.Lib.Machine

namespace Machine

variable {S E V : Type*}

/-- One place of the state that some events write, some clear for certain values,
and all others leave alone, as far as they meet a condition. -/
structure Register (M : Machine S E) (C : S → E → Prop) (read : S → Option V) (Writes : S → E → V → Prop)
    (Clears : E → V → Prop) : Prop where
  start : read M.start = none
  written : ∀ {s e s' v}, C s e → M.step s e = some s' → Writes s e v → read s' = some v
  kept : ∀ {s e s' v}, C s e → M.step s e = some s' → (∀ w, ¬ Writes s e w) →
    (read s' = some v ↔ read s = some v ∧ ¬ Clears e v)

/-- The value was written by an event of the run, and no event since has written
another or cleared it. -/
def Last (M : Machine S E) (Writes : S → E → V → Prop) (Clears : E → V → Prop) (events : List E) (v : V) : Prop :=
  ∃ before e after s, events = before ++ e :: after ∧ M.run before = some s ∧ Writes s e v ∧
    ∀ mid e' rest s', after = mid ++ e' :: rest → M.run (before ++ e :: mid) = some s' →
      (∀ w, ¬ Writes s' e' w) ∧ ¬ Clears e' v

variable {M : Machine S E} {C : S → E → Prop} {read : S → Option V} {Writes : S → E → V → Prop}
  {Clears : E → V → Prop} {events : List E} {s : S} {e : E} {v : V}

theorem not_last_nil : ¬ M.Last Writes Clears [] v := by
  rintro ⟨before, e, after, s, split, -⟩
  cases List.append_eq_nil_iff.mp split.symm |>.2

/-- After one more event the value is the one that it writes, or the one there was,
if the event neither writes nor clears. -/
theorem last_concat (reached : M.run events = some s) : M.Last Writes Clears (events ++ [e]) v ↔
    Writes s e v ∨ ((∀ w, ¬ Writes s e w) ∧ M.Last Writes Clears events v ∧ ¬ Clears e v) := by
  constructor
  · rintro ⟨before, e₀, after, s₀, split, isBefore, isWrite, since⟩
    rcases List.eq_nil_or_concat' after with rfl | ⟨after, last, rfl⟩
    · obtain ⟨rfl, same⟩ := List.append_inj' split rfl
      cases same
      cases reached.symm.trans isBefore
      exact .inl isWrite
    · rw [← List.cons_append, ← List.append_assoc] at split
      obtain ⟨rfl, same⟩ := List.append_inj' split rfl
      cases same
      obtain ⟨noWrite, noClear⟩ := since after e [] s rfl reached
      refine .inr ⟨noWrite, ⟨before, e₀, after, s₀, rfl, isBefore, isWrite, ?_⟩, noClear⟩
      rintro mid e' rest s' rfl
      exact since mid e' (rest ++ [e]) s' (List.append_assoc ..)
  · rintro (isWrite | ⟨noWrite, ⟨before, e₀, after, s₀, rfl, isBefore, isWrite, since⟩, noClear⟩)
    · refine ⟨events, e, [], s, rfl, reached, isWrite, ?_⟩
      intro mid e' rest s' split
      cases List.append_eq_nil_iff.mp split.symm |>.2
    · refine ⟨before, e₀, after ++ [e], s₀, by simp, isBefore, isWrite, ?_⟩
      intro mid e' rest s' split isMid
      rcases List.eq_nil_or_concat' rest with rfl | ⟨rest, last, rfl⟩
      · obtain ⟨rfl, same⟩ := List.append_inj' split rfl
        cases same
        cases reached.symm.trans isMid
        exact ⟨noWrite, noClear⟩
      · rw [← List.cons_append, ← List.append_assoc] at split
        exact since mid e' rest s' (List.append_inj' split rfl).1 isMid

theorem run_front {later : List E} (reached : M.run (events ++ later) = some s) : ∃ s₀, M.run events = some s₀ := by
  rw [run, List.foldlM_append] at reached
  obtain ⟨s₀, isFront, _⟩ := Option.bind_eq_some_iff.mp reached
  exact ⟨s₀, isFront⟩

/-- An event of a run is a step from where the events before it lead. -/
theorem step_of_run {later : List E} (reached : M.run (events ++ e :: later) = some s) {s₀ : S}
    (isFront : M.run events = some s₀) : ∃ s₁, M.step s₀ e = some s₁ := by
  rw [run_append isFront, List.foldlM_cons] at reached
  obtain ⟨s₁, step, _⟩ := Option.bind_eq_some_iff.mp reached
  exact ⟨s₁, step⟩

/-- What the start has and the admissible events keep holds after a run of them. -/
theorem run_of_admissible {Inv : S → Prop} {A : E → Prop} (start : Inv M.start)
    (kept : ∀ s e s', Inv s → A e → M.step s e = some s' → Inv s') (admissible : ∀ e ∈ events, A e)
    (reached : M.run events = some s) : Inv s := by
  induction events using List.reverseRecOn generalizing s with
  | nil =>
    cases reached
    exact start
  | append_singleton events e ih =>
    obtain ⟨s₀, isBefore, step⟩ := run_concat.mp reached
    refine kept s₀ e s (ih (fun e' member => ?_) isBefore) (admissible e (by simp)) step
    exact admissible e' (List.mem_append_left _ member)

/-- Where every event is admissible, so is every state on the way. -/
theorem throughout_of_admissible {Inv : S → Prop} {A : E → Prop} (start : Inv M.start)
    (kept : ∀ s e s', Inv s → A e → M.step s e = some s' → Inv s') (admissible : ∀ e ∈ events, A e) :
    M.Throughout (fun _ s e => Inv s ∧ A e) events := by
  intro before e s s' inside reached _
  refine ⟨run_of_admissible start kept (fun e' member => ?_) reached, ?_⟩
  · exact admissible e' (inside.subset (List.mem_append_left _ member))
  · exact admissible e (inside.subset (by simp))

/-- What the place holds after a run is what was last written there. -/
theorem Register.read_iff (reg : M.Register C read Writes Clears) (met : M.Throughout (fun _ => C) events)
    (reached : M.run events = some s) : read s = some v ↔ M.Last Writes Clears events v := by
  induction events using List.reverseRecOn generalizing s v with
  | nil =>
    cases reached
    refine iff_of_false ?_ not_last_nil
    rw [show read M.start = none from reg.start]
    exact nofun
  | append_singleton events e ih =>
    obtain ⟨s₀, isBefore, step⟩ := run_concat.mp reached
    obtain ⟨earlier, last⟩ := throughout_concat.mp met
    have holds := last s₀ s isBefore step
    rw [last_concat isBefore]
    by_cases wrote : ∃ w, Writes s₀ e w
    · obtain ⟨w, isWrite⟩ := wrote
      have isRead := reg.written holds step isWrite
      constructor
      · intro found
        cases isRead.symm.trans found
        exact .inl isWrite
      · rintro (isWrite' | ⟨noWrite, -⟩)
        · exact reg.written holds step isWrite'
        · exact absurd isWrite (noWrite w)
    · have noWrite : ∀ w, ¬ Writes s₀ e w := not_exists.mp wrote
      rw [reg.kept holds step noWrite, ih earlier isBefore, or_iff_right (noWrite v), and_iff_right noWrite]

end Machine
