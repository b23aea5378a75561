import Mathlib

/-- How a call of a Go function can end other than by returning a value: with
an error it hands to its caller, or with a panic that unwinds the caller too. -/
inductive Fault where
  | error (msg : String)
  | panic (msg : String)
  deriving DecidableEq, Repr

namespace Fault

/-- A caller that panics with whatever its callee reports. -/
def raise : Fault → Fault
  | error msg => panic msg
  | panic msg => panic msg

/-- A caller that puts what it was doing before the error of its callee. -/
def wrap (context : String) : Fault → Fault
  | error msg => error (context ++ msg)
  | panic msg => panic msg

end Fault

namespace Except

variable {ε α β : Type}

theorem ok_bind (a : α) (f : α → Except ε β) : (.ok a >>= f) = f a :=
  rfl

theorem bind_eq_ok {x : Except ε α} {f : α → Except ε β} {b : β} :
    x >>= f = .ok b ↔ ∃ a, x = .ok a ∧ f a = .ok b := by
  cases x with
  | error e => simp [Bind.bind, Except.bind]
  | ok a => simp [Bind.bind, Except.bind]

theorem map_eq_ok {x : Except ε α} {f : α → β} {b : β} : x.map f = .ok b ↔ ∃ a, x = .ok a ∧ f a = b := by
  cases x with
  | error e => simp [Except.map]
  | ok a => simp [Except.map]

theorem mapM_eq_ok {f : α → Except ε β} {l : List α} {l' : List β} :
    l.mapM f = .ok l' ↔ List.Forall₂ (fun a b => f a = .ok b) l l' := by
  induction l generalizing l' with
  | nil => cases l' <;> simp [pure, Except.pure]
  | cons a l ih =>
    rw [List.mapM_cons, bind_eq_ok]
    constructor
    · rintro ⟨b, isFirst, isRest⟩
      obtain ⟨bs, isMap, isList⟩ := bind_eq_ok.mp isRest
      cases isList
      exact .cons isFirst (ih.mp isMap)
    · intro each
      cases each with
      | cons isFirst isRest => exact ⟨_, isFirst, bind_eq_ok.mpr ⟨_, ih.mpr isRest, rfl⟩⟩

/-- The computation ends with a value or an error. -/
def NoPanic (x : Except Fault α) : Prop :=
  ∀ msg, x ≠ .error (.panic msg)

theorem noPanic_ok (a : α) : NoPanic (.ok a) :=
  nofun

theorem noPanic_error (msg : String) : NoPanic (.error (.error msg) : Except Fault α) :=
  nofun

theorem NoPanic.bind {x : Except Fault α} {f : α → Except Fault β} (first : x.NoPanic)
    (rest : ∀ a, x = .ok a → (f a).NoPanic) : (x >>= f).NoPanic := by
  cases x with
  | error fault =>
    intro msg same
    have equal : fault = .panic msg := Except.error.inj same
    exact first msg (congrArg Except.error equal)
  | ok a => exact rest a rfl

theorem NoPanic.mapM {f : α → Except Fault β} (each : ∀ a, (f a).NoPanic) (l : List α) :
    (l.mapM f).NoPanic := by
  induction l with
  | nil => exact noPanic_ok []
  | cons a rest ih =>
    rw [List.mapM_cons]
    exact (each a).bind fun b _ => ih.bind fun bs _ => noPanic_ok (b :: bs)

theorem NoPanic.error_cases {x : Except Fault α} (quiet : x.NoPanic) {fault : Fault}
    (failed : x = .error fault) : ∃ msg, fault = .error msg := by
  cases fault with
  | error msg => exact ⟨msg, rfl⟩
  | panic msg => exact absurd failed (quiet msg)

end Except
