import Casm.Lib.Machine

/-- Keys that each have an owner, and slots that each have a holder. Every key
has a slot, and several keys may have the same one. -/
@[ext]
structure Registry (K S O : Type) where
  owner : K → Option O
  holder : S → Option O

namespace Registry

variable {K S O : Type} [DecidableEq K] [DecidableEq S] (slot : K → S)

/-- A new owner of a key also takes the slot of the key, whoever held it. -/
def claim (r : Registry K S O) (k : K) (o : O) : Registry K S O where
  owner := Function.update r.owner k (some o)
  holder := Function.update r.holder (slot k) (some o)

/-- A key that is given up leaves its slot empty, whoever held it. -/
def release (r : Registry K S O) (k : K) : Registry K S O where
  owner := Function.update r.owner k none
  holder := Function.update r.holder (slot k) none

/-- Every owner of a key holds the key's slot. -/
def Held (r : Registry K S O) : Prop :=
  ∀ k o, r.owner k = some o → r.holder (slot k) = some o

/-- No owned key has the slot of `k`. -/
def Free (r : Registry K S O) (k : K) : Prop :=
  ∀ k' o, r.owner k' = some o → slot k' ≠ slot k

/-- The owners hold their slots and no two owned keys have the same one. -/
structure Settled (r : Registry K S O) : Prop where
  held : Held slot r
  apart : ∀ k k' o o', r.owner k = some o → r.owner k' = some o' → slot k = slot k' → k = k'

variable {slot} {r : Registry K S O} {k : K} {o : O}

omit [DecidableEq K] [DecidableEq S] in
theorem settled_of_unowned (unowned : ∀ k, r.owner k = none) : Settled slot r := by
  constructor
  · intro k o found
    rw [unowned k] at found
    cases found
  · intro k k' o o' found
    rw [unowned k] at found
    cases found

theorem Settled.claim (settled : Settled slot r) (free : Free slot r k) : Settled slot (r.claim slot k o) := by
  constructor
  · intro k' o' found
    rcases Function.update_cases found with ⟨same, value⟩ | ⟨_, before⟩
    · subst same
      rw [← value]
      exact Function.update_self ..
    · have kept := settled.held k' o' before
      rw [← kept]
      exact Function.update_of_ne (free k' o' before) ..
  · intro a b o₁ o₂ foundA foundB same
    rcases Function.update_cases foundA with ⟨isA, _⟩ | ⟨_, beforeA⟩ <;>
      rcases Function.update_cases foundB with ⟨isB, _⟩ | ⟨_, beforeB⟩
    · rw [isA, isB]
    · exact absurd (isA ▸ same.symm) (free b o₂ beforeB)
    · exact absurd (isB ▸ same) (free a o₁ beforeA)
    · exact settled.apart a b o₁ o₂ beforeA beforeB same

theorem Settled.release (settled : Settled slot r) (owned : r.owner k = some o) :
    Settled slot (r.release slot k) := by
  constructor
  · intro k' o' found
    rcases Function.update_cases found with ⟨_, value⟩ | ⟨other, before⟩
    · cases value
    · have apart : slot k' ≠ slot k := fun same => other (settled.apart k' k o' o before owned same)
      rw [← settled.held k' o' before]
      exact Function.update_of_ne apart ..
  · intro a b o₁ o₂ foundA foundB same
    rcases Function.update_cases foundA with ⟨_, value⟩ | ⟨_, beforeA⟩
    · cases value
    · rcases Function.update_cases foundB with ⟨_, value⟩ | ⟨_, beforeB⟩
      · cases value
      · exact settled.apart a b o₁ o₂ beforeA beforeB same

/-- A claim leaves a slot with two owned keys to the last of their owners. -/
theorem free_of_held_claim (unowned : r.owner k = none) (new : ∀ k', r.owner k' ≠ some o)
    (held : Held slot (r.claim slot k o)) : Free slot r k := by
  intro k' o' found same
  have other : k' ≠ k := by
    intro equal
    rw [equal, unowned] at found
    cases found
  have kept : (r.claim slot k o).owner k' = some o' := by
    rw [← found]
    exact Function.update_of_ne other ..
  have holds := held k' o' kept
  rw [same] at holds
  have taken : (r.claim slot k o).holder (slot k) = some o := Function.update_self ..
  rw [taken] at holds
  exact new k' (holds ▸ found)

end Registry
