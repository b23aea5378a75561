import Mathlib

/-- What a node has of something that spreads by exchanges. Each of its rounds takes what
the node knows in hand, sends it with the node itself, and gets what another round has
sent. -/
structure Spreader (P : Type*) where
  known : Finset P
  hand : Nat → Finset P
  sent : Nat → Finset P
  got : Nat → Finset P

abbrev Epidemic (P : Type*) := Nat → Spreader P

namespace Epidemic

/-- What a round `i` of a node `v` does. It pulls from a round `j` of a node `u`. -/
inductive Event where
  | load (v i : Nat)
  | push (v i : Nat)
  | pull (v i u j : Nat)
  | store (v i : Nat)
  deriving DecidableEq

end Epidemic

variable {P : Type*}

namespace Spreader

def empty : Spreader P where
  known := ∅
  hand _ := ∅
  sent _ := ∅
  got _ := ∅

/-- Wherever `s` has an element, `s'` has it too. -/
structure Within (s s' : Spreader P) : Prop where
  known : s.known ⊆ s'.known
  hand : ∀ i, s.hand i ⊆ s'.hand i
  sent : ∀ i, s.sent i ⊆ s'.sent i
  got : ∀ i, s.got i ⊆ s'.got i

theorem Within.refl (s : Spreader P) : Within s s :=
  ⟨subset_rfl, fun _ => subset_rfl, fun _ => subset_rfl, fun _ => subset_rfl⟩

theorem Within.trans {s s' s'' : Spreader P} (first : Within s s') (second : Within s' s'') : Within s s'' where
  known := first.known.trans second.known
  hand i := (first.hand i).trans (second.hand i)
  sent i := (first.sent i).trans (second.sent i)
  got i := (first.got i).trans (second.got i)

variable [DecidableEq P]

/-- Add elements to the set at one place. -/
def grow (f : Nat → Finset P) (i : Nat) (more : Finset P) : Nat → Finset P :=
  Function.update f i (f i ∪ more)

section Grow

variable {f : Nat → Finset P} {i j : Nat} {more : Finset P}

@[simp] theorem grow_self : grow f i more i = f i ∪ more :=
  Function.update_self ..

theorem grow_of_ne (other : j ≠ i) : grow f i more j = f j :=
  Function.update_of_ne other ..

theorem subset_grow (j : Nat) : f j ⊆ grow f i more j := by
  by_cases same : j = i
  · subst same
    rw [grow_self]
    exact Finset.subset_union_left
  · rw [grow_of_ne same]

theorem mem_grow_self {p : P} (member : p ∈ more) : p ∈ grow f i more i := by
  rw [grow_self]
  exact Finset.mem_union_right _ member

end Grow

def load (s : Spreader P) (i : Nat) : Spreader P :=
  { s with hand := grow s.hand i s.known }

def push (self : P) (s : Spreader P) (i : Nat) : Spreader P :=
  { s with sent := grow s.sent i (insert self (s.hand i)) }

def pull (s : Spreader P) (i : Nat) (received : Finset P) : Spreader P :=
  { s with got := grow s.got i received }

def store (self : P) (s : Spreader P) (i : Nat) : Spreader P :=
  { s with known := s.known ∪ (s.got i).erase self }

end Spreader

namespace Epidemic

variable [DecidableEq P]

def step (self : Nat → P) (s : Epidemic P) : Event → Epidemic P
  | .load v i => Function.update s v ((s v).load i)
  | .push v i => Function.update s v ((s v).push (self v) i)
  | .pull v i u j => Function.update s v ((s v).pull i ((s u).sent j))
  | .store v i => Function.update s v ((s v).store (self v) i)

def run (self : Nat → P) (s : Epidemic P) (events : List Event) : Epidemic P :=
  events.foldl (step self) s

variable {self : Nat → P} {s : Epidemic P} {p : P}

theorem run_append (s : Epidemic P) (events later : List Event) :
    run self s (events ++ later) = run self (run self s events) later :=
  List.foldl_append ..

theorem within_step (s : Epidemic P) (e : Event) (w : Nat) : (s w).Within (step self s e w) := by
  have one {v : Nat} {new : Spreader P} (within : (s v).Within new) : (s w).Within (Function.update s v new w) := by
    by_cases same : w = v
    · subst same
      rw [Function.update_self]
      exact within
    · rw [Function.update_of_ne same]
      exact .refl _
  cases e with
  | load v i => exact one ⟨subset_rfl, Spreader.subset_grow, fun _ => subset_rfl, fun _ => subset_rfl⟩
  | push v i => exact one ⟨subset_rfl, fun _ => subset_rfl, Spreader.subset_grow, fun _ => subset_rfl⟩
  | pull v i u j => exact one ⟨subset_rfl, fun _ => subset_rfl, fun _ => subset_rfl, Spreader.subset_grow⟩
  | store v i =>
    exact one ⟨Finset.subset_union_left, fun _ => subset_rfl, fun _ => subset_rfl, fun _ => subset_rfl⟩

theorem within_run (s : Epidemic P) (events : List Event) (w : Nat) : (s w).Within (run self s events w) := by
  induction events generalizing s with
  | nil => exact .refl _
  | cons e events ih => exact (within_step s e w).trans (ih (step self s e))

/-- What an event makes true wherever it is taken is true after all events, if it stays
true when sets grow. -/
theorem run_of_mem {Q : Epidemic P → Prop} (grows : ∀ s s', (∀ w, (s w).Within (s' w)) → Q s → Q s') {e : Event}
    {events : List Event} (member : e ∈ events) (made : ∀ s', (∀ w, (s w).Within (s' w)) → Q (step self s' e)) :
    Q (run self s events) := by
  obtain ⟨before, after, rfl⟩ := List.append_of_mem member
  rw [run_append]
  exact grows _ _ (within_run _ after) (made _ (within_run s before))

/-- The events by which a round `i` of a node `v` learns from a round `j` of a node `u`. -/
def exchange (u j v i : Nat) : List Event :=
  [.load u j, .push u j, .pull v i u j, .store v i]

/-- Whatever the one node knows when the exchange begins, the other knows at its end,
whatever else happens in between. -/
theorem known_of_exchange {u j v i : Nat} {events : List Event} (exchanged : (exchange u j v i).Sublist events)
    (other : p ≠ self v) (knows : p = self u ∨ p ∈ (s u).known) : p ∈ (run self s events v).known := by
  obtain ⟨loading, rest, rfl, load, exchanged⟩ := List.cons_sublist_iff.mp exchanged
  obtain ⟨pushing, rest, rfl, push, exchanged⟩ := List.cons_sublist_iff.mp exchanged
  obtain ⟨pulling, storing, rfl, pull, exchanged⟩ := List.cons_sublist_iff.mp exchanged
  have store := List.singleton_sublist.mp exchanged
  simp only [run_append]
  have loaded : p = self u ∨ p ∈ (run self s loading u).hand j := by
    refine knows.imp_right fun known => ?_
    refine run_of_mem (Q := fun s => p ∈ (s u).hand j) (fun _ _ within held => (within u).hand j held) load ?_
    intro s' within
    rw [step, Function.update_self]
    exact Spreader.mem_grow_self ((within u).known known)
  have pushed : p ∈ (run self (run self s loading) pushing u).sent j := by
    refine run_of_mem (Q := fun s => p ∈ (s u).sent j) (fun _ _ within held => (within u).sent j held) push ?_
    intro s' within
    rw [step, Function.update_self]
    refine Spreader.mem_grow_self (Finset.mem_insert.mpr (loaded.imp_right fun inHand => ?_))
    exact (within u).hand j inHand
  have pulled : p ∈ (run self (run self (run self s loading) pushing) pulling v).got i := by
    refine run_of_mem (Q := fun s => p ∈ (s v).got i) (fun _ _ within held => (within v).got i held) pull ?_
    intro s' within
    rw [step, Function.update_self]
    exact Spreader.mem_grow_self ((within u).sent j pushed)
  refine run_of_mem (Q := fun s => p ∈ (s v).known) (fun _ _ within held => (within v).known held) store ?_
  intro s' within
  rw [step, Function.update_self]
  exact Finset.mem_union_right _ (Finset.mem_erase.mpr ⟨other, (within v).got i pulled⟩)

/-- The events lead from one node to another by exchanges one after the other. -/
inductive Flows (u : Nat) : List Event → Nat → Prop
  | here {events : List Event} : Flows u events u
  | next {events later : List Event} {w j v i : Nat} : Flows u events w →
      (exchange w j v i).Sublist later → Flows u (events ++ later) v

theorem known_of_flows {u v : Nat} {events : List Event} (flows : Flows u events v) (other : p ≠ self v)
    (knows : p = self u ∨ p ∈ (s u).known) : p ∈ (run self s events v).known := by
  induction flows with
  | @here events =>
    rcases knows with same | known
    · exact absurd same other
    · exact (within_run s events u).known known
  | @next events later w j v i _ exchanged ih =>
    rw [run_append]
    refine known_of_exchange exchanged other ?_
    by_cases own : p = self w
    · exact .inl own
    · exact .inr (ih own)

end Epidemic
