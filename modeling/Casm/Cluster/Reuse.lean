import Casm.Cluster.Constraints
import Casm.Lib.Machine

namespace Casm.Query.Stateful
open Routing

/-- A selector that has been evaluated, the iterator as it was returned and as it is
now, and what the calls of `Next` have returned. -/
structure Evaluation where
  q : Snapshot
  sel : Selector Chain
  returned : Chain
  it : Iterator returned.stages
  results : List (Except Fault (Option DeadlineRecord))

/-- Queries that share the constraints of a program. -/
structure World where
  heap : Heap
  evaluations : Nat → Option Evaluation

inductive Event where
  | evaluate (i : Nat) (q : Snapshot) (sel : Selector Chain)
  | next (i : Nat)

def Evaluation.next (e : Evaluation) (h : Heap) : Evaluation where
  q := e.q
  sel := e.sel
  returned := e.returned
  it := (Iterator.next e.returned.stages (e.it, h)).2.1
  results := e.results ++ [(Iterator.next e.returned.stages (e.it, h)).1]

def World.step (w : World) : Event → Option World
  | .evaluate i q sel =>
    match w.evaluations i with
    | some _ => none
    | none =>
      match sel q with
      | .error _ => some w
      | .ok it => some ⟨w.heap, Function.update w.evaluations i (some ⟨q, sel, it, it.it, []⟩)⟩
  | .next i =>
    match w.evaluations i with
    | none => none
    | some e => some ⟨(Iterator.next e.returned.stages (e.it, w.heap)).2.2,
        Function.update w.evaluations i (some (e.next w.heap))⟩

/-- The program, with the closures as its constraints have made them. -/
def program (made : Heap) : Machine World Event where
  start := ⟨made, fun _ => none⟩
  step := World.step

/-- The results of a query that nothing else is done with. -/
def alone (made : Heap) (q : Snapshot) (sel : Selector Chain) (n : Nat) :
    Except Fault (List (Except Fault (Option DeadlineRecord))) := do
  let it ← sel q
  return Pull.calls (Iterator.next it.stages) n (it.it, made)

/-- Every query has the results that it would have alone. So a selector that is
evaluated twice on a snapshot has the same results both times. -/
structure Reusable (made : Heap) (w : World) : Prop where
  alone : ∀ i e, w.evaluations i = some e → alone made e.q e.sel e.results.length = .ok e.results
  twice : ∀ i j e e', w.evaluations i = some e → w.evaluations j = some e' → e.q = e'.q → e.sel = e'.sel →
    e.results.length ≤ e'.results.length → e.results <+: e'.results

/-- A function without variables. -/
def isPure : Predicate → Bool
  | .matcher _ => true
  | .limit _ | .leq _ _ => false

/-- The selector that is evaluated has no `Limit`, `First` or `To` that another one
has which has been evaluated. -/
def UsedOnce (made : Heap) (w : World) : Event → Prop
  | .evaluate _ q sel => ∀ it, sel q = .ok it → ∀ c ∈ cells it.stages, isPure (made c) = false →
      ∀ i e, w.evaluations i = some e → c ∉ cells e.returned.stages
  | .next _ => True

/-- Every query goes its own way: its cells are as if it were alone, and cells with
variables belong to one query only. -/
structure Separate (made : Heap) (w : World) : Prop where
  returned : ∀ i e, w.evaluations i = some e → e.sel e.q = .ok e.returned
  results : ∀ i e, w.evaluations i = some e →
    e.results = Pull.calls (Iterator.next e.returned.stages) e.results.length (e.returned.it, made)
  state : ∀ i e, w.evaluations i = some e →
    e.it = (Pull.after (Iterator.next e.returned.stages) e.results.length (e.returned.it, made)).1 ∧
      ∀ c ∈ cells e.returned.stages,
        w.heap c = (Pull.after (Iterator.next e.returned.stages) e.results.length (e.returned.it, made)).2 c
  pure : ∀ c, isPure (made c) → w.heap c = made c
  untouched : ∀ c, (∀ i e, w.evaluations i = some e → c ∉ cells e.returned.stages) → w.heap c = made c
  owned : ∀ i j e e', w.evaluations i = some e → w.evaluations j = some e' → i ≠ j →
    ∀ c ∈ cells e.returned.stages, c ∈ cells e'.returned.stages → isPure (made c)

/-- A matcher stays what it is. -/
theorem Iterator.next_matcher (stages : List Stage) {c : Nat} {matching : DeadlineRecord → Bool}
    (s : Iterator stages × Heap) (holds : s.2 c = .matcher matching) :
    (Iterator.next stages s).2.2 c = .matcher matching := by
  induction stages with
  | nil =>
    obtain ⟨rest, h⟩ := s
    cases rest with
    | nil => exact holds
    | cons r rest => exact holds
  | cons stage stages ih =>
    cases stage with
    | filter accepts =>
      exact Pull.skipping_kept (P := fun t : Iterator stages × Heap => t.2 c = .matcher matching) ih _ holds
    | predicate cell =>
      refine predicateNext_kept (P := fun t : Iterator stages × Heap => t.2 c = .matcher matching) ih
        (fun it h found kept => ?_) s holds
      by_cases own : c = cell
      · cases own
        have same : (call (h c) found).2 = .matcher matching := by
          rw [show h c = .matcher matching from kept]
          cases found <;> rfl
        exact (Function.update_self ..).trans same
      · exact (Function.update_of_ne own _ h).trans kept

theorem Iterator.next_pure (stages : List Stage) {c : Nat} (s : Iterator stages × Heap) {closure : Predicate}
    (pure : isPure closure) (holds : s.2 c = closure) : (Iterator.next stages s).2.2 c = closure := by
  cases closure with
  | matcher matching => exact next_matcher stages s holds
  | limit n => cases pure
  | leq matching reached => cases pure

theorem World.step_evaluate {w w' : World} {i : Nat} {q : Snapshot} {sel : Selector Chain}
    (step : w.step (.evaluate i q sel) = some w') : w.evaluations i = none ∧ (w' = w ∨ ∃ it, sel q = .ok it ∧
      w' = ⟨w.heap, Function.update w.evaluations i (some ⟨q, sel, it, it.it, []⟩)⟩) := by
  rw [World.step] at step
  cases found : w.evaluations i with
  | some e =>
    rw [found] at step
    cases step
  | none =>
    rw [found] at step
    cases selects : sel q with
    | error fault =>
      rw [selects] at step
      cases step
      exact ⟨rfl, .inl rfl⟩
    | ok it =>
      rw [selects] at step
      cases step
      exact ⟨rfl, .inr ⟨it, rfl, rfl⟩⟩

theorem World.step_next {w w' : World} {i : Nat} (step : w.step (.next i) = some w') :
    ∃ e, w.evaluations i = some e ∧ w' = ⟨(Iterator.next e.returned.stages (e.it, w.heap)).2.2,
      Function.update w.evaluations i (some (e.next w.heap))⟩ := by
  rw [World.step] at step
  cases found : w.evaluations i with
  | none =>
    rw [found] at step
    cases step
  | some e =>
    rw [found] at step
    cases step
    exact ⟨e, rfl, rfl⟩

theorem alone_mono {made : Heap} {q : Snapshot} {sel : Selector Chain} {n n' : Nat} (le : n ≤ n')
    {results results' : List (Except Fault (Option DeadlineRecord))} (some : alone made q sel n = .ok results)
    (more : alone made q sel n' = .ok results') : results <+: results' := by
  rw [alone] at some more
  cases selects : sel q with
  | error fault =>
    rw [selects] at some
    cases some
  | ok it =>
    rw [selects] at some more
    cases some
    cases more
    exact Pull.calls_mono le _

namespace Separate

variable {made : Heap} {w w' : World}

theorem start (made : Heap) : Separate made (program made).start where
  returned _ _ found := by cases found
  results _ _ found := by cases found
  state _ _ found := by cases found
  pure _ _ := rfl
  untouched _ _ := rfl
  owned _ _ _ _ found := by cases found

theorem reusable (separate : Separate made w) : Reusable made w := by
  have isAlone : ∀ i e, w.evaluations i = some e → alone made e.q e.sel e.results.length = .ok e.results := by
    intro i e found
    rw [alone, separate.returned i e found]
    exact congrArg Except.ok (separate.results i e found).symm
  refine ⟨isAlone, fun i j e e' found found' sameQ sameSel shorter => ?_⟩
  have first := isAlone i e found
  rw [sameQ, sameSel] at first
  exact alone_mono shorter first (isAlone j e' found')

theorem evaluate (separate : Separate made w) {i : Nat} {q : Snapshot} {sel : Selector Chain}
    (once : UsedOnce made w (.evaluate i q sel)) (step : w.step (.evaluate i q sel) = some w') :
    Separate made w' := by
  obtain ⟨unused, rfl | ⟨it, selects, rfl⟩⟩ := World.step_evaluate step
  · exact separate
  · -- a cell of the new query is as it was made
    have fresh : ∀ c ∈ cells it.stages, w.heap c = made c := by
      intro c member
      cases isPure : isPure (made c) with
      | true => exact separate.pure c isPure
      | false => exact separate.untouched c (once it selects c member isPure)
    have shared : ∀ j e, w.evaluations j = some e → ∀ c ∈ cells it.stages, c ∈ cells e.returned.stages →
        isPure (made c) := by
      intro j e found c member member'
      cases isPure : isPure (made c) with
      | true => rfl
      | false => exact absurd member' (once it selects c member isPure j e found)
    constructor
    · intro j e found
      rcases Function.update_cases found with ⟨-, same⟩ | ⟨-, found⟩
      · cases same
        exact selects
      · exact separate.returned j e found
    · intro j e found
      rcases Function.update_cases found with ⟨-, same⟩ | ⟨-, found⟩
      · cases same
        rfl
      · exact separate.results j e found
    · intro j e found
      rcases Function.update_cases found with ⟨-, same⟩ | ⟨-, found⟩
      · cases same
        exact ⟨rfl, fresh⟩
      · exact separate.state j e found
    · exact separate.pure
    · intro c outside
      refine separate.untouched c fun j e found => outside j e ?_
      have other : j ≠ i := by
        rintro rfl
        cases found.symm.trans unused
      exact (Function.update_of_ne other _ _).trans found
    · intro j k e e' found found' different c member member'
      rcases Function.update_cases found with ⟨rfl, same⟩ | ⟨-, found⟩
      · rcases Function.update_cases found' with ⟨rfl, -⟩ | ⟨-, found'⟩
        · exact absurd rfl different
        · cases same
          exact shared k e' found' c member member'
      · rcases Function.update_cases found' with ⟨-, same⟩ | ⟨-, found'⟩
        · cases same
          exact shared j e found c member' member
        · exact separate.owned j k e e' found found' different c member member'

theorem next (separate : Separate made w) {i : Nat} (step : w.step (.next i) = some w') : Separate made w' := by
  obtain ⟨e, current, rfl⟩ := World.step_next step
  have isLocal := Iterator.local_next e.returned.stages
  have pure : ∀ c, isPure (made c) → (Iterator.next e.returned.stages (e.it, w.heap)).2.2 c = made c :=
    fun c isPure => Iterator.next_pure _ _ isPure (separate.pure c isPure)
  have counted : (e.next w.heap).results.length = e.results.length + 1 := List.length_append
  obtain ⟨sameResult, sameState⟩ := isLocal.same (e.it, w.heap) _ (separate.state i e current)
  constructor
  · intro j e' found
    rcases Function.update_cases found with ⟨-, same⟩ | ⟨-, found⟩
    · cases same
      exact separate.returned i e current
    · exact separate.returned j e' found
  · intro j e' found
    rcases Function.update_cases found with ⟨-, same⟩ | ⟨-, found⟩
    · cases same
      rw [counted]
      refine Eq.trans ?_ (Pull.calls_succ _ _).symm
      exact congrArg₂ (fun results result => results ++ [result]) (separate.results i e current) sameResult
    · exact separate.results j e' found
  · intro j e' found
    rcases Function.update_cases found with ⟨-, same⟩ | ⟨different, found⟩
    · cases same
      rw [counted]
      refine ⟨sameState.1.trans ?_, fun c member => (sameState.2 c member).trans ?_⟩
      · exact congrArg Prod.fst (Pull.after_succ _ _).symm
      · exact congrFun (congrArg Prod.snd (Pull.after_succ _ _).symm) c
    · refine ⟨(separate.state j e' found).1, fun c member => ?_⟩
      rw [← (separate.state j e' found).2 c member]
      -- what the call has changed is not a cell of this query
      by_cases own : c ∈ cells e.returned.stages
      · have isPure := separate.owned j i e' e found current different c member own
        exact (pure c isPure).trans (separate.pure c isPure).symm
      · exact isLocal.frame _ c own
  · exact pure
  · intro c outside
    have notOwn : c ∉ cells e.returned.stages := outside i (e.next w.heap) (Function.update_self ..)
    refine (isLocal.frame _ c notOwn).trans (separate.untouched c fun j e' found => ?_)
    by_cases same : j = i
    · cases same
      cases found.symm.trans current
      exact notOwn
    · exact outside j e' ((Function.update_of_ne same _ _).trans found)
  · intro j k e₁ e₂ found₁ found₂ different c member₁ member₂
    have before : ∀ j e', Function.update w.evaluations i (some (e.next w.heap)) j = some e' →
        ∃ e'', w.evaluations j = some e'' ∧ cells e''.returned.stages = cells e'.returned.stages := by
      intro j e' found
      rcases Function.update_cases found with ⟨rfl, same⟩ | ⟨-, found⟩
      · cases same
        exact ⟨e, current, rfl⟩
      · exact ⟨e', found, rfl⟩
    obtain ⟨f₁, was₁, same₁⟩ := before j e₁ found₁
    obtain ⟨f₂, was₂, same₂⟩ := before k e₂ found₂
    exact separate.owned j k f₁ f₂ was₁ was₂ different c (same₁ ▸ member₁) (same₂ ▸ member₂)

end Separate

/-- Selectors and constraints can be used again, in any run in which no `Limit`,
`First` or `To` is: these capture variables that every iterator which they are bound to
goes on counting with. -/
theorem reusable_of_usedOnce (made : Heap) (events : List Event)
    (once : (program made).Throughout (fun _ w e => UsedOnce made w e) events) :
    (program made).Always (fun _ w => Reusable made w) events := by
  have separate : (program made).Always (fun _ w => Separate made w) events := by
    refine Machine.always_of_throughout (program made).invariant_true (Separate.start made) ?_ once
    intro before w e w' _ separate once step
    cases e with
    | evaluate i q sel => exact separate.evaluate once step
    | next i => exact separate.next step
  intro before w isBefore reached
  exact (separate before w isBefore reached).reusable

/-- A selector is evaluated, its first record is taken, and the same once more. -/
def twiceFirst (sel : Selector Chain) : List Event :=
  [.evaluate 0 twoHostsSnapshot sel, .next 0, .evaluate 1 twoHostsSnapshot sel, .next 1]

/-- A `While` can be evaluated twice. -/
theorem reusable_of_usedOnce_whilst : (program fun _ => .matcher fun _ => true).Always
    (fun _ w => Reusable (fun _ => .matcher fun _ => true) w)
    (twiceFirst (fromFirstHost.bind (whilst 0 (.matcher fun _ => true)))) := by
  refine reusable_of_usedOnce _ _ fun before e w w' _ _ _ => ?_
  cases e with
  | evaluate i q sel =>
    intro it selects c member isImpure
    cases isImpure
  | next i => trivial

/-- The second evaluation of a selector with the limit one has no record. -/
theorem limit_used_up : ¬ (program fun _ => .limit 1).Always
    (fun _ w => Reusable (fun _ => .limit 1) w) (twiceFirst (fromFirstHost.bind (limit 0 1))) := by
  intro always
  have reusable := always _ _ List.prefix_rfl rfl
  have second := reusable.alone 1 _ rfl
  exact absurd second (by decide)

end Casm.Query.Stateful
