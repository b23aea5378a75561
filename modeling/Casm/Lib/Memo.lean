import Mathlib

/-- Calls that share a table of earlier results. A call is carried out in some
environment, which also says whether the table still has what was put into it. -/
structure Memo (Call Env K V : Type) where
  step : (K → Option V) → Call → Env → K → Option V
  /-- The call empties the table. -/
  clears : Call → Prop
  /-- The call may leave this result in the table. -/
  makes : Call → K → V → Prop
  /-- The call may be answered with this result. -/
  fits : Call → K → V → Prop
  /-- The call does what it should when it finds this table. -/
  right : (K → Option V) → Call → Env → Prop
  entry : ∀ {table call env k v}, step table call env k = some v →
    table k = some v ∧ ¬ clears call ∨ makes call k v
  right_of_fits : ∀ {table call env}, (∀ k v, table k = some v → fits call k v) → right table call env
  /-- An environment in which calls use the table and do not add to it. -/
  idle : Env
  step_idle : ∀ {table call}, ¬ clears call → step table call idle = table
  fits_of_right : ∀ {table call k v}, right table call idle → table k = some v → fits call k v
  /-- An environment in which calls add to the table what they can. -/
  working : Env
  step_working : ∀ {table call k v}, makes call k v →
    ∃ v', step table call working k = some v' ∧ ∀ later, fits later k v' → fits later k v

namespace Memo

variable {Call Env K V : Type} (M : Memo Call Env K V)

/-- The table after some calls. -/
def after (run : List (Call × Env)) : K → Option V :=
  run.foldl (fun table call => M.step table call.1 call.2) fun _ => none

/-- Every call does what it should. -/
def Right (run : List (Call × Env)) : Prop :=
  ∀ before call env later, run = before ++ (call, env) :: later → M.right (M.after before) call env

/-- What a call makes fits every later call, up to the next that clears the table. -/
def Consistent (calls : List Call) : Prop :=
  ∀ before call middle call' later, calls = before ++ call :: (middle ++ call' :: later) →
    (∀ c ∈ middle, ¬ M.clears c) → ∀ k v, M.makes call k v → M.fits call' k v

variable {M}

/-- What is in the table was made since it was cleared. -/
theorem after_entry {run : List (Call × Env)} {k : K} {v : V} (entry : M.after run k = some v) :
    ∃ before call middle, run.map Prod.fst = before ++ call :: middle ∧ (∀ c ∈ middle, ¬ M.clears c) ∧
      M.makes call k v := by
  induction run using List.reverseRecOn with
  | nil => cases entry
  | append_singleton run last ih =>
    rw [after, List.foldl_append] at entry
    rw [List.map_append]
    rcases M.entry entry with ⟨old, kept⟩ | made
    · obtain ⟨before, call, middle, whole, keep, made⟩ := ih old
      refine ⟨before, call, middle ++ [last.1], ?_, ?_, made⟩
      · rw [whole, List.append_assoc, List.cons_append]
        rfl
      · intro c member
        rcases List.mem_append.mp member with earlier | isLast
        · exact keep c earlier
        · exact List.mem_singleton.mp isLast ▸ kept
    · exact ⟨run.map Prod.fst, last.1, [], rfl, by simp, made⟩

theorem right_of_consistent {run : List (Call × Env)} (consistent : M.Consistent (run.map Prod.fst)) :
    M.Right run := by
  intro before call env later whole
  refine M.right_of_fits fun k v found => ?_
  obtain ⟨first, maker, middle, earlier, kept, made⟩ := after_entry found
  have order : run.map Prod.fst = first ++ maker :: (middle ++ call :: later.map Prod.fst) := by
    rw [whole, List.map_append, earlier, List.append_assoc, List.cons_append]
    rfl
  exact consistent first maker middle call _ order kept k v made

/-- Calls that nothing is added by. -/
def idling (M : Memo Call Env K V) (calls : List Call) : List (Call × Env) :=
  calls.map fun call => (call, M.idle)

theorem map_idling (calls : List Call) : (M.idling calls).map Prod.fst = calls := by
  rw [idling, List.map_map]
  exact List.map_id calls

theorem foldl_idling {calls : List Call} (kept : ∀ c ∈ calls, ¬ M.clears c) (table : K → Option V) :
    (M.idling calls).foldl (fun table call => M.step table call.1 call.2) table = table := by
  induction calls with
  | nil => rfl
  | cons call rest ih =>
    have same : M.step table call M.idle = table := M.step_idle (kept call List.mem_cons_self)
    rw [idling, List.map_cons, List.foldl_cons]
    simp only [same]
    exact ih fun c member => kept c (List.mem_cons_of_mem _ member)

theorem consistent_of_right {calls : List Call} (right : ∀ run, run.map Prod.fst = calls → M.Right run) :
    M.Consistent calls := by
  intro before call middle call' later whole kept k v made
  -- only the first of the two calls adds something
  let first := M.idling before ++ (call, M.working) :: M.idling middle
  have run : (first ++ (call', M.idle) :: M.idling later).map Prod.fst = calls := by
    rw [whole, List.map_append, List.map_append, List.map_cons, List.map_cons, map_idling, map_idling, map_idling,
      List.append_assoc, List.cons_append]
  obtain ⟨v', stored, asGood⟩ := @M.step_working (M.after (M.idling before)) call k v made
  have found : M.after first k = some v' := by
    rw [after, List.foldl_append, List.foldl_cons, foldl_idling kept]
    exact stored
  exact asGood call' (M.fits_of_right (right _ run first call' M.idle (M.idling later) rfl) found)

/-- Calls are right in all environments exactly if what is made fits later calls. -/
theorem right_iff_consistent (calls : List Call) :
    (∀ run, run.map Prod.fst = calls → M.Right run) ↔ M.Consistent calls :=
  ⟨consistent_of_right, fun consistent _ names => right_of_consistent (names ▸ consistent)⟩

end Memo
