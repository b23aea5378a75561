import Casm.Cluster.Range

namespace Casm.Query.Stateful
open Routing

/-- A call of the function. A panic leaves the variables as they were. -/
def call (p : Predicate) (found : Option DeadlineRecord) : Except Fault Bool × Predicate :=
  match p.holds found with
  | .error fault => (.error fault, p)
  | .ok (more, p) => (.ok more, p)

/-- The functions that there are, with their variables. -/
abbrev Heap := Nat → Predicate

/-- An iterator over another: a `filterIter` with its matcher, or a `predicateIter`
with the cell of its predicate. -/
inductive Stage where
  | filter (matching : DeadlineRecord → Bool)
  | predicate (cell : Nat)

/-- What changes in an iterator that is made of stages over the records of the table:
the records that are left, and the field `stop` of each `predicateIter`. -/
def Iterator : List Stage → Type
  | [] => List DeadlineRecord
  | .filter _ :: stages => Iterator stages
  | .predicate _ :: stages => Iterator stages × Bool

namespace Iterator

/-- The records that the table still has for the iterator. -/
def size : (stages : List Stage) → Iterator stages → Nat
  | [], rest => List.length rest
  | .filter _ :: stages, it => size stages it
  | .predicate _ :: stages, it => size stages it.1

/-- `Next` of the iterators of the table. -/
def tableNext : Pull (List DeadlineRecord × Heap) DeadlineRecord Fault
  | ([], h) => (.ok none, [], h)
  | (r :: rest, h) => (.ok (some r), rest, h)

/-- `predicateIter.Next`. A panic leaves the field `stop` as it was. -/
def predicateNext (cell : Nat) (next : Pull (σ × Heap) DeadlineRecord Fault) :
    Pull ((σ × Bool) × Heap) DeadlineRecord Fault
  | ((it, true), h) => (.ok none, (it, true), h)
  | ((it, false), h) =>
    match next (it, h) with
    | (.error fault, it, h) => (.error fault, (it, false), h)
    | (.ok found, it, h) =>
      match call (h cell) found with
      | (.error fault, closure) => (.error fault, (it, false), Function.update h cell closure)
      | (.ok more, closure) =>
        (.ok (if more then found else none), (it, !more), Function.update h cell closure)

/-- `filterIter.Next` is a loop over the iterator that it has. -/
def next : (stages : List Stage) → Pull (Iterator stages × Heap) DeadlineRecord Fault
  | [] => tableNext
  | .filter matching :: stages => Pull.filtered (next stages) matching fun s => size stages s.1
  | .predicate cell :: stages => predicateNext cell (next stages)

end Iterator

/-- An iterator, as it is returned. -/
structure Chain where
  stages : List Stage
  it : Iterator stages

/-- What the caller of `Next` gets. -/
abbrev Chain.Yields (it : Chain) (h : Heap) (records : List DeadlineRecord) : Prop :=
  Pull.Yields (Iterator.next it.stages) (it.it, h) records

/-- What `Next` returns. -/
def Chain.next (h : Heap) (it : Chain) : Except Fault (Option DeadlineRecord) :=
  (Iterator.next it.stages (it.it, h)).1

/-- Every iterator that a constraint is bound to uses the variables of that constraint. -/
instance : Iterators Chain Nat where
  result rest := ⟨[], rest⟩
  predicateIter cell _ it := ⟨.predicate cell :: it.stages, it.it, false⟩

/-- `Where`. -/
def wherein (matching : DeadlineRecord → Bool) : Constraint Chain := fun it =>
  just ⟨.filter matching :: it.stages, it.it⟩

/-- The cells that an iterator uses. -/
def cells : List Stage → List Nat
  | [] => []
  | .filter _ :: stages => cells stages
  | .predicate cell :: stages => cell :: cells stages

namespace Iterator

variable {σ : Type} {next' : Pull (σ × Heap) DeadlineRecord Fault} {cell : Nat} {it it' : σ} {h h' : Heap}

theorem predicateNext_error {fault : Fault} (fails : next' (it, h) = (.error fault, it', h')) :
    predicateNext cell next' ((it, false), h) = (.error fault, (it', false), h') := by
  rw [predicateNext, fails]

theorem predicateNext_panic {found : Option DeadlineRecord} {fault : Fault} {closure : Predicate}
    (steps : next' (it, h) = (.ok found, it', h')) (panics : call (h' cell) found = (.error fault, closure)) :
    predicateNext cell next' ((it, false), h) = (.error fault, (it', false), Function.update h' cell closure) := by
  rw [predicateNext, steps]
  simp only [panics]

theorem predicateNext_ok {found : Option DeadlineRecord} {more : Bool} {closure : Predicate}
    (steps : next' (it, h) = (.ok found, it', h')) (answer : call (h' cell) found = (.ok more, closure)) :
    predicateNext cell next' ((it, false), h) =
      (.ok (if more then found else none), (it', !more), Function.update h' cell closure) := by
  rw [predicateNext, steps]
  simp only [answer]

/-- An iterator that has stopped does not go on. -/
theorem dry_of_stop : Pull.Dry (predicateNext cell next') ((it, true), h) :=
  Pull.dry_of_invariant (· = ((it, true), h)) (by rintro _ rfl; exact ⟨_, rfl, rfl⟩) rfl

/-- What the iterator below keeps, and the call of the predicate. -/
theorem predicateNext_kept {P : σ × Heap → Prop} (kept : ∀ s, P s → P (next' s).2)
    (called : ∀ it h found, P (it, h) → P (it, Function.update h cell (call (h cell) found).2))
    (s : (σ × Bool) × Heap) (holds : P (s.1.1, s.2)) :
    P ((predicateNext cell next' s).2.1.1, (predicateNext cell next' s).2.2) := by
  obtain ⟨⟨it, stop⟩, h⟩ := s
  cases stop with
  | true => exact holds
  | false =>
    have below := kept (it, h) holds
    rcases steps : next' (it, h) with ⟨fault | found, it', h'⟩
    · rw [steps] at below
      rw [predicateNext_error steps]
      exact below
    · rw [steps] at below
      have after := called it' h' found below
      rcases answer : call (h' cell) found with ⟨fault | more, closure⟩
      · rw [answer] at after
        rw [predicateNext_panic steps answer]
        exact after
      · rw [answer] at after
        rw [predicateNext_ok steps answer]
        exact after

theorem measured_predicateNext {size : σ → Nat} (measured : Pull.Measured next' fun s => size s.1) :
    Pull.Measured (predicateNext cell next') fun s => size s.1.1 := by
  constructor
  · intro s
    exact predicateNext_kept (P := fun t => size t.1 ≤ size s.1.1) (fun t le => (measured.le t).trans le)
      (fun _ _ _ le => le) s le_rfl
  · rintro ⟨⟨it, stop⟩, h⟩ r isSome
    cases stop with
    | true => cases isSome
    | false =>
      have lt := measured.lt (it, h)
      rcases steps : next' (it, h) with ⟨fault | found, it', h'⟩
      · rw [predicateNext_error steps] at isSome
        cases isSome
      · rw [steps] at lt
        rcases answer : call (h' cell) found with ⟨fault | more, closure⟩
        · rw [predicateNext_panic steps answer] at isSome
          cases isSome
        · rw [predicateNext_ok steps answer] at isSome ⊢
          cases more with
          | true =>
            cases isSome
            exact lt r rfl
          | false => cases isSome

theorem local_predicateNext {used : List Nat} (isLocal : Pull.Local next' used) :
    Pull.Local (predicateNext cell next') (cell :: used) := by
  constructor
  · rintro ⟨⟨it, stop⟩, h⟩ ⟨⟨it₂, stop₂⟩, h₂⟩ ⟨sameIt, sameHeap⟩
    cases sameIt
    cases stop with
    | true => exact ⟨rfl, rfl, sameHeap⟩
    | false =>
      obtain ⟨sameFound, sameIt, sameUsed⟩ :=
        isLocal.same (it, h) (it, h₂) ⟨rfl, fun c member => sameHeap c (List.mem_cons_of_mem _ member)⟩
      -- if the iterator below uses the cell too, it has left the same there
      have sameCells : ∀ c ∈ cell :: used, (next' (it, h)).2.2 c = (next' (it, h₂)).2.2 c := by
        intro c member
        by_cases below : c ∈ used
        · exact sameUsed c below
        · rw [isLocal.frame _ c below, isLocal.frame _ c below]
          exact sameHeap c member
      rcases steps : next' (it, h) with ⟨found, it', h'⟩
      rcases steps₂ : next' (it, h₂) with ⟨found₂, it₂', h₂'⟩
      rw [steps, steps₂] at sameFound sameIt sameCells
      cases sameFound
      cases sameIt
      cases found with
      | error fault =>
        rw [predicateNext_error steps, predicateNext_error steps₂]
        exact ⟨rfl, rfl, sameCells⟩
      | ok found =>
        have sameClosure : h' cell = h₂' cell := sameCells cell List.mem_cons_self
        have updated (closure : Predicate) : ∀ c ∈ cell :: used,
            Function.update h' cell closure c = Function.update h₂' cell closure c := by
          intro c member
          have sameAt : h' c = h₂' c := sameCells c member
          rw [Function.update_apply, Function.update_apply, sameAt]
        rcases answer : call (h' cell) found with ⟨fault | more, closure⟩
        · rw [predicateNext_panic steps answer, predicateNext_panic steps₂ (sameClosure ▸ answer)]
          exact ⟨rfl, rfl, updated closure⟩
        · rw [predicateNext_ok steps answer, predicateNext_ok steps₂ (sameClosure ▸ answer)]
          exact ⟨rfl, rfl, updated closure⟩
  · intro s c outside
    have other : c ≠ cell := fun same => outside (same ▸ List.mem_cons_self)
    have below : c ∉ used := fun member => outside (List.mem_cons_of_mem _ member)
    exact predicateNext_kept (P := fun t => t.2 c = s.2 c) (fun t same => (isLocal.frame t c below).trans same)
      (fun _ h _ same => (Function.update_of_ne other _ h).trans same) s rfl

theorem measured_next (stages : List Stage) : Pull.Measured (next stages) fun s => size stages s.1 := by
  induction stages with
  | nil =>
    constructor
    · rintro ⟨rest, h⟩
      cases rest with
      | nil => exact le_rfl
      | cons r rest => exact Nat.le_succ _
    · rintro ⟨rest, h⟩ r isSome
      cases rest with
      | nil => cases isSome
      | cons r rest => exact Nat.lt_succ_self _
  | cons stage stages ih =>
    cases stage with
    | filter matching => exact ih.filtered matching
    | predicate cell => exact measured_predicateNext ih

theorem local_next (stages : List Stage) : Pull.Local (next stages) (cells stages) := by
  induction stages with
  | nil =>
    constructor
    · rintro ⟨rest, h⟩ ⟨rest₂, h₂⟩ ⟨same, -⟩
      cases same
      cases rest with
      | nil => exact ⟨rfl, rfl, fun c member => by cases member⟩
      | cons r rest => exact ⟨rfl, rfl, fun c member => by cases member⟩
    · rintro ⟨rest, h⟩ c -
      cases rest with
      | nil => rfl
      | cons r rest => rfl
  | cons stage stages ih =>
    cases stage with
    | filter matching => exact ih.filtered matching (size stages)
    | predicate cell => exact local_predicateNext ih

theorem yields_table (rest : List DeadlineRecord) (h : Heap) : Chain.Yields ⟨[], rest⟩ h rest := by
  refine Pull.yields_iff_produces.mpr ?_
  induction rest with
  | nil => exact .dry (Pull.dry_of_invariant (· = ([], h)) (by rintro _ rfl; exact ⟨_, rfl, rfl⟩) rfl)
  | cons r rest ih => exact .item rfl ih

section Produces

variable {used : List Nat} {records : List DeadlineRecord} {ending : Option Fault}

/-- The iterator below does not see what the predicate does to its cell. -/
theorem produces_update (isLocal : Pull.Local next' used) (outside : cell ∉ used) (closure : Predicate)
    (produces : Pull.Produces next' (it, h) records ending) :
    Pull.Produces next' (it, Function.update h cell closure) records ending := by
  refine isLocal.produces (fun c member => ?_) produces
  have other : c ≠ cell := fun same => outside (same ▸ member)
  rw [Function.update_of_ne other]

theorem call_below (isLocal : Pull.Local next' used) (outside : cell ∉ used)
    {found : Except Fault (Option DeadlineRecord)} (steps : next' (it, h) = (found, it', h')) : h' cell = h cell := by
  have frame := isLocal.frame (it, h) cell outside
  rwa [steps] at frame

/-- `While` takes records as long as they match. Where all do, the matcher is asked
about the nil record. -/
theorem produces_whilst (isLocal : Pull.Local next' used) (outside : cell ∉ used) {matching : DeadlineRecord → Bool}
    (holds : h cell = .matcher matching) (produces : Pull.Produces next' (it, h) records ending) :
    Pull.Produces (predicateNext cell next') ((it, false), h) (records.takeWhile matching)
      (if records.all matching then some (ending.getD nilRecord) else none) := by
  induction records generalizing it h with
  | nil =>
    cases produces with
    | dry dry =>
      obtain ⟨⟨it', h'⟩, steps, -⟩ := Pull.dry_iff.mp dry
      have panics : call (h' cell) none = (.error nilRecord, .matcher matching) := by
        rw [call_below isLocal outside steps, holds]
        rfl
      exact .fails (predicateNext_panic steps panics)
    | fails fails => exact .fails (predicateNext_error fails)
  | cons r records ih =>
    cases produces with
    | @item _ s' _ _ _ steps rest =>
      have answer : call (s'.2 cell) (some r) = (.ok (matching r), .matcher matching) := by
        rw [call_below isLocal outside steps, holds]
        rfl
      have outer := predicateNext_ok steps answer
      cases isMatch : matching r with
      | true =>
        rw [isMatch] at outer
        rw [List.takeWhile_cons_of_pos isMatch, List.all_cons, isMatch, Bool.true_and]
        exact .item outer (ih (Function.update_self ..) (produces_update isLocal outside _ rest))
      | false =>
        rw [isMatch] at outer
        rw [List.takeWhile_cons_of_neg (by simp [isMatch]), List.all_cons, isMatch, Bool.false_and]
        exact .dry (Pull.dry_iff.mpr ⟨_, outer, dry_of_stop⟩)

/-- A limit goes on counting after the last record. -/
theorem dry_limit (isLocal : Pull.Local next' used) (outside : cell ∉ used) {n : Int}
    (holds : h cell = .limit n) (dry : Pull.Dry next' (it, h)) :
    Pull.Dry (predicateNext cell next') ((it, false), h) := by
  refine Pull.dry_of_invariant
    (fun s => s.1.2 = true ∨ s.1.2 = false ∧ Pull.Dry next' (s.1.1, s.2) ∧ ∃ n, s.2 cell = .limit n)
    ?_ (.inr ⟨rfl, dry, n, holds⟩)
  rintro ⟨⟨it, stop⟩, h⟩ (stopped | ⟨running, dry, n, holds⟩)
  · cases stopped
    exact ⟨_, rfl, .inl rfl⟩
  · cases running
    obtain ⟨⟨it', h'⟩, steps, dry'⟩ := Pull.dry_iff.mp dry
    have answer : call (h' cell) none = (.ok (decide (n > 0)), .limit (n - 1)) := by
      rw [call_below isLocal outside steps, holds]
      rfl
    have outer := predicateNext_ok steps answer
    rw [ite_self] at outer
    refine ⟨_, outer, ?_⟩
    cases decide (n > 0) with
    | false => exact .inl rfl
    | true =>
      refine .inr ⟨rfl, ?_, n - 1, Function.update_self ..⟩
      exact Pull.yields_iff_produces.mpr
        (produces_update isLocal outside _ (Pull.yields_iff_produces.mp dry'))

/-- A limit that is not below the number of records does not change how they end. -/
theorem produces_limit (isLocal : Pull.Local next' used) (outside : cell ∉ used) {n : Nat}
    (holds : h cell = .limit n) (produces : Pull.Produces next' (it, h) records ending) :
    Pull.Produces (predicateNext cell next') ((it, false), h) (records.take n)
      (if n < records.length then none else ending) := by
  induction records generalizing it h n with
  | nil =>
    rw [List.take_nil]
    cases produces with
    | dry dry => exact .dry (dry_limit isLocal outside holds dry)
    | fails fails => exact .fails (predicateNext_error fails)
  | cons r records ih =>
    cases produces with
    | @item _ s' _ _ _ steps rest =>
      have sameCell : s'.2 cell = h cell := call_below isLocal outside steps
      cases n with
      | zero =>
        have answer : call (s'.2 cell) (some r) = (.ok false, .limit (-1)) := by
          rw [sameCell, holds]
          rfl
        exact .dry (Pull.dry_iff.mpr ⟨_, predicateNext_ok steps answer, dry_of_stop⟩)
      | succ n =>
        have answer : call (s'.2 cell) (some r) = (.ok true, .limit n) := by
          rw [sameCell, holds, call, Predicate.limit_succ]
        have holds' : Function.update s'.2 cell (.limit n) cell = .limit n :=
          Function.update_self ..
        have later := ih holds' (produces_update isLocal outside _ rest)
        simp only [List.take_succ_cons, List.length_cons, Nat.add_lt_add_iff_right]
        exact .item (predicateNext_ok steps answer) later

end Produces

end Iterator

/-- A constraint, as it is written in a query. -/
inductive Clause where
  | wherein (matching : DeadlineRecord → Bool)
  | whilst (matching : DeadlineRecord → Bool)
  | limit (n : Int)
  | first

namespace Clause

/-- The constraint with its cell. -/
def constraint (cell : Nat) : Clause → Constraint Chain
  | wherein matching => Stateful.wherein matching
  | whilst matching => Query.whilst cell (.matcher matching)
  | limit n => Query.limit cell n
  | first => Query.first cell

/-- What the cell holds when the constraint has been made. `Where` has no use for it. -/
def closure : Clause → Predicate
  | wherein matching => .matcher matching
  | whilst matching => .matcher matching
  | limit n => .limit n
  | first => .limit 1

/-- The meaning of a constraint on lists. -/
def meaning : Clause → List DeadlineRecord → List DeadlineRecord
  | wherein matching, records => records.filter matching
  | whilst matching, records => records.takeWhile matching
  | limit n, records => records.take n.toNat
  | first, records => records.take 1

def Valid : Clause → Prop
  | limit n => 0 < n
  | _ => True

/-- Whether the iterator ends without a question about the nil record, given that of
the iterator below it: a `While` must have a record that does not match, and a limit
that is reached keeps the end away from those below. -/
def endsBeforeNil : Clause → List DeadlineRecord → Bool → Bool
  | wherein _, _, below => below
  | whilst matching, records, _ => !records.all matching
  | limit n, records, below => below || n.toNat < records.length
  | first, records, below => below || 1 < records.length

end Clause

/-- The constraints of a query, with the cells from an address on. -/
def constraints (base : Nat) (clauses : List Clause) : List (Constraint Chain) :=
  clauses.mapIdx fun i clause => clause.constraint (base + i)

/-- The constraints have just been made. -/
def Made (h : Heap) (base : Nat) (clauses : List Clause) : Prop :=
  ∀ i clause, clauses[i]? = some clause → h (base + i) = clause.closure

/-- The left to right composition of the meanings. -/
def composed (clauses : List Clause) (records : List DeadlineRecord) : List DeadlineRecord :=
  clauses.foldl (fun records clause => clause.meaning records) records

/-- No matcher of the query is asked about the nil record. -/
def endBeforeNil (clauses : List Clause) (records : List DeadlineRecord) : Bool :=
  (clauses.foldl (fun s clause => (clause.meaning s.1, clause.endsBeforeNil s.1 s.2)) (records, true)).2

/-- What a query with these constraints should do on a selection of these records. -/
structure HasListMeaning (q : Snapshot) (sel : Selector Chain) (cs : List (Constraint Chain)) (h : Heap)
    (clauses : List Clause) (records : List DeadlineRecord) : Prop where
  fails : (∃ clause ∈ clauses, ¬ clause.Valid) →
    (∃ msg, iter q sel cs = .error (.error msg)) ∧ ∃ msg, lookup (Chain.next h) q sel cs = .error (.error msg)
  yields : (∀ clause ∈ clauses, clause.Valid) → ∃ it, iter q sel cs = .ok it ∧ it.Yields h (composed clauses records)
  head : (∀ clause ∈ clauses, clause.Valid) → lookup (Chain.next h) q sel cs = .ok (composed clauses records).head?

theorem constraints_concat (base : Nat) (clauses : List Clause) (clause : Clause) :
    constraints base (clauses ++ [clause]) = constraints base clauses ++ [clause.constraint (base + clauses.length)] :=
  List.mapIdx_concat

theorem composed_concat (clauses : List Clause) (clause : Clause) (records : List DeadlineRecord) :
    composed (clauses ++ [clause]) records = clause.meaning (composed clauses records) := by
  rw [composed, List.foldl_append]
  rfl

theorem endBeforeNil_concat (clauses : List Clause) (clause : Clause) (records : List DeadlineRecord) :
    endBeforeNil (clauses ++ [clause]) records =
      clause.endsBeforeNil (composed clauses records) (endBeforeNil clauses records) := by
  have lists : ∀ s : List DeadlineRecord × Bool, (clauses.foldl
      (fun s clause => (clause.meaning s.1, clause.endsBeforeNil s.1 s.2)) s).1 = composed clauses s.1 := by
    induction clauses with
    | nil => exact fun s => rfl
    | cons clause clauses ih => exact fun s => ih _
  rw [endBeforeNil, List.foldl_append]
  exact congrArg (clause.endsBeforeNil · _) (lists (records, true))

/-- How an iterator ends. -/
def ending (well : Bool) : Option Fault :=
  if well then none else some nilRecord

section Bound

variable {cell : Nat} {h : Heap} {it : Chain} {records : List DeadlineRecord} {well : Bool}

theorem cells_lt_succ (below : ∀ c ∈ cells it.stages, c < cell) : ∀ c ∈ cell :: cells it.stages, c < cell + 1 := by
  intro c member
  rcases List.mem_cons.mp member with rfl | member
  · exact Nat.lt_succ_self c
  · exact Nat.lt_succ_of_lt (below c member)

theorem limit_bound (below : ∀ c ∈ cells it.stages, c < cell)
    (produces : Pull.Produces (Iterator.next it.stages) (it.it, h) records (ending well)) (q : Snapshot) {n : Nat}
    (positive : 0 < n) (made : h cell = .limit n) :
    ∃ it', limit cell n it q = .ok it' ∧ (∀ c ∈ cells it'.stages, c < cell + 1) ∧
      Pull.Produces (Iterator.next it'.stages) (it'.it, h) (records.take n) (ending (well || n < records.length)) := by
  have notZero : ¬ (n : Int) ≤ 0 := by omega
  have outside : cell ∉ cells it.stages := fun member => Nat.lt_irrefl _ (below cell member)
  have produced := Iterator.produces_limit (Iterator.local_next it.stages) outside made produces
  refine ⟨⟨.predicate cell :: it.stages, it.it, false⟩, by rw [limit, if_neg notZero]; rfl, cells_lt_succ below, ?_⟩
  by_cases less : n < records.length
  · rw [if_pos less] at produced
    rw [decide_eq_true less, Bool.or_true]
    exact produced
  · rw [if_neg less] at produced
    rw [decide_eq_false less, Bool.or_false]
    exact produced

theorem ending_whilst (all well : Bool) :
    (if all then some ((ending well).getD nilRecord) else none) = ending (!all) := by
  cases all with
  | false => rfl
  | true => cases well <;> rfl

/-- One more constraint. -/
theorem Clause.bound {clause : Clause} (valid : clause.Valid) (made : h cell = clause.closure)
    (below : ∀ c ∈ cells it.stages, c < cell)
    (produces : Pull.Produces (Iterator.next it.stages) (it.it, h) records (ending well)) (q : Snapshot) :
    ∃ it', clause.constraint cell it q = .ok it' ∧ (∀ c ∈ cells it'.stages, c < cell + 1) ∧
      Pull.Produces (Iterator.next it'.stages) (it'.it, h) (clause.meaning records)
        (ending (clause.endsBeforeNil records well)) := by
  cases clause with
  | wherein matching =>
    exact ⟨_, rfl, fun c member => Nat.lt_succ_of_lt (below c member),
      produces.filtered (Iterator.measured_next it.stages) matching⟩
  | whilst matching =>
    have outside : cell ∉ cells it.stages := fun member => Nat.lt_irrefl _ (below cell member)
    have produced := Iterator.produces_whilst (Iterator.local_next it.stages) outside made produces
    rw [ending_whilst] at produced
    exact ⟨_, rfl, cells_lt_succ below, produced⟩
  | limit n =>
    obtain ⟨n, rfl⟩ := Int.eq_ofNat_of_zero_le (Int.le_of_lt valid)
    exact limit_bound below produces q (Int.natCast_pos.mp valid) made
  | first => exact limit_bound below produces q Nat.one_pos made

end Bound

theorem Clause.constraint_cases (clause : Clause) (cell : Nat) (it : Chain) (q : Snapshot) :
    (clause.Valid ∧ ∃ it', clause.constraint cell it q = .ok it') ∨
      ∃ msg, clause.constraint cell it q = .error (.error msg) := by
  cases clause with
  | limit n =>
    rw [constraint, Query.limit]
    by_cases invalid : n ≤ 0
    · rw [if_pos invalid]
      exact .inr ⟨_, rfl⟩
    · rw [if_neg invalid]
      exact .inl ⟨not_le.mp invalid, _, rfl⟩
  | wherein _ => exact .inl ⟨trivial, _, rfl⟩
  | whilst _ => exact .inl ⟨trivial, _, rfl⟩
  | first => exact .inl ⟨trivial, _, rfl⟩

theorem Made.concat {h : Heap} {base : Nat} {clauses : List Clause} {clause : Clause}
    (made : Made h base (clauses ++ [clause])) :
    Made h base clauses ∧ h (base + clauses.length) = clause.closure := by
  refine ⟨fun i clause' found => made i clause' ?_, made _ _ (by simp)⟩
  rw [List.getElem?_append_left (List.getElem?_eq_some_iff.mp found).1, found]

section Query

variable {q : Snapshot} {sel : Selector Chain} {source : Chain} {h : Heap} {base : Nat} {clauses : List Clause}
  {records : List DeadlineRecord}

theorem produces_composed (selects : sel q = .ok source) (yields : source.Yields h records)
    (below : ∀ c ∈ cells source.stages, c < base) (made : Made h base clauses)
    (valid : ∀ clause ∈ clauses, clause.Valid) :
    ∃ it, iter q sel (constraints base clauses) = .ok it ∧ (∀ c ∈ cells it.stages, c < base + clauses.length) ∧
      Pull.Produces (Iterator.next it.stages) (it.it, h) (composed clauses records)
        (ending (endBeforeNil clauses records)) := by
  induction clauses using List.reverseRecOn with
  | nil => exact ⟨source, selects, below, Pull.yields_iff_produces.mp yields⟩
  | append_singleton clauses clause ih =>
    obtain ⟨madeFirst, madeLast⟩ := made.concat
    obtain ⟨it, returned, cellsBelow, produces⟩ := ih madeFirst fun c member => valid c (List.mem_append_left _ member)
    have validLast : clause.Valid := valid clause (List.mem_append_right _ (List.mem_singleton_self _))
    obtain ⟨it', bound, cellsBelow', produces'⟩ := Clause.bound validLast madeLast cellsBelow produces q
    refine ⟨it', ?_, ?_, ?_⟩
    · rw [constraints_concat, iter_concat, returned]
      exact bound
    · rw [List.length_append]
      exact cellsBelow'
    · rw [composed_concat, endBeforeNil_concat]
      exact produces'

/-- A query fails only with an error, and without one its limits are positive. -/
theorem iter_cases (selects : sel q = .ok source) (base : Nat) (clauses : List Clause) :
    ((∀ clause ∈ clauses, clause.Valid) ∧ ∃ it, iter q sel (constraints base clauses) = .ok it) ∨
      ∃ msg, iter q sel (constraints base clauses) = .error (.error msg) := by
  induction clauses using List.reverseRecOn with
  | nil => exact .inl ⟨fun _ member => (List.not_mem_nil member).elim, source, selects⟩
  | append_singleton clauses clause ih =>
    rw [constraints_concat, iter_concat]
    rcases ih with ⟨valid, it, returned⟩ | ⟨msg, fails⟩
    · rw [returned]
      rcases clause.constraint_cases (base + clauses.length) it q with ⟨validLast, bound⟩ | fails
      · refine .inl ⟨fun c member => ?_, bound⟩
        rcases List.mem_append.mp member with member | member
        · exact valid c member
        · exact List.mem_singleton.mp member ▸ validLast
      · exact .inr fails
    · rw [fails]
      exact .inr ⟨msg, rfl⟩

/-- Constraints have their meaning on lists exactly when a limit is not positive,
which is an error, or no matcher is asked about the nil record at the end of the
selection: `predicateIter` asks its matcher about whatever the iterator below returns. -/
theorem constraints_list_meaning_iff (q : Snapshot) (sel : Selector Chain) (source : Chain) (h : Heap) (base : Nat)
    (clauses : List Clause) (records : List DeadlineRecord) (selects : sel q = .ok source)
    (yields : source.Yields h records) (below : ∀ c ∈ cells source.stages, c < base) (made : Made h base clauses) :
    HasListMeaning q sel (constraints base clauses) h clauses records ↔
      ((∀ clause ∈ clauses, clause.Valid) → endBeforeNil clauses records) := by
  constructor
  · intro meaning valid
    obtain ⟨it, returned, -, produces⟩ := produces_composed selects yields below made valid
    obtain ⟨it', returned', yields'⟩ := meaning.yields valid
    cases returned.symm.trans returned'
    have ends := (produces.yields_iff.mp yields').2
    cases well : endBeforeNil clauses records with
    | true => rfl
    | false =>
      rw [well] at ends
      cases ends
  · intro ends
    constructor
    · rintro ⟨clause, member, invalid⟩
      rcases iter_cases selects base clauses with ⟨valid, -⟩ | ⟨msg, fails⟩
      · exact absurd (valid clause member) invalid
      · refine ⟨⟨msg, fails⟩, msg, ?_⟩
        rw [lookup, fails]
        rfl
    · intro valid
      obtain ⟨it, returned, -, produces⟩ := produces_composed selects yields below made valid
      rw [ends valid] at produces
      exact ⟨it, returned, produces.yields_iff.mpr ⟨rfl, rfl⟩⟩
    · intro valid
      obtain ⟨it, returned, -, produces⟩ := produces_composed selects yields below made valid
      rw [ends valid] at produces
      rw [lookup, returned]
      exact (produces.yields_iff.mpr ⟨rfl, rfl⟩).head

end Query

section Shows

/-- An iterator whose predicates are used by no other, so that each can keep its
variables to itself. -/
def Shows : (stages : List Stage) → Iterator stages → Heap → Iter → Prop
  | [], rest, _, it => it = .result rest
  | .filter _ :: _, _, _, _ => False
  | .predicate _ :: _, _, _, .result _ => False
  | .predicate cell :: stages, it, h, .predicateIter p below stop =>
    h cell = p ∧ cell ∉ cells stages ∧ it.2 = stop ∧ Shows stages it.1 h below

theorem Shows.congr {stages : List Stage} {it : Iterator stages} {h h' : Heap} {shown : Iter}
    (shows : Shows stages it h shown) (same : ∀ c ∈ cells stages, h' c = h c) : Shows stages it h' shown := by
  induction stages generalizing shown with
  | nil => exact shows
  | cons stage stages ih =>
    cases stage with
    | filter matching => exact shows
    | predicate cell =>
      cases shown with
      | result rest => exact shows
      | predicateIter p below stop =>
        obtain ⟨holds, outside, isStop, rest⟩ := shows
        exact ⟨(same cell List.mem_cons_self).trans holds, outside, isStop,
          ih rest fun c member => same c (List.mem_cons_of_mem _ member)⟩

/-- `Next` returns what the `Iter` returns, and shows what that has become. -/
inductive Follows (stages : List Stage) (it : Iterator stages) (h : Heap) :
    Except Fault (Option DeadlineRecord × Iter) → Prop
  | fails {fault : Fault} {s : Iterator stages × Heap} :
      Iterator.next stages (it, h) = (.error fault, s) → Follows stages it h (.error fault)
  | returns {found : Option DeadlineRecord} {it' : Iterator stages} {h' : Heap} {shown : Iter} :
      Iterator.next stages (it, h) = (.ok found, it', h') → Shows stages it' h' shown →
      Follows stages it h (.ok (found, shown))

/-- A predicate keeps step over an iterator that does. What is below it leaves its cell
alone, and it leaves the cells below alone. -/
theorem Follows.predicate {cell : Nat} {stages : List Stage} {it : Iterator stages} {h : Heap} {p : Predicate}
    {below : Iter} (follows : Follows stages it h below.next) (holds : h cell = p)
    (outside : cell ∉ cells stages) :
    Follows (.predicate cell :: stages) (it, false) h (Iter.predicateIter p below false).next := by
  generalize inner : below.next = result at follows
  cases follows with
  | fails steps =>
    rw [Iter.next_predicateIter_error inner]
    exact .fails (Iterator.predicateNext_error steps)
  | @returns found it' h' below' steps rest =>
    have holds' : h' cell = p :=
      (Iterator.call_below (Iterator.local_next stages) outside steps).trans holds
    cases answer : p.holds found with
    | error fault =>
      have panics : call (h' cell) found = (.error fault, p) := by
        rw [holds', call, answer]
      rw [Iter.next_predicateIter_panic inner answer]
      exact .fails (Iterator.predicateNext_panic steps panics)
    | ok pair =>
      obtain ⟨more, p'⟩ := pair
      have answers : call (h' cell) found = (.ok more, p') := by
        rw [holds', call, answer]
      rw [Iter.next_predicateIter inner answer]
      refine .returns (Iterator.predicateNext_ok steps answers) ⟨Function.update_self .., outside, rfl, ?_⟩
      refine rest.congr fun c member => Function.update_of_ne ?_ _ _
      exact fun same => outside (same ▸ member)

theorem Shows.next {stages : List Stage} {it : Iterator stages} {h : Heap} {shown : Iter}
    (shows : Shows stages it h shown) : Follows stages it h shown.next := by
  induction stages generalizing shown h with
  | nil =>
    cases shows
    cases it with
    | nil => exact .returns rfl rfl
    | cons r rest => exact .returns rfl rfl
  | cons stage stages ih =>
    cases stage with
    | filter matching => exact shows.elim
    | predicate cell =>
      cases shown with
      | result rest => exact shows.elim
      | predicateIter p below stop =>
        obtain ⟨it, halted⟩ := it
        obtain ⟨holds, outside, isStop, rest⟩ := shows
        cases isStop
        cases halted with
        | true => exact .returns rfl ⟨holds, outside, rfl, rest⟩
        | false => exact (ih rest).predicate holds outside

/-- So such an iterator produces what it shows. -/
theorem Shows.produces {stages : List Stage} {it : Iterator stages} {h : Heap} {shown : Iter}
    {records : List DeadlineRecord} {e : Option Fault} (shows : Shows stages it h shown)
    (produces : Pull.Produces Iter.pull shown records e) : Pull.Produces (Iterator.next stages) (it, h) records e := by
  induction produces generalizing it h with
  | dry dry =>
    refine .dry (Pull.dry_of_invariant (fun s => ∃ shown, Shows stages s.1 s.2 shown ∧ Pull.Dry Iter.pull shown)
      ?_ ⟨_, shows, dry⟩)
    rintro ⟨it, h⟩ ⟨shown, shows, dry⟩
    obtain ⟨shown', steps, dry'⟩ := Pull.dry_iff.mp dry
    have follows := shows.next
    rw [Iter.pull_ok.mp steps] at follows
    cases follows with
    | returns steps' shows' => exact ⟨_, steps', shown', shows', dry'⟩
  | fails fails =>
    have follows := shows.next
    rw [Iter.pull_error fails] at follows
    cases follows with
    | fails fails' => exact .fails fails'
  | item steps _ ih =>
    have follows := shows.next
    rw [Iter.pull_ok.mp steps] at follows
    cases follows with
    | returns steps' shows' => exact .item steps' (ih shows')

/-- A range is such an iterator, if its predicate is. -/
theorem Shows.range {cell : Nat} {min max : Index} {q : Snapshot} {h : Heap} {matching : DeadlineRecord → Bool}
    (known : matchIndex max = .ok matching) (made : h cell = .leq matching false) {shown : Iter}
    (returned : range () min max q = .ok shown) :
    ∃ it : Chain, range cell min max q = .ok it ∧ Shows it.stages it.it h shown := by
  cases bounded : q.lowerBound min with
  | error fault =>
    rw [Query.range, Selector.bind, startingFrom, bounded] at returned
    cases returned
  | ok records =>
    obtain ⟨matching', known', rfl⟩ := (range_eq bounded).mp returned
    cases known.symm.trans known'
    refine ⟨⟨[.predicate cell], records, false⟩, ?_, made, List.not_mem_nil, rfl, rfl⟩
    rw [Query.range, Selector.bind, startingFrom, bounded]
    show upTo cell max (⟨[], records⟩ : Chain) q = _
    rw [upTo, known]
    rfl

end Shows

/-- The hosts from `a` on, as the snapshot with two of them has them. -/
def fromFirstHost : Selector Chain :=
  startingFrom (hostIndex [97] false)

theorem fromFirstHost_selects : fromFirstHost twoHostsSnapshot = .ok ⟨[], twoHosts.map Prod.fst⟩ :=
  rfl

/-- The first of two hosts. -/
theorem constraints_list_meaning_iff_first : HasListMeaning twoHostsSnapshot fromFirstHost (constraints 0 [.first])
    (fun _ => .limit 1) [.first] (twoHosts.map Prod.fst) :=
  (constraints_list_meaning_iff _ _ _ _ 0 [.first] _ fromFirstHost_selects (Iterator.yields_table _ _)
    (fun _ member => (List.not_mem_nil member).elim) (by
      rintro i clause found
      cases i with
      | zero =>
        cases found
        rfl
      | succ i => cases found)).mpr fun _ => rfl

/-- A `While` whose matcher accepts all records asks it about the nil record. -/
theorem whilst_asks_nil : ¬ HasListMeaning twoHostsSnapshot fromFirstHost (constraints 0 [.whilst fun _ => true])
    (fun _ => .matcher fun _ => true) [.whilst fun _ => true] (twoHosts.map Prod.fst) := by
  intro meaning
  obtain ⟨it, returned, yields⟩ := meaning.yields (by
    intro clause member
    cases List.mem_singleton.mp member
    trivial)
  cases returned
  exact absurd (yields 3) (by decide)

end Casm.Query.Stateful
