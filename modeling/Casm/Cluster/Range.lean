import Casm.Cluster.Query
import Casm.Lib.Pull

namespace Casm.Query
open MultiIndex (Bytes)
open Routing

/-- `Next`, for a caller that goes on calling it. -/
def Iter.pull : Pull Iter DeadlineRecord Fault := fun it =>
  match it.next with
  | .error fault => (.error fault, it)
  | .ok (found, it) => (.ok found, it)

/-- A snapshot that is sorted on a column: the records with their values, which
`LowerBound` goes through from any value on. -/
structure SortedOn (b58 : Bytes → Bytes) (s : Snapshot) (c : Column) (rows : List (DeadlineRecord × Bytes)) :
    Prop where
  values : ∀ row ∈ rows, row.2 ∈ schema.values c row.1
  ascending : rows.Pairwise fun a b => a.2 ≤ b.2
  lowerBound : ∀ ix v, ix.getIndexValue b58 = .ok (c, v) → ix.byPrefix = false →
    s.lowerBound ix = .ok ((rows.filter fun row => v ≤ row.2).map Prod.fst)

/-- The bounds of a range query, and the values that they stand for. -/
structure Bounds (b58 : Bytes → Bytes) (c : Column) (min max : Index) (vmin vmax : Bytes) : Prop where
  column : c = .id ∨ c = .host
  exactMin : min.byPrefix = false
  exactMax : max.byPrefix = false
  resolvesMin : min.getIndexValue b58 = .ok (c, vmin)
  resolvesMax : max.getIndexValue b58 = .ok (c, vmax)

/-- The records in an interval. -/
def between (rows : List (DeadlineRecord × Bytes)) (min max : Bytes) : List DeadlineRecord :=
  ((rows.filter fun row => min ≤ row.2).filter fun row => row.2 ≤ max).map Prod.fst

/-- The records after an interval. -/
def beyond (rows : List (DeadlineRecord × Bytes)) (min max : Bytes) : List DeadlineRecord :=
  ((rows.filter fun row => min ≤ row.2).filter fun row => ¬ row.2 ≤ max).map Prod.fst

/-- A matcher tells where an interval ends: it accepts the last records, at least
one and no others, and there is a record after the interval, the first of which it rejects. -/
def TellsEnd (matching : DeadlineRecord → Bool) (inside after : List DeadlineRecord) : Prop :=
  ∃ lower upper next rest, inside = lower ++ upper ∧ upper ≠ [] ∧ (∀ r ∈ lower, matching r = false) ∧
    (∀ r ∈ upper, matching r) ∧ after = next :: rest ∧ matching next = false

theorem filter_append_filter_of_sorted {rows : List (DeadlineRecord × Bytes)}
    (sorted : rows.Pairwise fun a b => a.2 ≤ b.2) (max : Bytes) :
    rows.filter (fun row => row.2 ≤ max) ++ rows.filter (fun row => ¬ row.2 ≤ max) = rows := by
  induction rows with
  | nil => rfl
  | cons row rows ih =>
    obtain ⟨first, rest⟩ := List.pairwise_cons.mp sorted
    by_cases inside : row.2 ≤ max
    · rw [List.filter_cons_of_pos (by simpa using inside), List.filter_cons_of_neg (by simpa using inside),
        List.cons_append, ih rest]
    · -- once a value is too large, those after it are
      have past : ∀ later ∈ row :: rows, ¬ later.2 ≤ max := by
        intro later member below
        rcases List.mem_cons.mp member with rfl | member
        · exact inside below
        · exact inside (List.le_trans (first later member) below)
      rw [List.filter_eq_nil_iff.mpr (by simpa using past), List.filter_eq_self.mpr (by simpa using past),
        List.nil_append]

theorem SortedOn.from_min {b58 : Bytes → Bytes} {s : Snapshot} {c : Column} {rows : List (DeadlineRecord × Bytes)}
    (sorted : SortedOn b58 s c rows) {ix : Index} {min : Bytes} (resolves : ix.getIndexValue b58 = .ok (c, min))
    (isExact : ix.byPrefix = false) (max : Bytes) :
    s.lowerBound ix = .ok (between rows min max ++ beyond rows min max) := by
  rw [sorted.lowerBound ix min resolves isExact, between, beyond, ← List.map_append,
    filter_append_filter_of_sorted (sorted.ascending.filter _)]

namespace Iter

variable {matching : DeadlineRecord → Bool} {rest records : List DeadlineRecord}

theorem pull_ok {it it' : Iter} {found : Option DeadlineRecord} :
    pull it = (.ok found, it') ↔ it.next = .ok (found, it') := by
  rw [pull]
  cases it.next with
  | error fault => exact iff_of_false (fun h => by cases h) (fun h => by cases h)
  | ok pair =>
    constructor
    · intro h
      cases h
      rfl
    · intro h
      cases h
      rfl

theorem pull_error {it it' : Iter} {fault : Fault} (fails : pull it = (.error fault, it')) :
    it.next = .error fault := by
  rw [pull] at fails
  cases steps : it.next with
  | error fault' =>
    rw [steps] at fails
    cases fails
    rfl
  | ok pair =>
    rw [steps] at fails
    cases fails

theorem dry_of_stop (p : Predicate) (it : Iter) : Pull.Dry pull (.predicateIter p it true) :=
  Pull.dry_of_invariant (· = .predicateIter p it true) (by rintro _ rfl; exact ⟨_, rfl, rfl⟩) rfl

theorem pull_leq_nil (matching : DeadlineRecord → Bool) (reached : Bool) :
    ∃ fault, pull (.predicateIter (.leq matching reached) (.result []) false) =
      (.error fault, .predicateIter (.leq matching reached) (.result []) false) :=
  ⟨_, rfl⟩

theorem pull_leq_cons (matching : DeadlineRecord → Bool) (reached : Bool) (r : DeadlineRecord)
    (rest : List DeadlineRecord) :
    pull (.predicateIter (.leq matching reached) (.result (r :: rest)) false) =
      (.ok (if !(reached || matching r) || matching r then some r else none),
        .predicateIter (.leq matching (reached || matching r)) (.result rest)
          (!(!(reached || matching r) || matching r))) := by
  rw [pull, next_predicateIter rfl rfl]

/-- After the index has been reached, the records go on as long as they match. -/
theorem yields_of_reached : Pull.Yields pull (.predicateIter (.leq matching true) (.result rest) false) records ↔
    ∃ next later, rest = records ++ next :: later ∧ (∀ r ∈ records, matching r) ∧ matching next = false := by
  induction rest generalizing records with
  | nil =>
    obtain ⟨fault, panics⟩ := pull_leq_nil matching true
    refine iff_of_false (Pull.not_yields panics) ?_
    rintro ⟨next, later, empty, -⟩
    cases records with
    | nil => cases empty
    | cons => cases empty
  | cons r rest ih =>
    have call := pull_leq_cons matching true r rest
    cases isMatch : matching r with
    | false =>
      rw [isMatch] at call
      refine (Pull.yields_none call).trans ((and_iff_left (dry_of_stop _ _)).trans ?_)
      constructor
      · rintro rfl
        exact ⟨r, rest, rfl, by simp, isMatch⟩
      · rintro ⟨next, later, split, all, -⟩
        cases records with
        | nil => rfl
        | cons first records =>
          cases split
          rw [all r List.mem_cons_self] at isMatch
          cases isMatch
    | true =>
      rw [isMatch] at call
      rw [Pull.yields_cons call]
      constructor
      · rintro ⟨records, rfl, yields⟩
        obtain ⟨next, later, rfl, all, ends⟩ := ih.mp yields
        exact ⟨next, later, rfl, List.forall_mem_cons.mpr ⟨isMatch, all⟩, ends⟩
      · rintro ⟨next, later, split, all, ends⟩
        cases records with
        | nil =>
          cases split
          rw [ends] at isMatch
          cases isMatch
        | cons first records =>
          cases split
          exact ⟨records, rfl, ih.mpr ⟨next, later, rfl, (List.forall_mem_cons.mp all).2, ends⟩⟩

/-- The records up to an index are the ones before the first match, and the run of
matches that starts there. There is a record after them, or the iterator panics. -/
theorem yields_upTo : Pull.Yields pull (.predicateIter (.leq matching false) (.result rest) false) records ↔
    ∃ lower upper next later, rest = lower ++ upper ++ next :: later ∧ records = lower ++ upper ∧ upper ≠ [] ∧
      (∀ r ∈ lower, matching r = false) ∧ (∀ r ∈ upper, matching r) ∧ matching next = false := by
  induction rest generalizing records with
  | nil =>
    obtain ⟨fault, panics⟩ := pull_leq_nil matching false
    refine iff_of_false (Pull.not_yields panics) ?_
    rintro ⟨lower, upper, next, later, empty, -⟩
    have length := congrArg List.length empty
    simp only [List.length_nil, List.length_append, List.length_cons] at length
    omega
  | cons r rest ih =>
    have call := pull_leq_cons matching false r rest
    cases isMatch : matching r with
    | false =>
      rw [isMatch] at call
      rw [Pull.yields_cons call]
      constructor
      · rintro ⟨records, rfl, yields⟩
        obtain ⟨lower, upper, next, later, rfl, rfl, some, none, all, ends⟩ := ih.mp yields
        exact ⟨r :: lower, upper, next, later, rfl, rfl, some, List.forall_mem_cons.mpr ⟨isMatch, none⟩, all, ends⟩
      · rintro ⟨lower, upper, next, later, split, rfl, some, none, all, ends⟩
        cases lower with
        | nil =>
          cases upper with
          | nil => exact absurd rfl some
          | cons first upper =>
            cases split
            rw [all r List.mem_cons_self] at isMatch
            cases isMatch
        | cons first lower =>
          cases split
          have none' := (List.forall_mem_cons.mp none).2
          exact ⟨_, rfl, ih.mpr ⟨lower, upper, next, later, rfl, rfl, some, none', all, ends⟩⟩
    | true =>
      rw [isMatch] at call
      rw [Pull.yields_cons call]
      constructor
      · rintro ⟨records, rfl, yields⟩
        obtain ⟨next, later, rfl, all, ends⟩ := yields_of_reached.mp yields
        exact ⟨[], r :: records, next, later, rfl, rfl, List.cons_ne_nil _ _, by simp,
          List.forall_mem_cons.mpr ⟨isMatch, all⟩, ends⟩
      · rintro ⟨lower, upper, next, later, split, rfl, some, none, all, ends⟩
        cases lower with
        | nil =>
          cases upper with
          | nil => exact absurd rfl some
          | cons first upper =>
            cases split
            exact ⟨upper, rfl, yields_of_reached.mpr ⟨next, later, rfl, (List.forall_mem_cons.mp all).2, ends⟩⟩
        | cons first lower =>
          cases split
          rw [none r List.mem_cons_self] at isMatch
          cases isMatch

theorem yields_inside_iff {inside after : List DeadlineRecord} :
    Pull.Yields pull (.predicateIter (.leq matching false) (.result (inside ++ after)) false) inside ↔
      TellsEnd matching inside after := by
  rw [yields_upTo, TellsEnd]
  constructor
  · rintro ⟨lower, upper, next, later, split, rfl, some, none, all, ends⟩
    exact ⟨lower, upper, next, later, rfl, some, none, all, List.append_cancel_left split, ends⟩
  · rintro ⟨lower, upper, next, later, rfl, some, none, all, rfl, ends⟩
    exact ⟨lower, upper, next, later, rfl, rfl, some, none, all, ends⟩

end Iter

theorem range_eq {min max : Index} {s : Snapshot} {records : List DeadlineRecord} {it : Iter}
    (bounded : s.lowerBound min = .ok records) : range () min max s = .ok it ↔
      ∃ matching, matchIndex max = .ok matching ∧
        it = .predicateIter (.leq matching false) (.result records) false := by
  have start : startingFrom min s = .ok (Iter.result records) := by
    rw [startingFrom, bounded]
    rfl
  rw [range, Selector.bind, start]
  show upTo () max (Iter.result records) s = _ ↔ _
  rw [upTo]
  cases known : matchIndex max with
  | error fault =>
    refine iff_of_false (fun h => by cases h) ?_
    rintro ⟨_, ok, -⟩
    cases ok
  | ok matching =>
    constructor
    · intro h
      cases h
      exact ⟨matching, rfl, rfl⟩
    · rintro ⟨_, same, rfl⟩
      cases same
      rfl

/-- A range query returns the closed interval exactly when the matcher of its upper
bound tells where the interval ends. For that it has to have seen a match, so a record
with the upper bound has to be there, and it has to be asked about a record after the
interval: at the end of the table it is asked about nil instead. -/
theorem range_closed_interval_iff (b58 : Bytes → Bytes) (s : Snapshot) (c : Column)
    (rows : List (DeadlineRecord × Bytes)) (sorted : SortedOn b58 s c rows) (min max : Index) (vmin vmax : Bytes)
    (bounds : Bounds b58 c min max vmin vmax) :
    (∃ it, range () min max s = .ok it ∧ Pull.Yields Iter.pull it (between rows vmin vmax)) ↔
      ∃ matching, matchIndex max = .ok matching ∧
        TellsEnd matching (between rows vmin vmax) (beyond rows vmin vmax) := by
  have bounded := sorted.from_min bounds.resolvesMin bounds.exactMin vmax
  constructor
  · rintro ⟨it, returned, yields⟩
    obtain ⟨matching, known, rfl⟩ := (range_eq bounded).mp returned
    exact ⟨matching, known, Iter.yields_inside_iff.mp yields⟩
  · rintro ⟨matching, known, tells⟩
    exact ⟨_, (range_eq bounded).mpr ⟨matching, known, rfl⟩, Iter.yields_inside_iff.mpr tells⟩

/-- Two records with the hosts `a` and `b`. -/
def twoHosts : List (DeadlineRecord × Bytes) :=
  [(hostRecord 1 [97], [97]), (hostRecord 2 [98], [98])]

def twoHostsSnapshot : Snapshot where
  get _ := .ok []
  getReverse _ := .ok []
  lowerBound ix := do
    let (_, v) ← ix.getIndexValue id
    return (twoHosts.filter fun row => v ≤ row.2).map Prod.fst
  reverseLowerBound _ := .ok []

theorem twoHosts_sorted : SortedOn id twoHostsSnapshot .host twoHosts where
  values := by
    intro row member
    simp only [twoHosts, List.mem_cons, List.not_mem_nil, or_false] at member
    rcases member with rfl | rfl
    · exact List.mem_singleton.mpr rfl
    · exact List.mem_singleton.mpr rfl
  ascending := by decide
  lowerBound ix v resolves _ := by
    show (ix.getIndexValue id >>= _) = _
    rw [resolves]
    rfl

theorem hostBounds (low high : Bytes) : Bounds id .host (hostIndex low false) (hostIndex high false) low high where
  column := .inr rfl
  exactMin := rfl
  exactMax := rfl
  resolvesMin := hostIndex_resolves low false
  resolvesMax := hostIndex_resolves high false

/-- The range from `a` to `a`, which has a record after it, is the record of `a`. -/
theorem range_closed_interval_iff_first :
    ∃ it, range () (hostIndex [97] false) (hostIndex [97] false) twoHostsSnapshot = .ok it ∧
      Pull.Yields Iter.pull it (between twoHosts [97] [97]) :=
  (range_closed_interval_iff id twoHostsSnapshot .host twoHosts twoHosts_sorted _ _ [97] [97] (hostBounds _ _)).mpr
    ⟨_, rfl, [], [hostRecord 1 [97]], hostRecord 2 [98], [], rfl, List.cons_ne_nil _ _, by simp,
      List.forall_mem_singleton.mpr (by decide), rfl, by decide⟩

/-- The range from `a` to `b`, which nothing comes after, panics where it ends. -/
theorem range_last_panics : SortedOn id twoHostsSnapshot .host twoHosts ∧
    Bounds id .host (hostIndex [97] false) (hostIndex [98] false) [97] [98] ∧
    ¬ ∃ it, range () (hostIndex [97] false) (hostIndex [98] false) twoHostsSnapshot = .ok it ∧
      Pull.Yields Iter.pull it (between twoHosts [97] [98]) := by
  refine ⟨twoHosts_sorted, hostBounds _ _, ?_⟩
  rintro ⟨it, returned, yields⟩
  cases returned
  exact absurd (yields 3) (by decide)

end Casm.Query
