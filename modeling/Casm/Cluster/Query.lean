import Casm.Routing.Snapshot

namespace Casm.Query
open MultiIndex (Bytes)
open Routing

def separator : UInt8 := 61

/-- `ParseField` splits at the first separator. -/
def parseField (s : Bytes) : Except Fault MetaField :=
  match s.dropWhile (· ≠ separator) with
  | [] => .error (.error "separator not found")
  | _ :: value => .ok ⟨s.takeWhile (· ≠ separator), value⟩

/-- `MetaField.String`. -/
def fieldString (f : MetaField) : Bytes :=
  if f.key ≠ [] then f.key ++ separator :: f.value else []

/-- `Meta.Get`: the value of the first field with the key, empty if there is none. -/
def metaGet (key : Bytes) : List (Except Fault Bytes) → Except Fault Bytes
  | [] => .ok []
  | text :: rest => do
    let field ← parseField (← text)
    if field.key = key then return field.value
    metaGet key rest

/-- `Host` and the fast index read the same field of a record. -/
def host (r : DeadlineRecord) : Except Fault Bytes :=
  r.hostBytes

/-- `metaEq`: whether the values that the metadata has for the keys of the record
all match those of the record. -/
def metaEq (matching : Bytes → Bytes → Bool) (r : DeadlineRecord) (fields : List (Except Fault Bytes)) : Bool :=
  match r.record.metadata with
  | .error _ => false
  | .ok [] => fields.isEmpty
  | .ok own => own.all fun text =>
    match text.bind parseField with
    | .error _ => false
    | .ok f =>
      match metaGet f.key fields with
      | .error _ => false
      | .ok value => matching value f.value

def strEq (s₀ s₁ : Bytes) : Bool :=
  s₀ = s₁

/-- `strings.HasPrefix`. -/
def startsWith (s start : Bytes) : Bool :=
  start <+: s

def matchStr (matching : Bytes → Bytes → Bool) (s : Except Fault Bytes) (target : Bytes) : Bool :=
  match s with
  | .error _ => false
  | .ok s => matching s target

/-- The matcher compares the bytes of the peer ID themselves. -/
def matchPeer (ix : Index) : Except Fault (DeadlineRecord → Bool) := do
  let id ← match ix.peerBytes, ix.peer with
    | some result, _ => result
    | none, some (.text result) => result
    | none, _ => .error (.error "not a peer index")
  if ix.byPrefix then return fun r => startsWith r.record.peer id
  return fun r => strEq r.record.peer id

/-- A prefix index compares the whole name, and the other way round. -/
def matchHost (ix : Index) : Except Fault (DeadlineRecord → Bool) := do
  let name ← match ix.hostBytes, ix.host with
    | some result, _ => result
    | none, some result => result
    | none, none => .error (.error "not a host index")
  if ix.byPrefix then return fun r => matchStr strEq (host r) name
  return fun r => matchStr startsWith (host r) name

def matchMeta (ix : Index) : Except Fault (DeadlineRecord → Bool) := do
  let fields ← match ix.metaList with
    | some result => result
    | none => .error (.error "not a meta index")
  if ix.byPrefix then return fun r => metaEq startsWith r fields
  return fun r => metaEq strEq r fields

def matchIndex (ix : Index) : Except Fault (DeadlineRecord → Bool) :=
  match ix.name with
  | "id" => matchPeer ix
  | "host" => matchHost ix
  | "meta" => matchMeta ix
  | _ => .error (.error ("invalid index: " ++ ix.name))

/-- The predicates that `While` is used with: a matcher, or the functions that `Limit` and
`To` make, with the variables that they capture. These are the number of items that are
left, and whether the index has been reached. -/
inductive Predicate where
  | matcher (matching : DeadlineRecord → Bool)
  | limit (n : Int)
  | leq (matching : DeadlineRecord → Bool) (reached : Bool)

/-- What a matcher does with the nil record, whose fields it reads. -/
def nilRecord : Fault :=
  .panic "invalid memory address or nil pointer dereference"

/-- The predicate is also asked about the nil record at the end of a selection. -/
def Predicate.holds : Predicate → Option DeadlineRecord → Except Fault (Bool × Predicate)
  | .matcher matching, some r => .ok (matching r, .matcher matching)
  | .limit n, _ => .ok (n > 0, .limit (n - 1))
  | .leq matching reached, some r =>
    let isMatch := matching r
    let reached := reached || isMatch
    .ok (!reached || isMatch, .leq matching reached)
  | .matcher _, none | .leq _ _, none => .error nilRecord

/-- A result iterator of the table, or a `predicateIter` over another iterator. -/
inductive Iter where
  | result (rest : List DeadlineRecord)
  | predicateIter (predicate : Predicate) (it : Iter) (stop : Bool)

namespace Iter

def next : Iter → Except Fault (Option DeadlineRecord × Iter)
  | .result [] => .ok (none, .result [])
  | .result (r :: rest) => .ok (some r, .result rest)
  | .predicateIter p it true => .ok (none, .predicateIter p it true)
  | .predicateIter p it false => do
    let (r, it) ← it.next
    let (more, p) ← p.holds r
    if more then return (r, .predicateIter p it false)
    return (none, .predicateIter p it true)

/-- The records that the table still has for the iterator. -/
def size : Iter → Nat
  | .result rest => rest.length
  | .predicateIter _ it _ => it.size

end Iter

/-- What a caller gets that calls `Next` until it returns nil: the records, and the
panic that ends them if there is one. -/
structure Iteration where
  records : List DeadlineRecord
  panic : Option Fault
  deriving DecidableEq

def Iter.drainUpTo : Nat → Iter → Iteration
  | 0, _ => ⟨[], none⟩
  | fuel + 1, it =>
    match it.next with
    | .error fault => ⟨[], some fault⟩
    | .ok (none, _) => ⟨[], none⟩
    | .ok (some r, it) => ⟨r :: (it.drainUpTo fuel).records, (it.drainUpTo fuel).panic⟩

/-- Every record that is returned is taken from the table, so there is an end. -/
def Iter.drain (it : Iter) : Iteration :=
  it.drainUpTo (it.size + 1)

/-- A kind of iterators: how the table makes one, and `predicateIter` over one. The
predicate has its variables at an address, where other iterators may use them. -/
class Iterators (I : Type) (Address : outParam Type) where
  result : List DeadlineRecord → I
  predicateIter : Address → Predicate → I → I

/-- Iterators that have the variables of their predicates to themselves. -/
instance : Iterators Iter Unit where
  result := .result
  predicateIter _ p it := .predicateIter p it false

abbrev Selector (I : Type) := Snapshot → Except Fault I

abbrev Constraint (I : Type) := I → Selector I

section Selectors

variable {I Address : Type}

def Selector.bind (selection : Selector I) (f : Constraint I) : Selector I := fun q => do
  f (← selection q) q

def just (it : I) : Selector I := fun _ =>
  .ok it

def failure (fault : Fault) : Constraint I := fun _ _ =>
  .error fault

/-- The index `all`: every id key starts with no bytes. -/
def allIndex : Index where
  name := "id"
  byPrefix := true
  goType := "query.all"
  peerBytes := some (.ok [])
  peer := none
  serverBytes := none
  server := none
  hostBytes := none
  host := none
  metaBytes := none
  metaField := none
  metaList := none
  isRecord := false
  record_methods := Index.no_methods

variable [Iterators I Address]

def select (ix : Index) : Selector I := fun q => do
  return Iterators.result (← q.get ix)

def all : Selector I :=
  select allIndex

/-- `From`. -/
def startingFrom (ix : Index) : Selector I := fun q => do
  return Iterators.result (← q.lowerBound ix)

def whilst (a : Address) (p : Predicate) : Constraint I := fun it =>
  just (Iterators.predicateIter a p it)

def limit (a : Address) (n : Int) : Constraint I :=
  if n ≤ 0 then failure (.error ("expected limit > 0 (got " ++ toString n ++ ")"))
  else whilst a (.limit n)

/-- `To`. -/
def upTo (a : Address) (ix : Index) : Constraint I :=
  match matchIndex ix with
  | .error fault => failure fault
  | .ok matching => whilst a (.leq matching false)

/-- `Range`. -/
def range (a : Address) (min max : Index) : Selector I :=
  (startingFrom min).bind (upTo a max)

def first (a : Address) : Constraint I :=
  limit a 1

end Selectors

/-- `reversed`. -/
def reversed (s : Snapshot) : Snapshot where
  get := s.getReverse
  getReverse := s.get
  lowerBound := s.reverseLowerBound
  reverseLowerBound := s.lowerBound

/-- `Reverse` takes off the reversal of a query that has one, which is the same as
to reverse it again. -/
theorem reversed_reversed (s : Snapshot) : reversed (reversed s) = s :=
  rfl

section Queries

variable {I : Type}

/-- `Query.Iter`. -/
def iter (q : Snapshot) (sel : Selector I) (cs : List (Constraint I)) : Except Fault I :=
  (cs.foldl Selector.bind sel) q

/-- `Query.Lookup`, which calls `Next` once. -/
def lookup (next : I → Except Fault (Option DeadlineRecord)) (q : Snapshot) (sel : Selector I)
    (cs : List (Constraint I)) : Except Fault (Option DeadlineRecord) := do
  next (← iter q sel cs)

theorem iter_concat (q : Snapshot) (sel : Selector I) (cs : List (Constraint I)) (c : Constraint I) :
    iter q sel (cs ++ [c]) = (iter q sel cs >>= fun it => c it q) := by
  rw [iter, List.foldl_append]
  rfl

end Queries

namespace Iter

variable {it it' : Iter} {r : DeadlineRecord} {p : Predicate}

theorem next_predicateIter_error {fault : Fault} (fails : it.next = .error fault) :
    (predicateIter p it false).next = .error fault := by
  rw [next, fails]
  rfl

theorem next_predicateIter_panic {found : Option DeadlineRecord} {fault : Fault} (steps : it.next = .ok (found, it'))
    (panics : p.holds found = .error fault) : (predicateIter p it false).next = .error fault := by
  rw [next, steps]
  show (p.holds found >>= _) = _
  rw [panics]
  rfl

/-- The record is passed on unless the predicate stops the iterator. -/
theorem next_predicateIter {found : Option DeadlineRecord} {more : Bool} {p' : Predicate}
    (steps : it.next = .ok (found, it')) (answer : p.holds found = .ok (more, p')) :
    (predicateIter p it false).next = .ok (if more then found else none, predicateIter p' it' !more) := by
  rw [next, steps]
  show (p.holds found >>= _) = _
  rw [answer]
  cases more <;> rfl

/-- A record that is returned is gone from the table's iterator. -/
theorem size_lt_of_next (it : Iter) (r : DeadlineRecord) (it' : Iter) (steps : it.next = .ok (some r, it')) :
    it'.size < it.size := by
  induction it generalizing it' with
  | result rest =>
    cases rest with
    | nil => cases steps
    | cons first rest =>
      cases steps
      simp only [size, List.length_cons]
      omega
  | predicateIter p it stop ih =>
    cases stop with
    | true => cases steps
    | false =>
      cases inner : it.next with
      | error fault =>
        rw [next_predicateIter_error inner] at steps
        cases steps
      | ok found =>
        obtain ⟨found, it₁⟩ := found
        cases answer : p.holds found with
        | error fault =>
          rw [next_predicateIter_panic inner answer] at steps
          cases steps
        | ok answered =>
          obtain ⟨more, p'⟩ := answered
          rw [next_predicateIter inner answer] at steps
          cases more with
          | true =>
            cases steps
            exact ih it₁ inner
          | false => cases steps

theorem drainUpTo_congr (it : Iter) {fuel fuel' : Nat} (enough : it.size < fuel) (enough' : it.size < fuel') :
    it.drainUpTo fuel = it.drainUpTo fuel' := by
  induction fuel generalizing it fuel' with
  | zero => omega
  | succ fuel ih =>
    obtain ⟨less, isSucc⟩ := Nat.exists_eq_succ_of_ne_zero (by omega : fuel' ≠ 0)
    subst isSucc
    rw [drainUpTo, drainUpTo]
    cases steps : it.next with
    | error fault => rfl
    | ok found =>
      obtain ⟨found, it'⟩ := found
      cases found with
      | none => rfl
      | some r =>
        have smaller := size_lt_of_next it r it' steps
        simp only [ih it' (by omega) (by omega : it'.size < less)]

theorem drain_error {fault : Fault} (fails : it.next = .error fault) : it.drain = ⟨[], some fault⟩ := by
  rw [drain, drainUpTo, fails]

theorem drain_none (ends : it.next = .ok (none, it')) : it.drain = ⟨[], none⟩ := by
  rw [drain, drainUpTo, ends]

theorem drain_some (steps : it.next = .ok (some r, it')) :
    it.drain = ⟨r :: it'.drain.records, it'.drain.panic⟩ := by
  have smaller := size_lt_of_next it r it' steps
  have same : it'.drainUpTo it.size = it'.drain := drainUpTo_congr it' smaller (Nat.lt_succ_self _)
  rw [drain, drainUpTo, steps]
  simp only [same]

theorem drain_result (rest : List DeadlineRecord) : (result rest).drain = ⟨rest, none⟩ := by
  induction rest with
  | nil => exact drain_none rfl
  | cons r rest ih => rw [drain_some rfl, ih]

/-- An induction along the records that an iterator returns. -/
theorem drain_induction {motive : Iter → Prop}
    (error : ∀ it fault, it.next = .error fault → motive it)
    (none : ∀ it it', it.next = .ok (none, it') → motive it)
    (some : ∀ it r it', it.next = .ok (some r, it') → motive it' → motive it) (it : Iter) : motive it := by
  induction size : it.size using Nat.strongRecOn generalizing it with
  | ind n ih =>
    cases steps : it.next with
    | error fault => exact error it fault steps
    | ok found =>
      obtain ⟨found, it'⟩ := found
      cases found with
      | none => exact none it it' steps
      | some r =>
        have smaller := size_lt_of_next it r it' steps
        exact some it r it' steps (ih it'.size (by omega) it' rfl)

end Iter

/-- The first records of an iteration. -/
def Iteration.take (n : Nat) (i : Iteration) : Iteration :=
  if n < i.records.length then ⟨i.records.take n, none⟩ else i

theorem Predicate.limit_zero (found : Option DeadlineRecord) :
    Predicate.holds (.limit (0 : Nat)) found = .ok (false, .limit (-1)) :=
  rfl

theorem Predicate.limit_succ (n : Nat) (found : Option DeadlineRecord) :
    Predicate.holds (.limit (n + 1 : Nat)) found = .ok (true, .limit n) := by
  have positive : ((n + 1 : Nat) : Int) > 0 := by omega
  have counted : ((n + 1 : Nat) : Int) - 1 = n := by omega
  rw [Predicate.holds, counted, decide_eq_true positive]

/-- A limit that is not below the number of records changes nothing, not even how
they end. -/
theorem Iter.drain_limit (it : Iter) (n : Nat) : (predicateIter (.limit n) it false).drain = it.drain.take n := by
  induction it using drain_induction generalizing n with
  | error it fault fails =>
    rw [drain_error (next_predicateIter_error fails), drain_error fails]
    rfl
  | none it it' ends =>
    rw [drain_none ends]
    cases n with
    | zero =>
      rw [drain_none (next_predicateIter ends (Predicate.limit_zero _))]
      rfl
    | succ n =>
      rw [drain_none (next_predicateIter ends (Predicate.limit_succ n _))]
      rfl
  | some it r it' steps ih =>
    rw [drain_some steps]
    cases n with
    | zero =>
      rw [drain_none (next_predicateIter steps (Predicate.limit_zero _))]
      rfl
    | succ n =>
      rw [drain_some (next_predicateIter steps (Predicate.limit_succ n _))]
      show (⟨r :: (predicateIter (.limit n) it' false).drain.records,
        (predicateIter (.limit n) it' false).drain.panic⟩ : Iteration) = _
      rw [ih n]
      by_cases less : n < it'.drain.records.length
      · simp [Iteration.take, less]
      · simp [Iteration.take, less]

/-- Up to an index, an iteration loses a record or ends in a panic: the matcher is
asked about the nil record when the records are exhausted. -/
theorem Iter.drain_leq (it : Iter) (matching : DeadlineRecord → Bool) (reached : Bool) :
    (predicateIter (.leq matching reached) it false).drain.records.length ≤ it.drain.records.length ∧
      ((predicateIter (.leq matching reached) it false).drain.records.length < it.drain.records.length ∨
        (predicateIter (.leq matching reached) it false).drain.panic.isSome) := by
  induction it using drain_induction generalizing reached with
  | error it fault fails =>
    rw [drain_error (next_predicateIter_error fails), drain_error fails]
    exact ⟨le_rfl, Or.inr rfl⟩
  | none it it' ends =>
    rw [drain_error (next_predicateIter_panic ends rfl), drain_none ends]
    exact ⟨le_rfl, Or.inr rfl⟩
  | some it r it' steps ih =>
    have answer : Predicate.holds (.leq matching reached) (some r) =
        .ok (!(reached || matching r) || matching r, .leq matching (reached || matching r)) := rfl
    have outer := next_predicateIter steps answer
    rw [drain_some steps]
    cases more : (!(reached || matching r) || matching r) with
    | true =>
      rw [more] at outer
      rw [drain_some outer]
      have bound := ih (reached || matching r)
      simp only [List.length_cons, Bool.not_true]
      exact ⟨by omega, bound.2.imp_left (by omega)⟩
    | false =>
      rw [more] at outer
      rw [drain_none outer]
      simp

end Casm.Query
