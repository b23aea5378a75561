import Casm.Routing.ExpiringMap

namespace Casm.Routing
open MultiIndex

/-- How far one call of `Upsert` has come: its check has not run, its check
has passed and its write is due, or it has returned. -/
inductive Phase where
  | waiting | checked | finished
  deriving DecidableEq, Repr

/-- The two transactions of the call with the given number. -/
inductive Event where
  | read (call : Nat)
  | write (call : Nat)
  deriving DecidableEq, Repr

/-- Any number of calls of `Upsert` that share a table. -/
structure Upserts (E : Engine schema) where
  table : Table E
  phase : Nat → Phase

section Steps

variable {E : Engine schema} (b58 : Bytes → Bytes) (recs : List Record)

/-- One transaction of one call; `none` when the call is not at that point or
panics. The check reads the committed table, the write commits its own. -/
def Upserts.step (s : Upserts E) : Event → Option (Upserts E)
  | .read i =>
    match recs[i]?, s.phase i with
    | some rec, .waiting =>
      match Table.valid b58 s.table.records rec with
      | .ok true => some { s with phase := Function.update s.phase i .checked }
      | .ok false => some { s with phase := Function.update s.phase i .finished }
      | .error _ => none
    | _, _ => none
  | .write i =>
    match recs[i]?, s.phase i with
    | some rec, .checked =>
      match s.table.write rec with
      | (table, .ok ()) => some { table := table, phase := Function.update s.phase i .finished }
      | (_, .error _) => none
    | _, _ => none

/-- The states that a schedule of transactions leads to from a new table. -/
inductive Upserts.Run (t0 : Int) : List Event → Upserts E → Prop
  | start : Run t0 [] { table := Table.new t0, phase := fun _ => .waiting }
  | next {es s e s'} : Run t0 es s → s.step b58 recs e = some s' → Run t0 (es ++ [e]) s'

/-- Run a schedule, as far as its transactions are possible. -/
def Upserts.exec (s : Upserts E) : List Event → Option (Upserts E)
  | [] => some s
  | e :: rest => (s.step b58 recs e).bind fun s' => s'.exec rest

theorem Upserts.Run.exec {b58 : Bytes → Bytes} {recs : List Record} {t0 : Int} {past : List Event}
    {s s' : Upserts E} (run : Upserts.Run b58 recs t0 past s) (es : List Event) (rest : s.exec b58 recs es = some s') :
    Upserts.Run b58 recs t0 (past ++ es) s' := by
  induction es generalizing past s with
  | nil =>
    obtain rfl := Option.some.inj rest
    rwa [List.append_nil]
  | cons e es ih =>
    obtain ⟨s'', step, rest'⟩ := Option.bind_eq_some_iff.mp rest
    have longer := ih (run.next step) rest'
    rwa [List.append_assoc] at longer

/-- The sequence number stored for a peer is still there and no smaller. -/
def Table.SeqGrows (before after : Table E) : Prop :=
  ∀ r, before.Stores r → ∃ r', after.Stores r' ∧ r'.record.peer = r.record.peer ∧
    r.record.seqNo ≤ r'.record.seqNo

/-- No step of the schedule takes a stored sequence number back. -/
def Upserts.NeverDecreases (E : Engine schema) (t0 : Int) (es : List Event) : Prop :=
  ∀ past e, past ++ [e] <+: es → ∀ s s' : Upserts E, Upserts.Run b58 recs t0 past s →
    s.step b58 recs e = some s' → s.table.SeqGrows s'.table

/-- Once every call has returned, the record stored for a peer is one of those
presented and none presented for the peer has a higher sequence number. -/
def Upserts.NewestStored (E : Engine schema) (t0 : Int) (es : List Event) : Prop :=
  ∀ s : Upserts E, Upserts.Run b58 recs t0 es s → (∀ i < recs.length, s.phase i = .finished) →
    ∀ rec ∈ recs, ∃ r, s.table.Stores r ∧ r.record ∈ recs ∧ r.record.peer = rec.peer ∧
      ∀ other ∈ recs, other.peer = rec.peer → other.seqNo ≤ r.record.seqNo

/-- Some call writes although, since its check, another call has written a
record of the same peer with a higher sequence number. -/
def Overtaken (es : List Event) : Prop :=
  ∃ i j a b, recs[i]? = some a ∧ recs[j]? = some b ∧ a.peer = b.peer ∧ a.seqNo < b.seqNo ∧
    List.Sublist [.read i, .write j, .write i] es

theorem Upserts.read_cases {b58 : Bytes → Bytes} {recs : List Record} {s s' : Upserts E} {i : Nat}
    (step : s.step b58 recs (.read i) = some s') :
    ∃ rec, recs[i]? = some rec ∧ s.phase i = .waiting ∧
      (Table.valid b58 s.table.records rec = .ok true ∧
          s' = { s with phase := Function.update s.phase i .checked } ∨
        Table.valid b58 s.table.records rec = .ok false ∧
          s' = { s with phase := Function.update s.phase i .finished }) := by
  simp only [Upserts.step] at step
  split at step
  · rename_i rec found waiting
    refine ⟨rec, found, waiting, ?_⟩
    split at step
    · rename_i valid
      exact Or.inl ⟨valid, (Option.some.inj step).symm⟩
    · rename_i stale
      exact Or.inr ⟨stale, (Option.some.inj step).symm⟩
    · simp at step
  · simp at step

theorem Upserts.write_cases {b58 : Bytes → Bytes} {recs : List Record} {s s' : Upserts E} {i : Nat}
    (step : s.step b58 recs (.write i) = some s') :
    ∃ rec, recs[i]? = some rec ∧ s.phase i = .checked ∧
      s' = { table := (s.table.write rec).1, phase := Function.update s.phase i .finished } := by
  simp only [Upserts.step] at step
  split at step
  · rename_i rec found checked
    refine ⟨rec, found, checked, ?_⟩
    split at step
    · rename_i written
      rw [written]
      exact (Option.some.inj step).symm
    · simp at step
  · simp at step

theorem Overtaken.mono {recs : List Record} {past es : List Event} (overtaken : Overtaken recs past)
    (sublist : past.Sublist es) : Overtaken recs es := by
  obtain ⟨i, j, a, b, atI, atJ, peers, less, order⟩ := overtaken
  exact ⟨i, j, a, b, atI, atJ, peers, less, order.trans sublist⟩

end Steps

theorem sublist_concat_cases {α : Type} (xs : List α) (x : α) {ys : List α} {y : α}
    (order : (xs ++ [x]).Sublist (ys ++ [y])) :
    (xs ++ [x]).Sublist ys ∨ x = y ∧ xs.Sublist ys := by
  have reversed := List.reverse_sublist.mpr order
  simp only [List.reverse_append, List.reverse_singleton, List.singleton_append] at reversed
  rcases List.sublist_cons_iff.mp reversed with below | ⟨rest, same, below⟩
  · refine Or.inl (List.reverse_sublist.mp ?_)
    simpa only [List.reverse_append, List.reverse_singleton, List.singleton_append] using below
  · obtain ⟨rfl, rfl⟩ := List.cons.inj same
    exact Or.inr ⟨rfl, List.reverse_sublist.mp below⟩

/-- The event that overtakes a schedule is the last write of the overtaken call. -/
theorem Overtaken.concat_cases {recs : List Record} {es : List Event} {e : Event}
    (overtaken : Overtaken recs (es ++ [e])) :
    Overtaken recs es ∨ ∃ i j a b, e = .write i ∧ .write j ∈ es ∧ recs[i]? = some a ∧ recs[j]? = some b ∧
      a.peer = b.peer ∧ a.seqNo < b.seqNo := by
  obtain ⟨i, j, a, b, atI, atJ, peers, less, order⟩ := overtaken
  rcases sublist_concat_cases [Event.read i, Event.write j] (Event.write i) order with old | ⟨last, before⟩
  · exact Or.inl ⟨i, j, a, b, atI, atJ, peers, less, old⟩
  · exact Or.inr ⟨i, j, a, b, last.symm, before.subset (by simp), atI, atJ, peers, less⟩

section Invariant

variable {E : Engine schema} {idKey : Bytes → Bytes} {b58 : Bytes → Bytes} {recs : List Record} {t0 : Int}

/-- What holds along every schedule: the table represents a map, whose records
come from writes that have happened, and the phases follow the events. -/
structure Tracks (idKey : Bytes → Bytes) (recs : List Record) (es : List Event) (s : Upserts E)
    (m : ExpiringMap) : Prop where
  represents : Represents idKey s.table m
  begun : ∀ i, s.phase i ≠ .waiting → .read i ∈ es
  written : ∀ i, .write i ∈ es → s.phase i = .finished
  origin : ∀ p r, m.entries p = some r → ∃ j, recs[j]? = some r.record ∧ .write j ∈ es

variable (keys : IdKeys idKey) (conforms : ∀ rec ∈ recs, rec.Conforms idKey)
  (oneServer : ∀ a ∈ recs, ∀ b ∈ recs, a.peer = b.peer → a.server = b.server)

theorem Tracks.initially (t0 : Int) : Tracks idKey recs []
    ({ table := Table.new t0, phase := fun _ => .waiting } : Upserts E) (ExpiringMap.new t0) where
  represents := Represents.initially idKey t0
  begun i moved := absurd rfl moved
  written i member := absurd member List.not_mem_nil
  origin p r stored := by simp [ExpiringMap.new] at stored

theorem Tracks.read {es : List Event} {s s' : Upserts E} {m : ExpiringMap} {i : Nat}
    (tracks : Tracks idKey recs es s m) (step : s.step b58 recs (.read i) = some s') :
    Tracks idKey recs (es ++ [.read i]) s' m := by
  obtain ⟨rec, found, waiting, outcome⟩ := Upserts.read_cases step
  have moved : s'.table = s.table ∧ (∀ k, k ≠ i → s'.phase k = s.phase k) := by
    rcases outcome with ⟨_, rfl⟩ | ⟨_, rfl⟩
    · exact ⟨rfl, fun k other => Function.update_of_ne other ..⟩
    · exact ⟨rfl, fun k other => Function.update_of_ne other ..⟩
  refine ⟨by rw [moved.1]; exact tracks.represents, fun k begun => ?_, fun k member => ?_, fun p r stored => ?_⟩
  · by_cases same : k = i
    · simp [same]
    · rw [moved.2 k same] at begun
      exact List.mem_append_left _ (tracks.begun k begun)
  · have old : .write k ∈ es := by simpa using member
    have done := tracks.written k old
    have other : k ≠ i := by
      rintro rfl
      rw [waiting] at done
      cases done
    rw [moved.2 k other, done]
  · obtain ⟨j, atJ, wrote⟩ := tracks.origin p r stored
    exact ⟨j, atJ, List.mem_append_left _ wrote⟩

include keys conforms in
theorem Tracks.write {es : List Event} {s s' : Upserts E} {m : ExpiringMap} {i : Nat} {rec : Record}
    (tracks : Tracks idKey recs es s m) (found : recs[i]? = some rec)
    (checked : s.phase i = .checked)
    (next : s' = { table := (s.table.write rec).1, phase := Function.update s.phase i .finished }) :
    Tracks idKey recs (es ++ [.write i]) s' (m.put rec) := by
  have good := conforms rec (List.mem_of_getElem? found)
  subst next
  refine ⟨(tracks.represents.write_spec keys good).2, fun k begun => ?_, fun k member => ?_, fun p r stored => ?_⟩
  · by_cases same : k = i
    · subst same
      exact List.mem_append_left _ (tracks.begun k (by simp [checked]))
    · simp only [Function.update_of_ne same] at begun
      exact List.mem_append_left _ (tracks.begun k begun)
  · by_cases same : k = i
    · simp only [same, Function.update_self]
    · simp only [Function.update_of_ne same]
      refine tracks.written k ?_
      simpa [same] using member
  · rcases ExpiringMap.put_cases stored with ⟨_, fresh⟩ | old
    · exact ⟨i, by rw [fresh]; exact found, by simp⟩
    · obtain ⟨j, atJ, wrote⟩ := tracks.origin p r old
      exact ⟨j, atJ, List.mem_append_left _ wrote⟩

theorem Tracks.origin_mem {es : List Event} {s : Upserts E} {m : ExpiringMap}
    (tracks : Tracks idKey recs es s m) {p : Bytes} {r : DeadlineRecord} (stored : m.entries p = some r) :
    r.record ∈ recs := by
  obtain ⟨j, atJ, _⟩ := tracks.origin p r stored
  exact List.mem_of_getElem? atJ

include oneServer in
/-- With one server per peer, a passed check has seen a smaller sequence
number or no record, and a failed check one that is not smaller. -/
theorem Tracks.accepts_iff {es : List Event} {s : Upserts E} {m : ExpiringMap}
    (tracks : Tracks idKey recs es s m) {rec : Record} (member : rec ∈ recs) :
    m.accepts rec = true ↔ ∀ r, m.entries rec.peer = some r → r.record.seqNo < rec.seqNo := by
  unfold ExpiringMap.accepts
  cases stored : m.entries rec.peer with
  | none => simp
  | some old =>
    have peers := tracks.represents.peers _ _ stored
    have same := oneServer _ (tracks.origin_mem stored) _ member peers
    simp [same]

theorem Represents.seqGrows_iff {table table' : Table E} {m m' : ExpiringMap}
    (inv : Represents idKey table m) (inv' : Represents idKey table' m') :
    table.SeqGrows table' ↔ ∀ p r, m.entries p = some r →
      ∃ r', m'.entries p = some r' ∧ r.record.seqNo ≤ r'.record.seqNo := by
  constructor
  · intro grows p r stored
    have peer := inv.peers p r stored
    obtain ⟨r', stored', peer', bound⟩ := grows r ((inv.holds r).mpr (by rw [peer]; exact stored))
    refine ⟨r', ?_, bound⟩
    rw [← peer, ← peer']
    exact (inv'.holds r').mp stored'
  · intro grows r stored
    obtain ⟨r', stored', bound⟩ := grows _ r ((inv.holds r).mp stored)
    have peer := inv'.peers _ r' stored'
    exact ⟨r', (inv'.holds r').mpr (by rw [peer]; exact stored'), peer, bound⟩

theorem ExpiringMap.put_grows {m : ExpiringMap} {rec : Record}
    (bound : ∀ r, m.entries rec.peer = some r → r.record.seqNo ≤ rec.seqNo) (p : Bytes) (r : DeadlineRecord)
    (stored : m.entries p = some r) :
    ∃ r', (m.put rec).entries p = some r' ∧ r.record.seqNo ≤ r'.record.seqNo := by
  by_cases same : p = rec.peer
  · subst same
    exact ⟨_, m.put_self rec, bound r stored⟩
  · exact ⟨r, (m.put_other rec same).trans stored, UInt64.le_refl _⟩

/-- What holds as long as no call was overtaken: a call that returned left a
sequence number no smaller than its own, and a call due to write knows every
earlier write as older than itself or as made after its check. -/
structure Ordered (recs : List Record) (es : List Event) (s : Upserts E) (m : ExpiringMap) : Prop where
  finished : ∀ i a, s.phase i = .finished → recs[i]? = some a →
    ∃ r, m.entries a.peer = some r ∧ a.seqNo ≤ r.record.seqNo
  checked : ∀ i a, s.phase i = .checked → recs[i]? = some a → ∀ j b, recs[j]? = some b →
    b.peer = a.peer → .write j ∈ es → b.seqNo < a.seqNo ∨ List.Sublist [.read i, .write j] es

theorem Ordered.initially (t0 : Int) : Ordered recs []
    ({ table := Table.new t0, phase := fun _ => .waiting } : Upserts E) (ExpiringMap.new t0) where
  finished i a done := by cases done
  checked i a due := by cases due

include keys conforms oneServer in
theorem Ordered.read {es : List Event} {s s' : Upserts E} {m : ExpiringMap} {i : Nat}
    (tracks : Tracks idKey recs es s m) (ordered : Ordered recs es s m)
    (step : s.step b58 recs (.read i) = some s') : Ordered recs (es ++ [.read i]) s' m := by
  obtain ⟨rec, found, waiting, outcome⟩ := Upserts.read_cases step
  have member := List.mem_of_getElem? found
  rw [tracks.represents.valid_eq keys (conforms rec member) b58, Except.ok.injEq, Except.ok.injEq] at outcome
  have wrote {j : Nat} (later : .write j ∈ es ++ [Event.read i]) : .write j ∈ es := by simpa using later
  rcases outcome with ⟨passed, rfl⟩ | ⟨stale, rfl⟩
  · refine ⟨fun k a done atK => ?_, fun k a due atK j b atJ peers later => ?_⟩
    · by_cases same : k = i
      · simp [same] at done
      · exact ordered.finished k a (by simpa [same] using done) atK
    · by_cases same : k = i
      · -- The check passed, so every write so far is older than this record.
        subst same
        obtain rfl : rec = a := Option.some.inj (found.symm.trans atK)
        obtain ⟨r, stored, bound⟩ := ordered.finished j b (tracks.written j (wrote later)) atJ
        have smaller := (tracks.accepts_iff oneServer member).mp passed r (by rw [← peers]; exact stored)
        exact Or.inl (UInt64.lt_of_le_of_lt bound smaller)
      · rcases ordered.checked k a (by simpa [same] using due) atK j b atJ peers (wrote later) with less | order
        · exact Or.inl less
        · exact Or.inr (order.trans (List.sublist_append_left _ _))
  · refine ⟨fun k a done atK => ?_, fun k a due atK j b atJ peers later => ?_⟩
    · by_cases same : k = i
      · subst same
        obtain rfl : rec = a := Option.some.inj (found.symm.trans atK)
        have refused : ¬ m.accepts rec = true := by simp [stale]
        rw [tracks.accepts_iff oneServer member] at refused
        push Not at refused
        simpa only [UInt64.not_lt] using refused
      · exact ordered.finished k a (by simpa [same] using done) atK
    · by_cases same : k = i
      · simp [same] at due
      · rcases ordered.checked k a (by simpa [same] using due) atK j b atJ peers (wrote later) with less | order
        · exact Or.inl less
        · exact Or.inr (order.trans (List.sublist_append_left _ _))

/-- At a write that was not overtaken the stored sequence number is no larger. -/
theorem Ordered.stored_le {es : List Event} {s : Upserts E} {m : ExpiringMap} {i : Nat} {rec : Record}
    (tracks : Tracks idKey recs es s m) (ordered : Ordered recs es s m) (found : recs[i]? = some rec)
    (due : s.phase i = .checked) (inOrder : ¬ Overtaken recs (es ++ [.write i])) {r : DeadlineRecord}
    (stored : m.entries rec.peer = some r) : r.record.seqNo ≤ rec.seqNo := by
  obtain ⟨j, atJ, wrote⟩ := tracks.origin _ r stored
  have peers := tracks.represents.peers _ r stored
  rcases ordered.checked i rec due found j r.record atJ peers wrote with less | order
  · exact UInt64.le_of_lt less
  · by_contra larger
    refine inOrder ⟨i, j, rec, r.record, found, atJ, peers.symm, UInt64.not_le.mp larger, ?_⟩
    exact order.append (List.Sublist.refl [Event.write i])

theorem Ordered.write {es : List Event} {s s' : Upserts E} {m : ExpiringMap} {i : Nat} {rec : Record}
    (tracks : Tracks idKey recs es s m) (ordered : Ordered recs es s m) (found : recs[i]? = some rec)
    (due : s.phase i = .checked) (inOrder : ¬ Overtaken recs (es ++ [.write i]))
    (next : s' = { table := (s.table.write rec).1, phase := Function.update s.phase i .finished }) :
    Ordered recs (es ++ [.write i]) s' (m.put rec) := by
  subst next
  have grows := ExpiringMap.put_grows (fun r stored => ordered.stored_le tracks found due inOrder stored)
  refine ⟨fun k a done atK => ?_, fun k a due' atK j b atJ peers later => ?_⟩
  · by_cases same : k = i
    · subst same
      obtain rfl : rec = a := Option.some.inj (found.symm.trans atK)
      exact ⟨_, m.put_self rec, UInt64.le_refl _⟩
    · obtain ⟨r, stored, bound⟩ := ordered.finished k a (by simpa [same] using done) atK
      obtain ⟨r', stored', bound'⟩ := grows _ r stored
      exact ⟨r', stored', UInt64.le_trans bound bound'⟩
  · have other : k ≠ i := by
      rintro rfl
      simp at due'
    have dueBefore : s.phase k = .checked := by simpa [other] using due'
    by_cases last : j = i
    · subst last
      have began := tracks.begun k (by simp [dueBefore])
      exact Or.inr ((List.singleton_sublist.mpr began).append (List.Sublist.refl [Event.write j]))
    · have wrote : .write j ∈ es := by simpa [last] using later
      rcases ordered.checked k a dueBefore atK j b atJ peers wrote with less | order
      · exact Or.inl less
      · exact Or.inr (order.trans (List.sublist_append_left _ _))

include keys conforms oneServer

theorem Upserts.Run.ordered {es : List Event} {s : Upserts E} (run : Upserts.Run b58 recs t0 es s)
    (inOrder : ¬ Overtaken recs es) : ∃ m, Tracks idKey recs es s m ∧ Ordered recs es s m := by
  induction run with
  | start => exact ⟨_, Tracks.initially t0, Ordered.initially t0⟩
  | @next es s e s' previous step ih =>
    obtain ⟨m, tracks, ordered⟩ := ih fun overtaken => inOrder (overtaken.mono (List.sublist_append_left _ _))
    cases e with
    | read i => exact ⟨m, tracks.read step, ordered.read keys conforms oneServer tracks step⟩
    | write i =>
      obtain ⟨rec, found, due, next⟩ := Upserts.write_cases step
      exact ⟨_, tracks.write keys conforms found due next, ordered.write tracks found due inOrder next⟩

theorem Upserts.neverDecreases_of_inOrder {es : List Event} (inOrder : ¬ Overtaken recs es) :
    Upserts.NeverDecreases b58 recs E t0 es := by
  intro past e before s s' run step
  have inOrder' : ¬ Overtaken recs (past ++ [e]) := fun overtaken => inOrder (overtaken.mono before.sublist)
  obtain ⟨m, tracks, ordered⟩ := run.ordered keys conforms oneServer
    fun overtaken => inOrder' (overtaken.mono (List.sublist_append_left _ _))
  cases e with
  | read i =>
    rw [tracks.represents.seqGrows_iff (tracks.read step).represents]
    exact fun p r stored => ⟨r, stored, UInt64.le_refl _⟩
  | write i =>
    obtain ⟨rec, found, due, next⟩ := Upserts.write_cases step
    rw [tracks.represents.seqGrows_iff (tracks.write keys conforms found due next).represents]
    exact ExpiringMap.put_grows fun r stored => ordered.stored_le tracks found due inOrder' stored

theorem Upserts.newestStored_of_inOrder {es : List Event} (inOrder : ¬ Overtaken recs es) :
    Upserts.NewestStored b58 recs E t0 es := by
  intro s run done rec member
  obtain ⟨m, tracks, ordered⟩ := run.ordered keys conforms oneServer inOrder
  have newest (other : Record) (presented : other ∈ recs) :
      ∃ r, m.entries other.peer = some r ∧ other.seqNo ≤ r.record.seqNo := by
    obtain ⟨i, bound, found⟩ := List.mem_iff_getElem.mp presented
    exact ordered.finished i other (done i bound) (List.getElem?_eq_some_iff.mpr ⟨bound, found⟩)
  obtain ⟨r, stored, _⟩ := newest rec member
  have peers := tracks.represents.peers _ r stored
  refine ⟨r, (tracks.represents.holds r).mpr (by rw [peers]; exact stored), tracks.origin_mem stored, peers, ?_⟩
  intro other presented same
  obtain ⟨r', stored', bound⟩ := newest other presented
  rw [same, stored, Option.some.injEq] at stored'
  rw [stored']
  exact bound

omit oneServer in
/-- A schedule that overtakes a call takes a sequence number back: the later
write finds the higher number still stored, or it was lost before. -/
theorem Upserts.Run.inOrder {es : List Event} {s : Upserts E} (run : Upserts.Run b58 recs t0 es s)
    (grows : Upserts.NeverDecreases b58 recs E t0 es) : ¬ Overtaken recs es := by
  suffices ∃ m, Tracks idKey recs es s m ∧ (∀ j b, .write j ∈ es → recs[j]? = some b →
      ∃ r, m.entries b.peer = some r ∧ b.seqNo ≤ r.record.seqNo) ∧ ¬ Overtaken recs es by
    exact this.choose_spec.2.2
  -- Until a call is overtaken, every write has left a number no smaller than its own.
  induction run with
  | start =>
    refine ⟨_, Tracks.initially t0, fun j b wrote => absurd wrote List.not_mem_nil, fun overtaken => ?_⟩
    obtain ⟨i, j, a, b, _, _, _, _, order⟩ := overtaken
    simp at order
  | @next es s e s' previous step ih =>
    obtain ⟨m, tracks, kept, inOrder⟩ := ih fun past last before =>
      grows past last (before.trans (List.prefix_append _ _))
    have grew := grows es e (List.prefix_refl _) s s' previous step
    cases e with
    | read i =>
      refine ⟨m, tracks.read step, fun j b wrote => kept j b (by simpa using wrote), fun overtaken => ?_⟩
      rcases overtaken.concat_cases with old | ⟨_, _, _, _, last, _⟩
      · exact inOrder old
      · cases last
    | write i =>
      obtain ⟨rec, found, due, next⟩ := Upserts.write_cases step
      have tracks' := tracks.write keys conforms found due next
      rw [tracks.represents.seqGrows_iff tracks'.represents] at grew
      refine ⟨_, tracks', fun j b wrote atJ => ?_, fun overtaken => ?_⟩
      · by_cases last : j = i
        · subst last
          obtain rfl : rec = b := Option.some.inj (found.symm.trans atJ)
          exact ⟨_, m.put_self rec, UInt64.le_refl _⟩
        · obtain ⟨r, stored, bound⟩ := kept j b (by simpa [last] using wrote) atJ
          obtain ⟨r', stored', bound'⟩ := grew _ r stored
          exact ⟨r', stored', UInt64.le_trans bound bound'⟩
      · rcases overtaken.concat_cases with old | ⟨k, j, a, b, last, wrote, atK, atJ, peers, less⟩
        · exact inOrder old
        · obtain rfl : i = k := Event.write.inj last
          obtain rfl : rec = a := Option.some.inj (found.symm.trans atK)
          obtain ⟨r, stored, bound⟩ := kept j b wrote atJ
          obtain ⟨r', stored', bound'⟩ := grew _ r stored
          rw [← peers, m.put_self, Option.some.injEq] at stored'
          rw [← stored'] at bound'
          exact absurd (UInt64.lt_of_lt_of_le less (UInt64.le_trans bound bound')) (UInt64.lt_irrefl _)

/-- Concurrent upserts lose no update exactly when no call writes after a
newer record of the same peer was written behind its check. -/
theorem Upserts.no_lost_update_iff {es : List Event} {s : Upserts E} (run : Upserts.Run b58 recs t0 es s) :
    Upserts.NeverDecreases b58 recs E t0 es ∧ Upserts.NewestStored b58 recs E t0 es ↔
      ¬ Overtaken recs es := by
  refine ⟨fun kept => run.inOrder keys conforms kept.1, fun inOrder => ⟨?_, ?_⟩⟩
  · exact Upserts.neverDecreases_of_inOrder keys conforms oneServer inOrder
  · exact Upserts.newestStored_of_inOrder keys conforms oneServer inOrder

end Invariant

def twoHeartbeats : List Record :=
  [sampleRecord 7 1 10, sampleRecord 7 2 10]

theorem twoHeartbeats_conform : ∀ rec ∈ twoHeartbeats, rec.Conforms id := by
  intro rec member
  simp only [twoHeartbeats, List.mem_cons, List.not_mem_nil, or_false] at member
  rcases member with rfl | rfl <;> exact sampleRecord_conforms ..

theorem twoHeartbeats_oneServer :
    ∀ a ∈ twoHeartbeats, ∀ b ∈ twoHeartbeats, a.peer = b.peer → a.server = b.server := by decide

theorem no_lost_update_serial :
    Upserts.NeverDecreases id twoHeartbeats (sortedEngine schema) 0 [.read 0, .write 0, .read 1, .write 1] ∧
      Upserts.NewestStored id twoHeartbeats (sortedEngine schema) 0
        [.read 0, .write 0, .read 1, .write 1] := by
  have fresh : Upserts.Run (E := sortedEngine schema) id twoHeartbeats 0 [] _ := .start
  have run := fresh.exec [.read 0, .write 0, .read 1, .write 1] rfl
  refine (Upserts.no_lost_update_iff idKeys_id twoHeartbeats_conform twoHeartbeats_oneServer run).mpr ?_
  rintro ⟨i, j, a, b, atI, atJ, _, less, order⟩
  have boundI := (List.getElem?_eq_some_iff.mp atI).1
  have boundJ := (List.getElem?_eq_some_iff.mp atJ).1
  simp only [twoHeartbeats, List.length_cons, List.length_nil] at boundI boundJ
  interval_cases i <;> interval_cases j <;> revert order <;> decide

/-- The check of the older heartbeat passes on the empty table, the newer one
is stored, and the older write then replaces it. -/
theorem lost_update_interleaved : ∃ s : Upserts (sortedEngine schema),
    Upserts.Run id twoHeartbeats 0 [.read 0, .read 1, .write 1, .write 0] s ∧
      (∀ i < twoHeartbeats.length, s.phase i = .finished) ∧
      ¬ Upserts.NeverDecreases id twoHeartbeats (sortedEngine schema) 0
        [.read 0, .read 1, .write 1, .write 0] ∧
      ¬ Upserts.NewestStored id twoHeartbeats (sortedEngine schema) 0
        [.read 0, .read 1, .write 1, .write 0] := by
  have fresh : Upserts.Run (E := sortedEngine schema) id twoHeartbeats 0 [] _ := .start
  have run := fresh.exec [.read 0, .read 1, .write 1, .write 0] rfl
  have done : ∀ i < twoHeartbeats.length,
      (Function.update (Function.update (Function.update (Function.update (fun _ => Phase.waiting)
        0 .checked) 1 .checked) 1 .finished) 0 .finished : Nat → Phase) i = .finished := by decide
  refine ⟨_, run, done, fun grows => ?_, fun newest => ?_⟩
  · refine run.inOrder idKeys_id twoHeartbeats_conform grows ?_
    exact ⟨0, 1, _, _, rfl, rfl, rfl, by decide, by decide⟩
  · obtain ⟨r, ⟨pk, _, stored⟩, _, _, bound⟩ := newest _ run done _ List.mem_cons_self
    change (pk, r) ∈ [(([1] : Bytes), (⟨sampleRecord 7 1 10, 10⟩ : DeadlineRecord))] at stored
    obtain rfl := (Prod.mk.inj (List.mem_singleton.mp stored)).2
    exact absurd (bound (sampleRecord 7 2 10) (by simp [twoHeartbeats]) rfl) (by decide)

end Casm.Routing
