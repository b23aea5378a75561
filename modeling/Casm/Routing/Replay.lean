import Casm.Routing.ExpiringMap

namespace Casm.Routing
open MultiIndex

section Replay

variable {E : Engine schema} (b58 : Bytes → Bytes)

/-- The table after a sequence of `Upsert` calls with no `Advance` in between. -/
def Table.upsertAll (table : Table E) (recs : List Record) : Table E :=
  recs.foldl (fun current rec => (current.upsert b58 rec).1) table

/-- The records of a sequence that `Upsert` accepts, in order. -/
def Table.acceptedOf (table : Table E) : List Record → List Record
  | [] => []
  | rec :: rest =>
    if (table.upsert b58 rec).2 = .ok true then rec :: (table.upsert b58 rec).1.acceptedOf rest
    else (table.upsert b58 rec).1.acceptedOf rest

variable {b58}

theorem Table.acceptedOf_sublist (recs : List Record) (table : Table E) :
    (table.acceptedOf b58 recs).Sublist recs := by
  induction recs generalizing table with
  | nil => exact List.Sublist.refl []
  | cons rec rest ih =>
    rw [acceptedOf]
    split
    · exact (ih _).cons_cons rec
    · exact (ih _).cons rec

/-- The map has a record of the same server instance that is no older. -/
def ExpiringMap.Supersedes (m : ExpiringMap) (rec : Record) : Prop :=
  ∃ r, m.entries rec.peer = some r ∧ r.record.server = rec.server ∧ rec.seqNo ≤ r.record.seqNo

theorem ExpiringMap.Supersedes.refuses {m : ExpiringMap} {rec : Record} (newer : m.Supersedes rec) :
    m.accepts rec = false := by
  obtain ⟨r, stored, server, bound⟩ := newer
  simp only [accepts, stored, server, if_true, decide_eq_false_iff_not, UInt64.not_lt]
  exact bound

theorem ExpiringMap.supersedes_put (m : ExpiringMap) (rec : Record) : (m.put rec).Supersedes rec :=
  ⟨_, m.put_self rec, rfl, UInt64.le_refl _⟩

/-- Accepting a record of the same instance only moves the sequence number up. -/
theorem ExpiringMap.Supersedes.upsert {m : ExpiringMap} {rec other : Record} (newer : m.Supersedes rec)
    (sameServer : m.accepts other = true → other.peer = rec.peer → other.server = rec.server) :
    (m.upsert other).1.Supersedes rec := by
  unfold ExpiringMap.upsert
  split
  · rename_i accepted
    by_cases peers : other.peer = rec.peer
    · obtain ⟨r, stored, server, bound⟩ := newer
      have instances := sameServer accepted peers
      have stored' : m.entries other.peer = some r := by rw [peers]; exact stored
      have larger : r.record.seqNo < other.seqNo := by
        simpa [accepts, stored', server, instances] using accepted
      refine ⟨_, by rw [← peers]; exact m.put_self other, instances, ?_⟩
      exact UInt64.le_trans bound (UInt64.le_of_lt larger)
    · obtain ⟨r, stored, rest⟩ := newer
      exact ⟨r, (m.put_other other (Ne.symm peers)).trans stored, rest⟩
  · exact newer

variable {idKey : Bytes → Bytes} (keys : IdKeys idKey)

include keys

theorem Represents.acceptedOf_cons {table : Table E} {m : ExpiringMap} (inv : Represents idKey table m)
    {rec : Record} (conforms : rec.Conforms idKey) (rest : List Record) :
    table.acceptedOf b58 (rec :: rest) =
      (if m.accepts rec then [rec] else []) ++ (table.upsert b58 rec).1.acceptedOf b58 rest := by
  obtain ⟨reply, _⟩ := inv.upsert_spec keys conforms b58
  rw [Table.acceptedOf, reply, ExpiringMap.upsert]
  cases m.accepts rec <;> simp

/-- While only its own instance is accepted for its peer, a superseded record
stays superseded. -/
theorem Represents.supersedes_upsertAll (recs : List Record) {table : Table E} {m : ExpiringMap}
    (inv : Represents idKey table m) (conforms : ∀ rec ∈ recs, rec.Conforms idKey) {rec : Record}
    (newer : m.Supersedes rec)
    (sameServer : ∀ r ∈ table.acceptedOf b58 recs, r.peer = rec.peer → r.server = rec.server) :
    ∃ m', Represents idKey (table.upsertAll b58 recs) m' ∧ m'.Supersedes rec := by
  induction recs generalizing table m with
  | nil => exact ⟨m, inv, newer⟩
  | cons other rest ih =>
    have good := conforms other List.mem_cons_self
    rw [inv.acceptedOf_cons keys good] at sameServer
    refine ih (inv.upsert_spec keys good b58).2 (fun r member => conforms r (List.mem_cons_of_mem _ member))
      (newer.upsert fun accepted => ?_) fun r member => sameServer r (List.mem_append_right _ member)
    exact sameServer other (by simp [accepted])

theorem Represents.refused {table : Table E} {m : ExpiringMap} (inv : Represents idKey table m)
    {rec : Record} (conforms : rec.Conforms idKey) (newer : m.Supersedes rec) :
    table.upsert b58 rec = (table, .ok false) := by
  have checked := inv.valid_eq keys conforms b58
  rw [newer.refuses] at checked
  rw [Table.upsert, checked]

theorem Represents.not_mem_acceptedOf (recs : List Record) {table : Table E} {m : ExpiringMap}
    (inv : Represents idKey table m) (conforms : ∀ rec ∈ recs, rec.Conforms idKey) {rec : Record}
    (newer : m.Supersedes rec) (oneServer : ∀ r ∈ recs, r.peer = rec.peer → r.server = rec.server) :
    rec ∉ table.acceptedOf b58 recs := by
  induction recs generalizing table m with
  | nil => exact List.not_mem_nil
  | cons other rest ih =>
    have good := conforms other List.mem_cons_self
    rw [inv.acceptedOf_cons keys good, List.mem_append, not_or]
    refine ⟨fun member => ?_, ?_⟩
    · split at member
      · rename_i accepted
        rw [← List.mem_singleton.mp member, newer.refuses] at accepted
        cases accepted
      · exact List.not_mem_nil member
    · exact ih (inv.upsert_spec keys good b58).2 (fun r member => conforms r (List.mem_cons_of_mem _ member))
        (newer.upsert fun _ => oneServer other List.mem_cons_self)
        fun r member => oneServer r (List.mem_cons_of_mem _ member)

theorem Represents.acceptedOf_nodup (recs : List Record) {table : Table E} {m : ExpiringMap}
    (inv : Represents idKey table m) (conforms : ∀ rec ∈ recs, rec.Conforms idKey)
    (oneServer : ∀ a ∈ recs, ∀ b ∈ recs, a.peer = b.peer → a.server = b.server) :
    (table.acceptedOf b58 recs).Nodup := by
  induction recs generalizing table m with
  | nil => exact List.nodup_nil
  | cons rec rest ih =>
    have good := conforms rec List.mem_cons_self
    have goodRest : ∀ r ∈ rest, r.Conforms idKey := fun r member => conforms r (List.mem_cons_of_mem _ member)
    have represents := (inv.upsert_spec keys good b58).2
    have tail := ih represents goodRest fun a memberA b memberB =>
      oneServer a (List.mem_cons_of_mem _ memberA) b (List.mem_cons_of_mem _ memberB)
    rw [inv.acceptedOf_cons keys good]
    cases accepted : m.accepts rec with
    | false => simpa using tail
    | true =>
      have newer : (m.upsert rec).1.Supersedes rec := by
        rw [ExpiringMap.upsert, accepted]
        exact m.supersedes_put rec
      refine List.nodup_cons.mpr ⟨?_, tail⟩
      exact represents.not_mem_acceptedOf keys rest goodRest newer fun r member peers =>
        oneServer r (List.mem_cons_of_mem _ member) rec List.mem_cons_self peers

theorem Represents.upsertAll_spec (b58 : Bytes → Bytes) (recs : List Record) {table : Table E} {m : ExpiringMap}
    (inv : Represents idKey table m) (conforms : ∀ rec ∈ recs, rec.Conforms idKey) :
    ∃ m', Represents idKey (table.upsertAll b58 recs) m' := by
  induction recs generalizing table m with
  | nil => exact ⟨m, inv⟩
  | cons rec rest ih =>
    exact ih (inv.upsert_spec keys (conforms rec List.mem_cons_self) b58).2
      fun r member => conforms r (List.mem_cons_of_mem _ member)

/-- A record accepted in a sequence of upserts on a table in any reachable state
is rejected whenever it comes again, as long as no record of another server
instance was accepted for its peer since. So where each peer has one instance,
heartbeats from a finite set change the table at most once each. -/
theorem Table.replay_rejected_within_instance (t0 : Int) (history : List Call)
    (conformed : ∀ rec, .upsert rec ∈ history → rec.Conforms idKey)
    (range : ∀ t ∈ (ExpiringMap.new t0).times history, Representable t)
    (recs : List Record) (conforms : ∀ rec ∈ recs, rec.Conforms idKey) :
    (∀ past rec between rest, recs = past ++ rec :: (between ++ rec :: rest) →
      ∀ first, first = (((Table.new t0 : Table E).run b58 history).1.upsertAll b58 past) →
      (first.upsert b58 rec).2 = .ok true →
      (∀ r ∈ (first.upsert b58 rec).1.acceptedOf b58 between, r.peer = rec.peer → r.server = rec.server) →
      ∀ later, later = (first.upsert b58 rec).1.upsertAll b58 between →
        later.upsert b58 rec = (later, .ok false)) ∧
      ((∀ a ∈ recs, ∀ b ∈ recs, a.peer = b.peer → a.server = b.server) →
        ∀ heartbeats, recs ⊆ heartbeats →
          (((Table.new t0 : Table E).run b58 history).1.acceptedOf b58 recs).length ≤ heartbeats.length) := by
  have start := ((Represents.initially idKey t0 (E := E)).run_spec keys b58 history
    (fun p r found => by simp [ExpiringMap.new] at found) conformed range).2
  refine ⟨?_, fun oneServer heartbeats subset => ?_⟩
  · rintro past rec between rest rfl first rfl accepted sameServer later rfl
    have good := conforms rec (by simp)
    obtain ⟨m, inv⟩ := start.upsertAll_spec keys b58 past fun r member => conforms r (by simp [member])
    obtain ⟨reply, represents⟩ := inv.upsert_spec keys good b58
    have taken : m.accepts rec = true := by
      rw [reply, Except.ok.injEq, ExpiringMap.upsert] at accepted
      by_contra refused
      simp [refused] at accepted
    have newer : (m.upsert rec).1.Supersedes rec := by
      rw [ExpiringMap.upsert, taken]
      exact m.supersedes_put rec
    obtain ⟨m', inv', newer'⟩ := represents.supersedes_upsertAll keys between
      (fun r member => conforms r (by simp [member])) newer sameServer
    exact inv'.refused keys good newer'
  · have once : (Table.acceptedOf b58 _ recs).Nodup := start.acceptedOf_nodup keys recs conforms oneServer
    refine (List.subperm_of_subset once fun r member => subset ?_).length_le
    exact (Table.acceptedOf_sublist recs _).subset member

end Replay

/-- The older of two heartbeats of one instance, presented again after the newer. -/
theorem replay_rejected_after_refresh :
    ((Table.new 0 : Table (sortedEngine schema)).upsertAll id
        [sampleRecord 7 1 10, sampleRecord 7 2 10]).upsert id (sampleRecord 7 1 10) =
      ((Table.new 0 : Table (sortedEngine schema)).upsertAll id
        [sampleRecord 7 1 10, sampleRecord 7 2 10], .ok false) := by
  have conforms : ∀ rec ∈ [sampleRecord 7 1 10, sampleRecord 7 2 10, sampleRecord 7 1 10],
      rec.Conforms id := by
    intro rec member
    simp only [List.mem_cons, List.not_mem_nil, or_false] at member
    rcases member with rfl | rfl | rfl <;> exact sampleRecord_conforms ..
  refine (Table.replay_rejected_within_instance idKeys_id 0 [] (by simp) (by simp [ExpiringMap.times]) _
    conforms).1 [] (sampleRecord 7 1 10) [sampleRecord 7 2 10] [] rfl _ rfl (by decide) ?_ _ rfl
  decide

/-- With two instances the acceptance rule has a cycle: a heartbeat is accepted
again after its own refresh and a younger heartbeat of another instance. -/
theorem replay_accepted_across_instances :
    ((Table.new 0 : Table (sortedEngine schema)).run id
        [.upsert (sampleRecord 7 1 10), .upsert (sampleRecord 7 9 10), .upsert (sampleRecord 8 5 10),
          .upsert (sampleRecord 7 1 10)]).2 = [some true, some true, some true, some true].map .ok := by
  decide

end Casm.Routing
