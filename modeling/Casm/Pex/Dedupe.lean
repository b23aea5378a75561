import Casm.Pex.RoundStore

namespace Casm.Pex

variable {W : Identities}

/-- The newer of two records of a peer, and of two that are equally new the one
that travelled less. The local record wins a tie. -/
def preferred (loc remote : GossipRecord W) : GossipRecord W :=
  if loc.seq < remote.seq ∨ loc.seq = remote.seq ∧ remote.hop < loc.hop then remote else loc

/-- The newer record travelled further. The comparison by sequence number then
speaks for one record, the comparison by age for the other. -/
def Crossed (g g' : GossipRecord W) : Prop :=
  g.seq < g'.seq ∧ g.hop < g'.hop ∨ g'.seq < g.seq ∧ g'.hop < g.hop

instance (g g' : GossipRecord W) : Decidable (Crossed g g') :=
  inferInstanceAs (Decidable (_ ∨ _))

theorem Crossed.symm {g g' : GossipRecord W} (crossed : Crossed g g') : Crossed g' g :=
  Or.symm crossed

theorem not_crossed_self (g : GossipRecord W) : ¬ Crossed g g := by
  simp [Crossed]

theorem preferred_eq (loc remote : GossipRecord W) :
    preferred loc remote = loc ∨ preferred loc remote = remote := by
  unfold preferred
  split
  · exact Or.inr rfl
  · exact Or.inl rfl

theorem preferred_peerID {loc remote : GossipRecord W} (same : loc.peerID = remote.peerID) :
    (preferred loc remote).peerID = loc.peerID := by
  rcases preferred_eq loc remote with equal | equal
  · rw [equal]
  · rw [equal, same]

theorem seq_le_preferred (loc remote : GossipRecord W) :
    loc.seq ≤ (preferred loc remote).seq ∧ remote.seq ≤ (preferred loc remote).seq := by
  unfold preferred
  simp only [UInt64.lt_iff_toNat_lt, UInt64.le_iff_toNat_le, ← UInt64.toNat_inj]
  split
  · omega
  · omega

namespace View

/-- No peer has two records in the view. -/
def Distinct (v : View W) : Prop :=
  (v.map GossipRecord.peerID).Nodup

instance (v : View W) : Decidable v.Distinct :=
  inferInstanceAs (Decidable (List.Nodup _))

theorem Distinct.find_eq {v : View W} (distinct : v.Distinct) {g : GossipRecord W} (member : g ∈ v) :
    v.find g.peerID = some g := by
  cases found : v.find g.peerID with
  | none => exact absurd rfl (find_eq_none_iff.mp found g member)
  | some first =>
    obtain ⟨inside, same⟩ := find_some found
    rw [List.inj_on_of_nodup_map distinct inside member same]

theorem exists_find {v : View W} {g : GossipRecord W} (member : g ∈ v) :
    ∃ first, v.find g.peerID = some first := by
  rw [← Option.isSome_iff_exists, Option.isSome_iff_ne_none]
  exact fun absent => find_eq_none_iff.mp absent g member rfl

/-- A record of `v` is kept unless `tail` has one that is as recent and as
young, and not the same in both. -/
theorem keeps_true_iff {tail : View W} {g : GossipRecord W} : keeps tail true g = true ↔
    ∀ have', tail.find g.peerID = some have' →
      have'.seq < g.seq ∨ g.hop < have'.hop ∨ g.seq = have'.seq ∧ g.hop = have'.hop := by
  unfold keeps
  cases tail.find g.peerID with
  | none => simp
  | some have' => simp [or_assoc]

/-- The first records of a peer in the two views meet each other, so the
preferred one is kept. -/
theorem preferred_mem_merged {tail v : View W} {id : PeerID} {mine theirs : GossipRecord W}
    (first : v.find id = some mine) (first' : tail.find id = some theirs) :
    preferred mine theirs ∈ merged tail v := by
  obtain ⟨member, same⟩ := find_some first
  obtain ⟨member', same'⟩ := find_some first'
  have mineKept : keeps tail true mine = true ↔
      theirs.seq < mine.seq ∨ mine.hop < theirs.hop ∨ mine.seq = theirs.seq ∧ mine.hop = theirs.hop := by
    rw [keeps_true_iff, same, first']
    simp
  have theirsKept : keeps v false theirs = true ↔ mine.seq < theirs.seq ∨ theirs.hop < mine.hop := by
    rw [keeps_false_iff, same', first]
    simp
  simp only [UInt64.lt_iff_toNat_lt, ← UInt64.toNat_inj] at mineKept theirsKept
  unfold preferred
  simp only [UInt64.lt_iff_toNat_lt, ← UInt64.toNat_inj]
  split
  · exact mem_merged.mpr (Or.inr ⟨member', theirsKept.mpr (by omega)⟩)
  · exact mem_merged.mpr (Or.inl ⟨member, mineKept.mpr (by omega)⟩)

/-- The newest record of its peer. -/
def Newest (v : View W) (g : GossipRecord W) : Prop :=
  ∀ g' ∈ v, g'.peerID = g.peerID → g'.seq ≤ g.seq

theorem exists_newest {v : View W} {g : GossipRecord W} (member : g ∈ v) :
    ∃ newest ∈ v, newest.peerID = g.peerID ∧ v.Newest newest := by
  have inside : g ∈ (v.filter (fun x => x.peerID = g.peerID)).toFinset := by simp [member]
  obtain ⟨newest, found, greatest⟩ :=
    Finset.exists_max_image _ (fun x : GossipRecord W => x.seq.toNat) ⟨g, inside⟩
  simp only [List.mem_toFinset, List.mem_filter, decide_eq_true_eq] at found greatest
  obtain ⟨member', same⟩ := found
  refine ⟨newest, member', same, ?_⟩
  intro g' other samePeer
  exact UInt64.le_iff_toNat_le.mpr (greatest g' ⟨other, samePeer.trans same⟩)

theorem duel {tail v : View W} {id : PeerID} {mine theirs : GossipRecord W}
    (first : v.find id = some mine) (first' : tail.find id = some theirs) :
    ∃ kept ∈ merged tail v, kept.peerID = id ∧ mine.seq ≤ kept.seq ∧ theirs.seq ≤ kept.seq := by
  have same := (find_some first).2
  have same' := (find_some first').2
  refine ⟨preferred mine theirs, preferred_mem_merged first first', ?_, seq_le_preferred mine theirs⟩
  rw [preferred_peerID (same.trans same'.symm), same]

/-- A record is dropped because of a first record that is at least as new, and
of the two first records the preferred one is kept. -/
theorem exists_as_new {tail v : View W} {g : GossipRecord W} (member : g ∈ v ++ tail) :
    ∃ kept ∈ merged tail v, kept.peerID = g.peerID ∧ g.seq ≤ kept.seq := by
  by_cases kept : g ∈ merged tail v
  · exact ⟨g, kept, rfl, UInt64.le_refl _⟩
  rw [mem_merged, not_or, not_and, not_and] at kept
  obtain ⟨dropped, dropped'⟩ := kept
  rcases List.mem_append.mp member with inside | inside
  · obtain ⟨mine, first⟩ := exists_find inside
    have beaten := mt keeps_true_iff.mpr (dropped inside)
    push Not at beaten
    obtain ⟨theirs, first', notOlder, _⟩ := beaten
    obtain ⟨winner, survived, same, _, asNew⟩ := duel first first'
    exact ⟨winner, survived, same, UInt64.le_trans (UInt64.not_lt.mp notOlder) asNew⟩
  · obtain ⟨theirs, first'⟩ := exists_find inside
    have beaten := mt keeps_false_iff.mpr (dropped' inside)
    push Not at beaten
    obtain ⟨mine, first, notOlder, _⟩ := beaten
    obtain ⟨winner, survived, same, asNew, _⟩ := duel first first'
    exact ⟨winner, survived, same, UInt64.le_trans (UInt64.not_lt.mp notOlder) asNew⟩

/-- A merge drops records, and no peer. -/
theorem mem_peers_merged {tail v : View W} {id : PeerID} :
    id ∈ (merged tail v).map GossipRecord.peerID ↔
      id ∈ v.map GossipRecord.peerID ∨ id ∈ tail.map GossipRecord.peerID := by
  rw [← List.mem_append, ← List.map_append]
  simp only [List.mem_map]
  constructor
  · rintro ⟨g, member, same⟩
    exact ⟨g, List.mem_append.mpr (mem_of_merged member), same⟩
  · rintro ⟨g, member, same⟩
    obtain ⟨kept, survived, same', _⟩ := exists_as_new member
    exact ⟨kept, survived, same'.trans same⟩

/-- Whatever is repeated in the two views, a merge keeps every peer, and of each
peer a record that is as new as any. -/
theorem merged_keeps_newest (v w : View W) :
    (∀ id, id ∈ (merged w v).map GossipRecord.peerID ↔
      id ∈ v.map GossipRecord.peerID ∨ id ∈ w.map GossipRecord.peerID) ∧
    ∀ g ∈ v ++ w, ∃ kept ∈ merged w v, kept ∈ v ++ w ∧ kept.peerID = g.peerID ∧ Newest (v ++ w) kept := by
  refine ⟨fun id => mem_peers_merged, ?_⟩
  intro g member
  obtain ⟨newest, member', same, greatest⟩ := exists_newest member
  obtain ⟨kept, survived, same', asNew⟩ := exists_as_new member'
  refine ⟨kept, survived, List.mem_append.mpr (mem_of_merged survived), same'.trans same, ?_⟩
  intro g' other samePeer
  exact UInt64.le_trans (greatest g' other (samePeer.trans same')) asNew

/-- What the merge of a local and a remote view is for. -/
structure Deduplicated (loc remote joined : View W) : Prop where
  once : joined.Distinct
  peers : ∀ id, id ∈ joined.map GossipRecord.peerID ↔
    id ∈ loc.map GossipRecord.peerID ∨ id ∈ remote.map GossipRecord.peerID
  chosen : ∀ l ∈ loc, ∀ r ∈ remote, l.peerID = r.peerID → preferred l r ∈ joined

/-- Both records of a peer are kept exactly if they are crossed. -/
theorem kept_both_iff {loc remote : View W} (distinct : loc.Distinct) (distinct' : remote.Distinct)
    {l r : GossipRecord W} (inLoc : l ∈ loc) (inRemote : r ∈ remote) (same : l.peerID = r.peerID) :
    keeps remote true l = true ∧ keeps loc false r = true ↔ Crossed l r := by
  rw [keeps_true_iff, keeps_false_iff, same, distinct'.find_eq inRemote, ← same, distinct.find_eq inLoc]
  simp only [Option.some.injEq, forall_eq', Crossed, UInt64.lt_iff_toNat_lt, ← UInt64.toNat_inj]
  omega

theorem merged_distinct_iff {loc remote : View W} (distinct : loc.Distinct) (distinct' : remote.Distinct) :
    (merged remote loc).Distinct ↔
      ∀ l ∈ loc, ∀ r ∈ remote, l.peerID = r.peerID → ¬ Crossed l r := by
  have front : (dedupe remote true loc).Distinct := distinct.sublist (List.filter_sublist.map _)
  have back : (dedupe loc false remote).Distinct := distinct'.sublist (List.filter_sublist.map _)
  unfold Distinct at front back ⊢
  rw [merged, List.map_append, List.nodup_append', and_iff_right front, and_iff_right back]
  simp only [List.disjoint_left, List.mem_map, dedupe, List.mem_filter]
  constructor
  · intro apart l inLoc r inRemote same crossed
    obtain ⟨kept, kept'⟩ := (kept_both_iff distinct distinct' inLoc inRemote same).mpr crossed
    exact apart ⟨l, ⟨inLoc, kept⟩, rfl⟩ ⟨r, ⟨inRemote, kept'⟩, same.symm⟩
  · rintro ordered id ⟨l, ⟨inLoc, kept⟩, rfl⟩ ⟨r, ⟨inRemote, kept'⟩, same⟩
    exact ordered l inLoc r inRemote same.symm
      ((kept_both_iff distinct distinct' inLoc inRemote same.symm).mp ⟨kept, kept'⟩)

/-- Without crossed records a merge keeps one record of each peer, the preferred
one. With crossed records it keeps both. -/
theorem deduplicated_iff {loc remote : View W} (distinct : loc.Distinct) (distinct' : remote.Distinct) :
    Deduplicated loc remote (merged remote loc) ↔
      ∀ l ∈ loc, ∀ r ∈ remote, l.peerID = r.peerID → ¬ Crossed l r := by
  rw [← merged_distinct_iff distinct distinct']
  refine ⟨Deduplicated.once, ?_⟩
  intro once
  refine ⟨once, fun id => mem_peers_merged, ?_⟩
  intro l inLoc r inRemote same
  exact preferred_mem_merged (distinct.find_eq inLoc) (same ▸ distinct'.find_eq inRemote)

/-- A newer record that came on a shorter way replaces the local one. -/
theorem deduplicated_newer : Deduplicated [peerTwo 1 2] [peerTwo 2 1] (merged [peerTwo 2 1] [peerTwo 1 2]) := by
  refine (deduplicated_iff (by decide) (by decide)).mpr ?_
  simp only [List.mem_singleton, forall_eq]
  decide

/-- A newer record that travelled further than the local one is added next to it. -/
theorem crossed_records_both_kept : View.Distinct [peerTwo 1 1] ∧ View.Distinct [peerTwo 2 2] ∧
    merged [peerTwo 2 2] [peerTwo 1 1] = [peerTwo 1 1, peerTwo 2 2] ∧
    ¬ Deduplicated [peerTwo 1 1] [peerTwo 2 2] (merged [peerTwo 2 2] [peerTwo 1 1]) := by
  refine ⟨by decide, by decide, rfl, ?_⟩
  intro deduplicated
  have once := deduplicated.once
  revert once
  decide

end View

end Casm.Pex
