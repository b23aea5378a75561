import Casm.Pex.Round

namespace Casm.Pex

variable {W : Identities}

theorem Faults.attempt_noPanic (faults : Faults) (ops : List Op) : (faults.attempt ops).NoPanic := by
  unfold attempt
  split
  · exact Except.noPanic_error _
  · exact Except.noPanic_ok ()

theorem View.validate_noPanic (v : View W) : v.validate.NoPanic := by
  unfold validate validationError
  split
  · exact Except.noPanic_error _
  · split
    · exact Except.noPanic_error _
    · split
      · exact Except.noPanic_error _
      · exact Except.noPanic_ok ()

theorem pull_noPanic (stream : List (Except String Gossip)) : (pull W stream).NoPanic := by
  refine Except.NoPanic.mapM ?_ stream
  intro message
  unfold receive readMessage validationError
  split
  · exact Except.noPanic_error _
  · split
    · exact Except.noPanic_error _
    · split
      · exact Except.noPanic_ok _
      · exact Except.noPanic_error _

theorem merge_noPanic {cfg : GossipConfig} (nonneg : cfg.NonNegative) (self : PeerID) (d : Draws W)
    (loc remote : View W) : (merge cfg self d loc remote).NoPanic := by
  cases checked : remote.validate with
  | error fault =>
    have failed : merge cfg self d loc remote = .error fault := by
      unfold merge
      rw [checked]
      rfl
    obtain ⟨msg, equal⟩ := remote.validate_noPanic.error_cases checked
    rw [failed, equal]
    exact Except.noPanic_error msg
  | ok =>
    obtain ⟨new, returned⟩ := merge_returns nonneg self d loc checked
    rw [returned]
    exact Except.noPanic_ok new

/-- The push appends to a part of the loaded view that is all of it, or is
followed by a record of the node itself. -/
def Intact (n : Node W) (loc : View W) : Prop :=
  ∀ x, loc[(pushLimit n.cfg).toNat]? = some x → x.peerID = n.self

section Round

variable {n : Node W} {input : RoundInput W} {d : RootDatastore} {view loc : View W}

theorem pushLimit_nonneg_iff {cfg : GossipConfig} (nonneg : 0 ≤ cfg.maxView) :
    0 ≤ pushLimit cfg ↔ 2 ≤ cfg.maxView := by
  rw [pushLimit, Int.tdiv_eq_ediv_of_nonneg nonneg]
  omega

theorem pushBuffer_returns {cfg : GossipConfig} (big : 2 ≤ cfg.maxView) (own : GossipRecord W) (loc : View W) :
    pushBuffer cfg own loc = .ok (loc.take (pushLimit cfg).toNat ++ [own]) := by
  rw [pushBuffer, View.head_eq_ok.mpr ⟨(pushLimit_nonneg_iff (by omega)).mpr big, rfl⟩]
  rfl

theorem pushBuffer_eq_ok {cfg : GossipConfig} {own : GossipRecord W} {loc buffer : View W}
    (built : pushBuffer cfg own loc = .ok buffer) : buffer = loc.take (pushLimit cfg).toNat ++ [own] := by
  obtain ⟨front, isHead, result⟩ := Except.bind_eq_ok.mp built
  obtain ⟨_, equal⟩ := View.head_eq_ok.mp isHead
  rw [← Except.ok.inj result, equal]

/-- Under a sane configuration a round fails only where an operation fails. -/
theorem roundViews_noPanic (sane : n.cfg.Sane) (persists : Persists n.ns d view) :
    (roundViews n input d).NoPanic := by
  unfold roundViews
  refine (input.faults.attempt_noPanic _).bind fun _ _ => ?_
  rw [persists.loadView_eq]
  refine Except.NoPanic.bind ?_ fun loaded _ => ?_
  · cases fine : input.faults.attempt [.query, .rest] with
    | error fault =>
      obtain ⟨msg, equal⟩ := (input.faults.attempt_noPanic _).error_cases fine
      rw [equal]
      exact Except.noPanic_error msg
    | ok => exact Except.noPanic_ok view
  · obtain ⟨loc, pushes⟩ := pushView_returns sane.nonNegative input.loadDraws loaded
    rw [pushes, Except.ok_bind, pushBuffer_returns sane.maxView, Except.ok_bind]
    refine (input.faults.attempt_noPanic _).bind fun _ _ => (pull_noPanic _).bind fun remote _ => ?_
    exact (merge_noPanic sane.nonNegative n.self input.mergeDraws (pushed n.cfg n.own loc) remote).bind fun new _ =>
      Except.noPanic_ok _

theorem roundViews_eq_ok {old new : View W} (persists : Persists n.ns d view)
    (loaded : pushView n.cfg input.loadDraws view = .ok loc)
    (ok : roundViews n input d = .ok (old, new)) :
    old = pushed n.cfg n.own loc ∧ ∃ remote, pull W input.stream = .ok remote ∧
      merge n.cfg n.self input.mergeDraws (pushed n.cfg n.own loc) remote = .ok new := by
  unfold roundViews at ok
  rw [persists.loadView_eq] at ok
  simp only [Except.bind_eq_ok] at ok
  obtain ⟨_, _, view', queried, loc', pushes, _, _, _, _, remote, pulled, new', merged, result⟩ := ok
  have sameView : view' = view := by
    cases fine : input.faults.attempt [.query, .rest] with
    | error fault =>
      rw [fine] at queried
      cases queried
    | ok =>
      rw [fine] at queried
      exact (Except.ok.inj queried).symm
  rw [sameView, loaded] at pushes
  have sameLoc := Except.ok.inj pushes
  have equal := Except.ok.inj result
  rw [Prod.mk.injEq] at equal
  obtain ⟨sameOld, sameNew⟩ := equal
  rw [sameLoc]
  exact ⟨sameOld.symm, remote, pulled, sameNew ▸ merged⟩

theorem gossipRound_eq (n : Node W) (input : RoundInput W) (d : RootDatastore) :
    gossipRound n input d = match roundViews n input d with
      | .error fault => (d, .error fault)
      | .ok (old, new) => storeRecords n.ns input.faults d old new := by
  have same := InPlace.roundViews_eq n input d
  cases outcome : roundViews n input d with
  | error fault =>
    rw [outcome] at same
    simp only [gossipRound, same]
  | ok views =>
    rw [outcome] at same
    simp only [gossipRound, same]

theorem storeRecords_cases (ns : Key) (faults : Faults) (d : RootDatastore) (old new : View W) :
    (∃ msg, storeRecords ns faults d old new = (d, .error (.error msg))) ∨
      (storeRecords ns faults d old new).1 = d.commit (storeBatch ns old new) := by
  unfold storeRecords
  cases fine : faults.attempt (storeOps old new) with
  | error fault =>
    obtain ⟨msg, equal⟩ := (faults.attempt_noPanic _).error_cases fine
    exact Or.inl ⟨msg, by rw [equal]⟩
  | ok => exact Or.inr rfl

end Round

section Intact

variable {n : Node W} {loc : View W}

theorem filter_set_of_neg {α : Type} {p : α → Bool} {l : List α} {i : Nat} {a : α} (new : p a = false)
    (old : ∀ x, l[i]? = some x → p x = false) : (l.set i a).filter p = l.filter p := by
  induction l generalizing i with
  | nil => rfl
  | cons b rest ih =>
    cases i with
    | zero =>
      have dropped := old b rfl
      simp [List.set_cons_zero, new, dropped]
    | succ i =>
      rw [List.set_cons_succ, List.filter_cons, List.filter_cons, ih old]

/-- A view in which the push has replaced one record of the node by another. -/
theorem find_pushed (intact : Intact n loc) {id : PeerID} (other : id ≠ n.self) :
    (pushed n.cfg n.own loc).find id = loc.find id := by
  have new : decide (id = n.own.peerID) = false := decide_eq_false other
  have old : ∀ x, loc[(pushLimit n.cfg).toNat]? = some x → decide (id = x.peerID) = false := by
    intro x found
    rw [intact x found]
    exact decide_eq_false other
  have same : (pushed n.cfg n.own loc).filter (fun g => decide (id = g.peerID)) =
      loc.filter fun g => decide (id = g.peerID) := filter_set_of_neg new old
  rw [View.find, View.find, ← List.head?_filter, same, List.head?_filter]

theorem merged_pushed (intact : Intact n loc) (remote : View W) :
    (View.merged remote (pushed n.cfg n.own loc)).isNot n.self = (View.merged remote loc).isNot n.self := by
  have own : decide (n.self ≠ n.own.peerID) = false := decide_eq_false (not_not.mpr rfl)
  have old : ∀ x, loc[(pushLimit n.cfg).toNat]? = some x → decide (n.self ≠ x.peerID) = false := by
    intro x found
    rw [intact x found]
    exact decide_eq_false (not_not.mpr rfl)
  unfold View.merged View.isNot View.dedupe
  rw [List.filter_append, List.filter_append]
  congr 1
  · rw [List.filter_filter, List.filter_filter]
    apply filter_set_of_neg
    · rw [own, Bool.false_and]
    · intro x found
      rw [old x found, Bool.false_and]
  · rw [List.filter_filter, List.filter_filter]
    apply List.filter_congr
    intro g _
    by_cases mine : g.peerID = n.self
    · simp [mine]
    · rw [View.keeps, View.keeps, find_pushed intact mine]

theorem peers_pushed (intact : Intact n loc) :
    (pushed n.cfg n.own loc).map GossipRecord.peerID = loc.map GossipRecord.peerID := by
  rw [pushed, List.map_set]
  apply List.ext_getElem?
  intro j
  rw [List.getElem?_set]
  split
  · rename_i here
    rw [← here]
    split
    · rename_i bound
      rw [List.length_map] at bound
      have mine := intact _ (List.getElem?_eq_getElem bound)
      rw [List.getElem?_map, List.getElem?_eq_getElem bound, Option.map_some, mine]
      rfl
    · rename_i bound
      exact (List.getElem?_eq_none (not_lt.mp bound)).symm
  · rfl

theorem merge_pushed (intact : Intact n loc) (d : Draws W) (remote : View W) :
    merge n.cfg n.self d (pushed n.cfg n.own loc) remote = merge n.cfg n.self d loc remote := by
  simp only [merge, merged_pushed intact]

end Intact

/-- A round either fails and leaves the datastore as it was, or what it leaves
in the namespace is the merge of the loaded view and the received one. -/
def StoresMerge (n : Node W) (d : RootDatastore) (loc : View W) (input : RoundInput W) : Prop :=
  (∃ msg, gossipRound n input d = (d, .error (.error msg))) ∨
    ∃ remote new, pull W input.stream = .ok remote ∧
      merge n.cfg n.self input.mergeDraws loc remote = .ok new ∧
      ∀ k, Below n.ns k → (gossipRound n input d).1.lookup k = new.stored n.ns k

section

variable {n : Node W} {d : RootDatastore} {view loc : View W}

/-- Every stored peer is in the loaded view, also after the push. -/
theorem Persists.covers (persists : Persists n.ns d view) (same : loc.Perm view) (intact : Intact n loc)
    (k : Key) (below : Below n.ns k) (member : k ∈ d) :
    k ∈ (pushed n.cfg n.own loc).map fun g => n.ns ++ g.key := by
  obtain ⟨g, found⟩ := Option.isSome_iff_exists.mp (AList.lookup_isSome.mpr member)
  obtain ⟨r, equal⟩ := persists.inScope k g below found
  rw [entry, Prod.mk.injEq] at equal
  rw [equal.1, equal.2] at found
  have peer : r.peerID ∈ (pushed n.cfg n.own loc).map GossipRecord.peerID := by
    rw [peers_pushed intact]
    exact List.mem_map_of_mem (same.mem_iff.mpr (persists.mem_iff.mpr found))
  obtain ⟨r', inPushed, samePeer⟩ := List.mem_map.mp peer
  rw [equal.1]
  exact List.mem_map.mpr ⟨r', inPushed, key_inj_below.mpr samePeer⟩

theorem storesMerge_of_intact (sane : n.cfg.Sane) (persists : Persists n.ns d view)
    {input : RoundInput W} (loaded : pushView n.cfg input.loadDraws view = .ok loc)
    (intact : Intact n loc) : StoresMerge n d loc input := by
  unfold StoresMerge
  rw [gossipRound_eq]
  cases outcome : roundViews n input d with
  | error fault =>
    obtain ⟨msg, equal⟩ := (roundViews_noPanic sane persists).error_cases outcome
    exact Or.inl ⟨msg, by rw [equal]⟩
  | ok views =>
    obtain ⟨old, new⟩ := views
    obtain ⟨sameOld, remote, pulled, merged⟩ := roundViews_eq_ok persists loaded outcome
    rw [merge_pushed intact] at merged
    rcases storeRecords_cases n.ns input.faults d old new with failed | committed
    · exact Or.inl failed
    · refine Or.inr ⟨remote, new, pulled, merged, fun k below => ?_⟩
      simp only [committed]
      rw [sameOld]
      exact lookup_store_of_covers (persists.covers (pushView_perm loaded) intact) below

/-- A round that receives nothing but the node's own record, and in which
nothing fails. -/
def quietInput (n : Node W) (d : Draws W) : RoundInput W where
  faults _ := none
  stream := [.ok n.own.message]
  loadDraws := d
  mergeDraws := d

theorem pull_quiet (n : Node W) (d : Draws W) : pull W (quietInput n d).stream = .ok [n.own] := by
  have received : receive W (.ok n.own.message) = .ok n.own := readMessage_message n.own
  simp only [quietInput, pull, List.mapM_cons, received, List.mapM_nil]
  rfl

theorem attempt_quiet (n : Node W) (d : Draws W) (ops : List Op) :
    (quietInput n d).faults.attempt ops = .ok () := by
  have none : ops.findSome? (quietInput n d).faults = none := by
    rw [List.findSome?_eq_none_iff]
    exact fun _ _ => rfl
  rw [Faults.attempt, none]

theorem Persists.loaded_nodup (persists : Persists n.ns d view) (same : loc.Perm view) :
    (loc.map GossipRecord.peerID).Nodup := by
  rw [(same.map GossipRecord.peerID).nodup_iff, List.nodup_iff_pairwise_ne, List.pairwise_map]
  exact persists.distinct

/-- The peer of the record that the push has replaced is gone from the view. -/
theorem peerID_ne_of_mem_pushed (distinct : (loc.map GossipRecord.peerID).Nodup) {x y : GossipRecord W}
    (there : loc[(pushLimit n.cfg).toNat]? = some x) (other : x.peerID ≠ n.self)
    (member : y ∈ pushed n.cfg n.own loc) : y.peerID ≠ x.peerID := by
  intro samePeer
  obtain ⟨j, found⟩ := List.mem_iff_getElem?.mp member
  rw [pushed, List.getElem?_set] at found
  split at found
  · split at found
    · rw [← Option.some.inj found] at samePeer
      exact other samePeer.symm
    · cases found
  · rename_i elsewhere
    obtain ⟨bound, _⟩ := List.getElem?_eq_some_iff.mp there
    apply elsewhere
    refine (List.getElem?_inj (by rwa [List.length_map]) distinct).mp ?_
    rw [List.getElem?_map, List.getElem?_map, there, found, Option.map_some, Option.map_some, samePeer]

theorem gossipRound_quiet (sane : n.cfg.Sane) (persists : Persists n.ns d view) {draws : Draws W}
    (loaded : pushView n.cfg draws view = .ok loc) :
    ∃ new, merge n.cfg n.self draws (pushed n.cfg n.own loc) [n.own] = .ok new ∧
      gossipRound n (quietInput n draws) d =
        (d.commit (storeBatch n.ns (pushed n.cfg n.own loc) new), .ok ()) := by
  have valid : View.validate [n.own] = .ok () :=
    View.validate_ok_iff.mpr ⟨[], n.own, rfl, by simp, n.own_new⟩
  obtain ⟨new, merged⟩ := merge_returns sane.nonNegative n.self draws (pushed n.cfg n.own loc) valid
  have outcome : roundViews n (quietInput n draws) d = .ok (pushed n.cfg n.own loc, new) := by
    unfold roundViews
    rw [persists.loadView_eq, attempt_quiet, attempt_quiet]
    show (pushView n.cfg draws view >>= _) = _
    rw [loaded, Except.ok_bind, pushBuffer_returns sane.maxView, Except.ok_bind, attempt_quiet, Except.ok_bind,
      pull_quiet, Except.ok_bind]
    show (merge n.cfg n.self draws (pushed n.cfg n.own loc) [n.own] >>= _) = _
    rw [merged]
    rfl
  refine ⟨new, merged, ?_⟩
  rw [gossipRound_eq, outcome]
  simp only [storeRecords, attempt_quiet]

/-- The record that the push has replaced is neither merged nor deleted: it
stays in the namespace with the hops it had. -/
theorem overwritten_stays (persists : Persists n.ns d view) (perm : loc.Perm view) {draws : Draws W}
    {new : View W} (merged : merge n.cfg n.self draws (pushed n.cfg n.own loc) [n.own] = .ok new)
    {x : GossipRecord W} (there : loc[(pushLimit n.cfg).toNat]? = some x) (other : x.peerID ≠ n.self) :
    (d.commit (storeBatch n.ns (pushed n.cfg n.own loc) new)).lookup (n.ns ++ x.key) = some x.message := by
  have distinct := persists.loaded_nodup perm
  have notMerged : new.stored n.ns (n.ns ++ x.key) = none := by
    rw [stored_eq_none_iff]
    intro r member sameKey
    obtain ⟨y, source, _, equal⟩ := mem_merge merged member
    have samePeer : y.peerID = x.peerID := by
      have peers := key_inj_below.mp sameKey
      rwa [equal] at peers
    rcases View.mem_of_merged source with inPushed | received
    · exact peerID_ne_of_mem_pushed distinct there other inPushed samePeer
    · rw [List.mem_singleton.mp received] at samePeer
      exact other samePeer.symm
  have notDeleted : n.ns ++ x.key ∉ (pushed n.cfg n.own loc).map fun g => n.ns ++ g.key := by
    intro member
    obtain ⟨y, inPushed, sameKey⟩ := List.mem_map.mp member
    exact peerID_ne_of_mem_pushed distinct there other inPushed (key_inj_below.mp sameKey)
  rw [lookup_store_of_not_mem notMerged, if_neg notDeleted]
  exact persists.mem_iff.mp (perm.mem_iff.mp (List.mem_of_getElem? there))

/-- A merge that receives only the node's own record has every loaded record
older than it was. -/
theorem not_mem_merge_of_loaded (distinct : (loc.map GossipRecord.peerID).Nodup) {draws : Draws W} {new : View W}
    (merged : merge n.cfg n.self draws loc [n.own] = .ok new) {x : GossipRecord W} (inLoc : x ∈ loc)
    (other : x.peerID ≠ n.self) : x ∉ new := by
  intro member
  obtain ⟨y, source, _, older⟩ := mem_merge merged member
  have samePeer : y.peerID = x.peerID := by rw [older, GossipRecord.incrHop_peerID]
  rcases View.mem_of_merged source with fromLoc | received
  · have youngest := List.inj_on_of_nodup_map distinct fromLoc inLoc samePeer
    rw [youngest] at older
    have hops := congrArg GossipRecord.hop older
    rw [GossipRecord.incrHop_hop] at hops
    simp at hops
  · rw [List.mem_singleton.mp received] at samePeer
    exact other samePeer.symm

theorem not_storesMerge_of_overwritten (sane : n.cfg.Sane) (persists : Persists n.ns d view)
    {draws : Draws W} (loaded : pushView n.cfg draws view = .ok loc) {x : GossipRecord W}
    (there : loc[(pushLimit n.cfg).toNat]? = some x) (other : x.peerID ≠ n.self) :
    ¬ StoresMerge n d loc (quietInput n draws) := by
  have perm := pushView_perm loaded
  obtain ⟨new', merged', round⟩ := gossipRound_quiet sane persists loaded
  intro stores
  rcases stores with ⟨msg, failed⟩ | ⟨remote, new, pulled, merged, lookups⟩
  · rw [round] at failed
    cases congrArg Prod.snd failed
  · -- The namespace still has the record as it was loaded, the merge has not.
    have stored := lookups _ (key_below n.ns x)
    rw [round, overwritten_stays persists perm merged' there other] at stored
    obtain ⟨r, member, equal⟩ := mem_of_stored stored.symm
    have same : x = r := GossipRecord.message_injective (congrArg Prod.snd equal)
    rw [pull_quiet] at pulled
    rw [← Except.ok.inj pulled] at merged
    exact not_mem_merge_of_loaded (persists.loaded_nodup perm) merged (List.mem_of_getElem? there) other
      (same ▸ member)

/-- Whatever is received, drawn and fails, a round stores exactly the merge: if
and only if the push finds the loaded view intact. -/
theorem gossipRound_stores_merge_iff (sane : n.cfg.Sane) (persists : Persists n.ns d view)
    {draws : Draws W} (loaded : pushView n.cfg draws view = .ok loc) :
    (∀ input : RoundInput W, input.loadDraws = draws → StoresMerge n d loc input) ↔ Intact n loc := by
  constructor
  · intro stores x there
    by_contra other
    exact not_storesMerge_of_overwritten sane persists loaded there other (stores _ rfl)
  · intro intact input same
    exact storesMerge_of_intact sane persists (same ▸ loaded) intact

end

/-- Envelopes of two bytes, a peer and a sequence number, that anyone can sign. -/
def plainIdentities : Identities where
  PublicKey := Unit
  consumeTypedEnvelope
    | [id, seq] => .ok (⟨[id], seq.toUInt64, []⟩, ())
    | _ => .error "malformed envelope"
  matchesPublicKey id _ := decide (id ≠ [] ∧ ∀ byte ∈ id, byte ≠ GoPath.slash ∧ byte ≠ GoPath.dot)
  text id := id
  shortString _ := ""
  text_injective := Function.injective_id
  text_plain _ _ plain := of_decide_eq_true plain

def plainRecord (id seq : UInt8) (hop : UInt64) (plain : id ≠ GoPath.slash ∧ id ≠ GoPath.dot := by decide) :
    GossipRecord plainIdentities where
  message := ⟨hop, [id, seq]⟩
  peerRecord := ⟨[id], seq.toUInt64, []⟩
  selfSigned := ⟨(), rfl, by simpa [plainIdentities] using plain⟩

/-- Records of one age keep their order, no view is shuffled, and what can decay does. -/
def plainDraws : Draws plainIdentities where
  sort v := v.insertionSort fun a b => a.hop.toNat ≤ b.hop.toNat
  sort_perm v := List.perm_insertionSort _ v
  sort_sorted v := by
    have total : Std.Total fun a b : GossipRecord plainIdentities => a.hop.toNat ≤ b.hop.toNat :=
      ⟨fun a b => Nat.le_total a.hop.toNat b.hop.toNat⟩
    have trans : IsTrans (GossipRecord plainIdentities) fun a b => a.hop.toNat ≤ b.hop.toNat :=
      ⟨fun a b c first second => Nat.le_trans first second⟩
    exact (List.pairwise_insertionSort (fun a b => a.hop.toNat ≤ b.hop.toNat) v).imp UInt64.le_iff_toNat_le.mpr
  shuffle v := v
  shuffle_perm v := List.Perm.refl v
  float _ := 0
  float_unit _ := by norm_num

def plainNode (maxView : Int) : Node plainIdentities where
  cfg := { maxView := maxView, swap := 0, protect := 0, decay := 0, tick := 0, timeout := 0 }
  ns := [[110]]
  own := plainRecord 1 1 0
  own_new := rfl

def peerTwo (seq : UInt8) (hop : UInt64) : GossipRecord plainIdentities :=
  plainRecord 2 seq hop

def peerThree (seq : UInt8) (hop : UInt64) : GossipRecord plainIdentities :=
  plainRecord 3 seq hop

def storedPeer : GossipRecord plainIdentities :=
  peerTwo 1 5

def onePeer : RootDatastore :=
  (∅ : RootDatastore).insert ([[110]] ++ storedPeer.key) storedPeer.message

theorem onePeer_persists (maxView : Int) : Persists (plainNode maxView).ns onePeer [storedPeer] := by
  rfl

theorem gossipRound_stores_merge_small :
    pushView (plainNode 4).cfg plainDraws [storedPeer] = .ok [storedPeer] ∧
      ∀ input : RoundInput plainIdentities, input.loadDraws = plainDraws →
        StoresMerge (plainNode 4) onePeer [storedPeer] input :=
  ⟨rfl, (gossipRound_stores_merge_iff ⟨by decide, by decide, by decide⟩ (onePeer_persists 4) rfl).mpr nofun⟩

/-- With room for two records, a stored record is the one that the push replaces. -/
theorem gossipRound_keeps_overwritten :
    pushView (plainNode 2).cfg plainDraws [storedPeer] = .ok [storedPeer] ∧
      ¬ StoresMerge (plainNode 2) onePeer [storedPeer] (quietInput (plainNode 2) plainDraws) :=
  ⟨rfl, not_storesMerge_of_overwritten ⟨by decide, by decide, by decide⟩ (onePeer_persists 2) rfl rfl
    (by decide)⟩

end Casm.Pex
