import Casm.Pex.Dedupe

namespace Casm.Pex
open GoSlice

variable {W : Identities}

-- The parts of a merge, under the names of the specification.

/-- The records that the new view is chosen from. -/
def candidates (self : PeerID) (loc remote : View W) : View W :=
  (View.merged remote loc).isNot self

/-- How many candidates are swapped out. -/
def swapCount (cfg : GossipConfig) (m : View W) : Int :=
  min cfg.swap (max (m.length - cfg.maxView) 0)

/-- The other candidates by age. -/
def ranked (cfg : GossipConfig) (d : Draws W) (m : View W) : View W :=
  d.sort (m.drop (swapCount cfg m).toNat)

def retention (cfg : GossipConfig) (l : View W) : Int :=
  min (min cfg.protect cfg.maxView) l.length

def decayLimit (cfg : GossipConfig) (l : View W) : Int :=
  min (retention cfg l) (max (l.length - cfg.maxView) 0)

/-- The records that are not subject to eviction, before decay. -/
def retained (cfg : GossipConfig) (l : View W) : View W :=
  l.drop (l.length - (retention cfg l).toNat)

def aged (cfg : GossipConfig) (d : Draws W) (l : View W) : View W :=
  View.decay cfg.decay d.float (decayLimit cfg l).toNat (retained cfg l)

/-- The records that survive random eviction. -/
def drawn (cfg : GossipConfig) (d : Draws W) (l : View W) : View W :=
  (d.shuffle (l.take (l.length - (retention cfg l).toNat))).take (cfg.maxView - (aged cfg d l).length).toNat

section Parts

variable {cfg : GossipConfig} {d : Draws W} {l : View W}

theorem retention_nonneg (nonneg : cfg.NonNegative) (l : View W) : 0 ≤ retention cfg l := by
  have maxView := nonneg.maxView
  have protect := nonneg.protect
  unfold retention
  omega

theorem length_retained (nonneg : cfg.NonNegative) (l : View W) :
    ((retained cfg l).length : Int) = retention cfg l := by
  have positive := retention_nonneg nonneg l
  have bound : retention cfg l ≤ l.length := min_le_right _ _
  rw [retained, List.length_drop]
  omega

/-- Decay takes records from the end, as many as the draws say and never more
than the limit. -/
theorem View.decay_eq_take (decay : Rat) {float : Nat → Rat} (unit : ∀ i, 0 ≤ float i) (maxDecay : Nat)
    (v : View W) : ∃ k ≤ maxDecay, (decay ≤ 0 → k = 0) ∧
      View.decay decay float maxDecay v = v.take (v.length - k) := by
  induction maxDecay generalizing float v with
  | zero => exact ⟨0, le_refl 0, fun _ => rfl, by simp [View.decay]⟩
  | succ maxDecay ih =>
    unfold View.decay
    split
    · rename_i drops
      obtain ⟨k, bound, _, equal⟩ := ih (fun i => unit (i + 1)) v.dropLast
      refine ⟨k + 1, by omega, ?_, ?_⟩
      · intro never
        exact absurd (lt_of_le_of_lt (unit 0) drops.2) (not_lt.mpr never)
      · rw [equal, List.dropLast_eq_take, List.length_take, List.take_take]
        congr 1
        omega
    · exact ⟨0, by omega, fun _ => rfl, by simp⟩

theorem aged_eq_take (cfg : GossipConfig) (d : Draws W) (l : View W) :
    ∃ k ≤ (decayLimit cfg l).toNat, (cfg.decay ≤ 0 → k = 0) ∧
      aged cfg d l = (retained cfg l).take ((retained cfg l).length - k) :=
  View.decay_eq_take cfg.decay (fun i => (d.float_unit i).1) _ _

/-- What decays makes room for other records, as long as there are any. -/
theorem length_parts (nonneg : cfg.NonNegative) (d : Draws W) (l : View W) :
    ((drawn cfg d l).length + (aged cfg d l).length : Int) = min (l.length : Int) cfg.maxView := by
  obtain ⟨k, bound, _, equal⟩ := aged_eq_take cfg d l
  have maxView := nonneg.maxView
  have positive := retention_nonneg nonneg l
  have length := length_retained nonneg l
  have rest : (aged cfg d l).length = (retained cfg l).length - k := by
    rw [equal, List.length_take]
    omega
  rw [drawn, List.length_take, (d.shuffle_perm _).length_eq, List.length_take]
  unfold decayLimit at bound
  unfold retention at bound positive length ⊢
  omega

theorem parts_subperm (cfg : GossipConfig) (d : Draws W) (l : View W) :
    (drawn cfg d l ++ aged cfg d l).Subperm l := by
  have front : (drawn cfg d l).Subperm (l.take (l.length - (retention cfg l).toNat)) :=
    (List.take_sublist _ _).subperm.trans (d.shuffle_perm _).subperm
  have back : (aged cfg d l).Subperm (retained cfg l) := (View.decay_front ..).sublist.subperm
  have joined := front.append back
  rwa [retained, List.take_append_drop] at joined

theorem length_ranked (nonneg : cfg.NonNegative) (d : Draws W) (m : View W) :
    ((ranked cfg d m).length : Int) = m.length - swapCount cfg m := by
  obtain ⟨maxView, swap, _⟩ := nonneg
  rw [ranked, (d.sort_perm _).length_eq, List.length_drop]
  unfold swapCount
  omega

/-- Records are only swapped out of a view that is too large by as many. -/
theorem min_length_sub_swapCount (nonneg : cfg.NonNegative) (m : View W) :
    min ((m.length : Int) - swapCount cfg m) cfg.maxView = min (m.length : Int) cfg.maxView := by
  have swap := nonneg.swap
  unfold swapCount
  omega

theorem ranked_subperm (cfg : GossipConfig) (d : Draws W) (m : View W) : (ranked cfg d m).Subperm m :=
  (d.sort_perm _).subperm.trans (List.drop_sublist _ _).subperm

/-- Where there is room for all candidates, nothing is dropped. -/
theorem parts_perm (nonneg : cfg.NonNegative) (d : Draws W) {m : View W} (fits : (m.length : Int) ≤ cfg.maxView) :
    (drawn cfg d (ranked cfg d m) ++ aged cfg d (ranked cfg d m)).Perm m := by
  have swap := nonneg.swap
  have none : swapCount cfg m = 0 := by
    unfold swapCount
    omega
  have length := length_ranked nonneg d m
  have parts := length_parts nonneg d (ranked cfg d m)
  have whole : (drawn cfg d (ranked cfg d m) ++ aged cfg d (ranked cfg d m)).Perm (ranked cfg d m) := by
    refine (parts_subperm cfg d _).perm_of_length_le ?_
    rw [List.length_append]
    omega
  have sorted : (ranked cfg d m).Perm m := by
    rw [ranked, none]
    exact d.sort_perm m
  exact whole.trans sorted

end Parts

theorem View.merged_sublist (tail v : View W) : (View.merged tail v).Sublist (v ++ tail) :=
  List.filter_sublist.append List.filter_sublist

theorem mem_candidates_of_subperm {self : PeerID} {loc remote kept : View W}
    (chosen : kept.Subperm (candidates self loc remote)) {g : GossipRecord W} (member : g ∈ kept.incrHops) :
    g.peerID ≠ self := by
  obtain ⟨source, inKept, equal⟩ := List.mem_map.mp member
  rw [← equal, GossipRecord.incrHop_peerID]
  exact (View.mem_isNot.mp (chosen.subset inKept)).2

theorem GossipRecord.incrHop_injective : Function.Injective (GossipRecord.incrHop : GossipRecord W → _) := by
  intro g g' same
  have messages : (⟨g.message.hop + 1, g.message.envelope⟩ : Gossip) =
      ⟨g'.message.hop + 1, g'.message.envelope⟩ := congrArg GossipRecord.message same
  obtain ⟨hops, envelopes⟩ := Gossip.mk.inj messages
  have equal : (⟨g.message.hop, g.message.envelope⟩ : Gossip) = ⟨g'.message.hop, g'.message.envelope⟩ := by
    rw [add_right_cancel hops, envelopes]
  exact GossipRecord.message_injective equal

section Merge

variable {cfg : GossipConfig} {self : PeerID} {loc remote : View W}

/-- A merge of a valid view returns the drawn and the aged records, but for
those that its last step takes for duplicates. -/
theorem merge_eq (nonneg : cfg.NonNegative) {d : Draws W} {l : View W}
    (order : ranked cfg d (candidates self loc remote) = l) (valid : remote.validate = .ok ()) :
    merge cfg self d loc remote = .ok (View.merged (aged cfg d l) (drawn cfg d l)).incrHops := by
  have positive := retention_nonneg nonneg l
  have room : ((aged cfg d l).length : Int) ≤ cfg.maxView := by
    have total := length_parts nonneg d l
    omega
  have swapped : View.tail ((candidates self loc remote).length - swapCount cfg (candidates self loc remote))
      (candidates self loc remote) =
        .ok ((candidates self loc remote).drop (swapCount cfg (candidates self loc remote)).toNat) := by
    obtain ⟨maxView, swap, _⟩ := nonneg
    refine View.tail_eq_ok.mpr ⟨?_, congrArg (List.drop · _) ?_⟩
    · unfold swapCount
      omega
    · unfold swapCount
      omega
  have kept : View.tail (retention cfg l) l = .ok (retained cfg l) := View.tail_eq_ok.mpr ⟨positive, rfl⟩
  have front : View.head (max (l.length - retention cfg l) 0) l =
      .ok (l.take (l.length - (retention cfg l).toNat)) := by
    refine View.head_eq_ok.mpr ⟨le_max_right _ _, congrArg (List.take · l) ?_⟩
    omega
  have evicted : View.head (cfg.maxView - (aged cfg d l).length)
      (d.shuffle (l.take (l.length - (retention cfg l).toNat))) = .ok (drawn cfg d l) :=
    View.head_eq_ok.mpr ⟨by omega, rfl⟩
  subst order
  unfold merge
  simp only [Except.bind_eq_ok]
  exact ⟨(), valid, _, swapped, _, kept, _, front, _, evicted, rfl⟩

/-- The records of a peer that escape the first merge are crossed. -/
theorem candidates_crossed (distinct : loc.Distinct) (distinct' : remote.Distinct) (self : PeerID) :
    (candidates self loc remote).Pairwise fun g g' => g.peerID = g'.peerID → Crossed g g' := by
  have apart : ∀ {v : View W}, v.Distinct → v.Pairwise fun g g' => g.peerID = g'.peerID → Crossed g g' := by
    intro v distinct
    exact (List.pairwise_map.mp distinct).imp fun different same => absurd same different
  refine List.Pairwise.filter _ (List.pairwise_append.mpr ⟨?_, ?_, ?_⟩)
  · exact (apart distinct).filter _
  · exact (apart distinct').filter _
  · intro l inFront r inBack same
    obtain ⟨inLoc, kept⟩ := List.mem_filter.mp inFront
    obtain ⟨inRemote, kept'⟩ := List.mem_filter.mp inBack
    exact (View.kept_both_iff distinct distinct' inLoc inRemote same).mp ⟨kept, kept'⟩

theorem candidates_nodup (distinct : loc.Distinct) (distinct' : remote.Distinct) (self : PeerID) :
    (candidates self loc remote).Nodup := by
  refine (candidates_crossed distinct distinct' self).imp ?_
  intro g g' crossed equal
  subst equal
  exact not_crossed_self g (crossed rfl)

/-- By age, the record of a peer that comes later is the newer one. -/
theorem ranked_crossed {m : View W} (crossed : m.Pairwise fun g g' => g.peerID = g'.peerID → Crossed g g')
    (cfg : GossipConfig) (d : Draws W) :
    (ranked cfg d m).Pairwise fun g g' => g.peerID = g'.peerID → g.hop < g'.hop ∧ g.seq < g'.seq := by
  have rest := crossed.sublist (List.drop_sublist (swapCount cfg m).toNat m)
  have sorted := d.sort_sorted (m.drop (swapCount cfg m).toNat)
  have reordered : (ranked cfg d m).Pairwise fun g g' => g.peerID = g'.peerID → Crossed g g' :=
    rest.perm (d.sort_perm _).symm fun crossed same => (crossed same.symm).symm
  refine (reordered.and sorted).imp ?_
  rintro g g' ⟨crossed, older⟩ same
  rcases crossed same with ⟨newer, further⟩ | ⟨_, nearer⟩
  · exact ⟨further, newer⟩
  · exact absurd older (UInt64.not_le.mpr nearer)

/-- The last step of a merge finds no duplicates: of two records of a peer the
drawn one is younger and the aged one newer. -/
theorem merged_parts {d : Draws W} {l : View W}
    (crossed : l.Pairwise fun g g' => g.peerID = g'.peerID → g.hop < g'.hop ∧ g.seq < g'.seq) :
    View.merged (aged cfg d l) (drawn cfg d l) = drawn cfg d l ++ aged cfg d l := by
  rw [← List.take_append_drop (l.length - (retention cfg l).toNat) l, List.pairwise_append] at crossed
  have apart : ∀ g ∈ drawn cfg d l, ∀ g' ∈ aged cfg d l, g.peerID = g'.peerID → g.hop < g'.hop ∧ g.seq < g'.seq := by
    intro g inDrawn g' inAged
    exact crossed.2.2 g (d.mem_shuffle.mp (List.mem_of_mem_take inDrawn)) g' ((View.decay_front ..).subset inAged)
  unfold View.merged View.dedupe
  congr 1
  · rw [List.filter_eq_self]
    intro g inDrawn
    rw [View.keeps_true_iff]
    intro g' found
    obtain ⟨inAged, same⟩ := View.find_some found
    exact Or.inr (Or.inl (apart g inDrawn g' inAged same.symm).1)
  · rw [List.filter_eq_self]
    intro g' inAged
    rw [View.keeps_false_iff]
    intro g found
    obtain ⟨inDrawn, same⟩ := View.find_some found
    exact Or.inl (apart g inDrawn g' inAged same).2

/-- The size of a merged view. -/
theorem merge_size (nonneg : cfg.NonNegative) (self : PeerID) (d : Draws W) (distinct : loc.Distinct)
    (valid : remote.validate = .ok ()) :
    ∃ new, merge cfg self d loc remote = .ok new ∧ (new.length : Int) ≤ cfg.maxView ∧
      (∀ g ∈ new, g.peerID ≠ self) ∧
      (∃ kept : View W, kept.Subperm (candidates self loc remote) ∧ List.Forall₂ (fun g g' => g'.hop = g.hop + 1 ∧
        g'.message.envelope = g.message.envelope ∧ g'.peerRecord = g.peerRecord) kept new) ∧
      (remote.Distinct → (new.length : Int) = min ((candidates self loc remote).length : Int) cfg.maxView) := by
  obtain ⟨l, order⟩ : ∃ l, ranked cfg d (candidates self loc remote) = l := ⟨_, rfl⟩
  have ok := merge_eq nonneg order valid
  have chosen : (View.merged (aged cfg d l) (drawn cfg d l)).Subperm (candidates self loc remote) := by
    refine (View.merged_sublist ..).subperm.trans ((parts_subperm cfg d l).trans ?_)
    rw [← order]
    exact ranked_subperm ..
  refine ⟨_, ok, merge_length_le ok, fun g => mem_candidates_of_subperm chosen, ⟨_, chosen, ?_⟩, fun distinct' => ?_⟩
  · exact List.forall₂_map_right_iff.mpr (List.forall₂_same.mpr fun g _ => ⟨rfl, rfl, rfl⟩)
  have crossed := ranked_crossed (candidates_crossed distinct distinct' self) cfg d
  have parts := length_parts nonneg d l
  have length := length_ranked nonneg d (candidates self loc remote)
  rw [View.incrHops, List.length_map, merged_parts (order ▸ crossed), List.length_append]
  push_cast
  rw [parts, ← order, length, min_length_sub_swapCount nonneg]

/-- Protection and swapping. The candidates are all different, so a record that
is returned is returned from one place among them. -/
theorem merge_protects (nonneg : cfg.NonNegative) (self : PeerID) (d : Draws W) (distinct : loc.Distinct)
    (distinct' : remote.Distinct) (valid : remote.validate = .ok ()) :
    let m := candidates self loc remote
    let l := ranked cfg d m
    m.Nodup ∧ ∃ new, merge cfg self d loc remote = .ok new ∧
      (∀ g ∈ m.take (swapCount cfg m).toNat, g.incrHop ∉ new) ∧
      (∃ k : Nat, (k : Int) ≤ decayLimit cfg l ∧ (cfg.decay = 0 → k = 0) ∧
        ∀ g ∈ (retained cfg l).take ((retained cfg l).length - k), g.incrHop ∈ new) ∧
      ((m.length : Int) ≤ cfg.maxView → ∀ g ∈ m, g.incrHop ∈ new) := by
  intro m l
  have nodup : m.Nodup := candidates_nodup distinct distinct' self
  have crossed := ranked_crossed (candidates_crossed distinct distinct' self) cfg d
  have ok := merge_eq nonneg (rfl : ranked cfg d (candidates self loc remote) = l) valid
  rw [merged_parts crossed] at ok
  have mem_new : ∀ g, g.incrHop ∈ (drawn cfg d l ++ aged cfg d l).incrHops ↔ g ∈ drawn cfg d l ++ aged cfg d l :=
    fun g => List.mem_map_of_injective GossipRecord.incrHop_injective
  have chosen := parts_subperm cfg d l
  refine ⟨nodup, _, ok, ?_, ?_, ?_⟩
  · intro g first member
    have inRest : g ∈ m.drop (swapCount cfg m).toNat := d.mem_sort.mp (chosen.subset ((mem_new g).mp member))
    exact List.disjoint_take_drop nodup le_rfl first inRest
  · obtain ⟨k, bound, never, equal⟩ := aged_eq_take cfg d l
    have positive : 0 ≤ decayLimit cfg l := le_min (retention_nonneg nonneg l) (le_max_right _ _)
    refine ⟨k, by omega, fun zero => never (le_of_eq zero), ?_⟩
    intro g member
    rw [← equal] at member
    exact (mem_new g).mpr (List.mem_append_right _ member)
  · intro fits g member
    exact (mem_new g).mpr ((parts_perm nonneg d fits).mem_iff.mpr member)

/-- Room for three records, two of them protected, and a decay that is certain. -/
def tightConfig : GossipConfig where
  maxView := 3
  swap := 1
  protect := 2
  decay := 1
  tick := 0
  timeout := 0

theorem tightConfig_nonNegative : tightConfig.NonNegative :=
  ⟨by decide, by decide, by decide⟩

def heldView : View plainIdentities :=
  [peerTwo 1 4, peerThree 1 3, plainRecord 4 1 2]

def heardView : View plainIdentities :=
  [plainRecord 5 1 1, plainRecord 6 1 0]

theorem merge_size_tight : (candidates [1] heldView heardView).length = 5 ∧
    ∃ new, merge tightConfig [1] plainDraws heldView heardView = .ok new ∧ (new.length : Int) = 3 := by
  have distinct : heldView.Distinct := by decide
  have valid : heardView.validate = .ok () := rfl
  obtain ⟨new, ok, _, _, _, exactly⟩ := merge_size tightConfig_nonNegative [1] plainDraws distinct valid
  exact ⟨rfl, new, ok, (exactly (by decide)).trans rfl⟩

/-- Of five candidates the first is swapped out. Of the two oldest that are left
one may decay, and the younger of them stays. -/
theorem merge_protects_tight : swapCount tightConfig (candidates [1] heldView heardView) = 1 ∧
    decayLimit tightConfig (ranked tightConfig plainDraws (candidates [1] heldView heardView)) = 1 ∧
    ∃ new, merge tightConfig [1] plainDraws heldView heardView = .ok new ∧ peerTwo 1 5 ∉ new ∧
      plainRecord 4 1 3 ∈ new := by
  have distinct : heldView.Distinct := by decide
  have distinct' : heardView.Distinct := by decide
  obtain ⟨_, new, ok, swapped, ⟨k, bound, _, kept⟩, _⟩ :=
    merge_protects tightConfig_nonNegative [1] plainDraws distinct distinct' rfl
  have limit : decayLimit tightConfig (ranked tightConfig plainDraws (candidates [1] heldView heardView)) = 1 := rfl
  refine ⟨rfl, limit, new, ok, swapped (peerTwo 1 4) (by decide), kept (plainRecord 4 1 2) ?_⟩
  rw [limit] at bound
  obtain rfl | rfl : k = 0 ∨ k = 1 := by omega
  · decide
  · decide

end Merge

section Panics

variable {cfg : GossipConfig}

theorem Refines.noPanic {base : Heap (GossipRecord W)} {x : Except Fault (Heap (GossipRecord W) × Slice)}
    {y : Except Fault (View W)} (refines : Refines base x y) (quiet : y.NoPanic) : x.NoPanic := by
  intro msg failed
  rw [failed] at refines
  exact quiet msg refines

theorem InPlace.push_noPanic_iff (nonneg : cfg.NonNegative) (own : GossipRecord W) (h : Heap (GossipRecord W))
    (loc : Slice) : (InPlace.push cfg own h loc).NoPanic ↔ 2 ≤ cfg.maxView := by
  rw [← pushLimit_nonneg_iff nonneg.maxView]
  unfold InPlace.push InPlace.head nonNegative
  split
  · rename_i negative
    refine iff_of_false ?_ (not_le.mpr negative)
    intro quiet
    exact quiet _ rfl
  · rename_i positive
    exact iff_of_true (Except.noPanic_ok _) (not_lt.mp positive)

/-- Of the steps of a round only the push can panic, and it does for every view
that is limited to less than two records. -/
theorem steps_noPanic_iff (nonneg : cfg.NonNegative) (loadDraws mergeDraws : Draws W) (self : PeerID)
    (own : GossipRecord W) (stored : View W) {h : Heap (GossipRecord W)} {loc remote : Slice}
    (validLoc : h.Valid loc) (validRemote : h.Valid remote) :
    ((InPlace.mutexGetPushView cfg loadDraws stored).NoPanic ∧ (InPlace.push cfg own h loc).NoPanic ∧
      (InPlace.merge cfg self mergeDraws h loc remote).NoPanic) ↔ 2 ≤ cfg.maxView := by
  have prepare : (InPlace.mutexGetPushView cfg loadDraws stored).NoPanic := by
    refine (InPlace.mutexGetPushView_refines cfg loadDraws stored).noPanic ?_
    obtain ⟨view, returned⟩ := pushView_returns nonneg loadDraws stored
    rw [returned]
    exact Except.noPanic_ok view
  have merging : (InPlace.merge cfg self mergeDraws h loc remote).NoPanic :=
    (InPlace.merge_refines cfg self mergeDraws validLoc validRemote).noPanic (merge_noPanic nonneg self mergeDraws _ _)
  rw [and_iff_right prepare, and_iff_left merging]
  exact InPlace.push_noPanic_iff nonneg own h loc

def twoViews : Heap (GossipRecord plainIdentities) :=
  [heldView, heardView]

def heldSlice : Slice :=
  ⟨0, 0, 3, 3⟩

def heardSlice : Slice :=
  ⟨1, 0, 2, 2⟩

/-- The received view is valid, so that the merge gets as far as to drop records. -/
theorem steps_noPanic_tight : View.validate (twoViews.read heardSlice) = .ok () ∧
    (InPlace.mutexGetPushView tightConfig plainDraws heldView).NoPanic ∧
      (InPlace.push tightConfig (plainRecord 1 1 0) twoViews heldSlice).NoPanic ∧
      (InPlace.merge tightConfig [1] plainDraws twoViews heldSlice heardSlice).NoPanic := by
  have validLoc : twoViews.Valid heldSlice := ⟨by decide, by decide, by decide⟩
  have validRemote : twoViews.Valid heardSlice := ⟨by decide, by decide, by decide⟩
  exact ⟨rfl, (steps_noPanic_iff tightConfig_nonNegative plainDraws plainDraws [1] (plainRecord 1 1 0) heldView
    validLoc validRemote).mpr (by decide)⟩

/-- The zero configuration does not get as far as sending its own record. -/
theorem push_panics_of_zero :
    InPlace.push ⟨0, 0, 0, 0, 0, 0⟩ (plainRecord 1 1 0) twoViews heldSlice =
      .error (.panic "n must be greater than zero.") :=
  rfl

end Panics

end Casm.Pex
