import Casm.Pex.Record

namespace Casm.Pex

structure GossipConfig where
  maxView : Int
  swap : Int
  protect : Int
  decay : Rat
  tick : Int
  timeout : Int

/-- Durations are in nanoseconds. -/
def defaultGossipConfig : GossipConfig where
  maxView := 32
  swap := 10
  protect := 5
  decay := 5764607523034235 / 2 ^ 60 -- the float nearest to 0.005
  tick := 300 * 10 ^ 9
  timeout := 30 * 10 ^ 9

/-- The configurations under which a gossip round cannot panic. -/
structure GossipConfig.Sane (cfg : GossipConfig) : Prop where
  maxView : 2 ≤ cfg.maxView
  swap : 0 ≤ cfg.swap
  protect : 0 ≤ cfg.protect

/-- The configurations without negative sizes. -/
structure GossipConfig.NonNegative (cfg : GossipConfig) : Prop where
  maxView : 0 ≤ cfg.maxView
  swap : 0 ≤ cfg.swap
  protect : 0 ≤ cfg.protect

theorem GossipConfig.Sane.nonNegative {cfg : GossipConfig} (sane : cfg.Sane) : cfg.NonNegative where
  maxView := le_trans (by decide) sane.maxView
  swap := sane.swap
  protect := sane.protect

theorem defaultGossipConfig_sane : defaultGossipConfig.Sane where
  maxView := by decide
  swap := by decide
  protect := by decide

variable {W : Identities}

/-- The outcomes of the random choices of one load or one merge. The sort is not
stable, so it may leave records of one age in any order. -/
structure Draws (W : Identities) where
  sort : View W → View W
  sort_perm : ∀ v, (sort v).Perm v
  sort_sorted : ∀ v, (sort v).Pairwise fun a b => a.hop ≤ b.hop
  shuffle : View W → View W
  shuffle_perm : ∀ v, (shuffle v).Perm v
  float : Nat → Rat
  float_unit : ∀ i, 0 ≤ float i ∧ float i < 1

/-- The guard of `head` and `tail`. -/
def nonNegative (n : Int) : Except Fault Unit :=
  if n < 0 then .error (.panic "n must be greater than zero.") else .ok ()

theorem nonNegative_eq_ok {n : Int} : nonNegative n = .ok () ↔ 0 ≤ n := by
  unfold nonNegative
  split
  · simp; omega
  · simp; omega

namespace View

def isNot (self : PeerID) (v : View W) : View W :=
  v.filter fun g => self ≠ g.peerID

/-- Whether a record is kept next to the records of another view. -/
def keeps (other : View W) (keepEqual : Bool) (g : GossipRecord W) : Bool :=
  match other.find g.peerID with
  | none => true
  | some have' => have'.seq < g.seq || g.hop < have'.hop ||
      (keepEqual && g.seq == have'.seq && g.hop == have'.hop)

def dedupe (other : View W) (keepEqual : Bool) (v : View W) : View W :=
  v.filter (keeps other keepEqual)

def merged (tail v : View W) : View W :=
  dedupe tail true v ++ dedupe v false tail

def head (n : Int) (v : View W) : Except Fault (View W) := do
  nonNegative n
  return v.take n.toNat

def tail (n : Int) (v : View W) : Except Fault (View W) := do
  nonNegative n
  return v.drop (v.length - n.toNat)

/-- Drop records from the end as long as the draws say so, `maxDecay` at most. -/
def decay (d : Rat) (float : Nat → Rat) : Nat → View W → View W
  | 0, v => v
  | maxDecay + 1, v =>
    if v ≠ [] ∧ float 0 < d then decay d (fun i => float (i + 1)) maxDecay v.dropLast else v

theorem head_eq_ok {n : Int} {v w : View W} : head n v = .ok w ↔ 0 ≤ n ∧ w = v.take n.toNat := by
  simp only [head, Except.bind_eq_ok, ← nonNegative_eq_ok, eq_comm (a := w)]
  exact ⟨fun ⟨_, guard, result⟩ => ⟨guard, Except.ok.inj result⟩,
    fun ⟨guard, result⟩ => ⟨(), guard, congrArg _ result⟩⟩

theorem tail_eq_ok {n : Int} {v w : View W} :
    tail n v = .ok w ↔ 0 ≤ n ∧ w = v.drop (v.length - n.toNat) := by
  simp only [tail, Except.bind_eq_ok, ← nonNegative_eq_ok, eq_comm (a := w)]
  exact ⟨fun ⟨_, guard, result⟩ => ⟨guard, Except.ok.inj result⟩,
    fun ⟨guard, result⟩ => ⟨(), guard, congrArg _ result⟩⟩

theorem decay_front (d : Rat) (float : Nat → Rat) (maxDecay : Nat) (v : View W) :
    decay d float maxDecay v <+: v := by
  induction maxDecay generalizing float v with
  | zero => exact List.prefix_refl v
  | succ maxDecay ih =>
    unfold decay
    split
    · exact (ih _ v.dropLast).trans (List.dropLast_prefix v)
    · exact List.prefix_refl v

theorem length_decay_le {r : Int} {v oldest : View W} (retain : tail r v = .ok oldest) (d : Rat)
    (float : Nat → Rat) (maxDecay : Nat) : ((decay d float maxDecay oldest).length : Int) ≤ r := by
  obtain ⟨_, last⟩ := tail_eq_ok.mp retain
  have bound := (decay_front d float maxDecay oldest).length_le
  have width : oldest.length = v.length - (v.length - r.toNat) := by rw [last, List.length_drop]
  omega

theorem mem_isNot {self : PeerID} {v : View W} {g : GossipRecord W} :
    g ∈ isNot self v ↔ g ∈ v ∧ g.peerID ≠ self := by
  rw [isNot, List.mem_filter, decide_eq_true_eq, ne_comm]

theorem mem_merged {tail v : View W} {g : GossipRecord W} : g ∈ merged tail v ↔
    g ∈ v ∧ keeps tail true g = true ∨ g ∈ tail ∧ keeps v false g = true := by
  rw [merged, List.mem_append, dedupe, dedupe, List.mem_filter, List.mem_filter]

theorem mem_of_merged {tail v : View W} {g : GossipRecord W} (member : g ∈ merged tail v) :
    g ∈ v ∨ g ∈ tail :=
  (mem_merged.mp member).imp And.left And.left

theorem length_merged_le (tail v : View W) : (merged tail v).length ≤ v.length + tail.length := by
  rw [merged, List.length_append]
  exact Nat.add_le_add (List.length_filter_le ..) (List.length_filter_le ..)

/-- A record of `tail` is kept unless `v` has one that is as recent and as young. -/
theorem keeps_false_iff {v : View W} {g : GossipRecord W} : keeps v false g = true ↔
    ∀ have', v.find g.peerID = some have' → have'.seq < g.seq ∨ g.hop < have'.hop := by
  unfold keeps
  cases v.find g.peerID with
  | none => simp
  | some have' => simp

end View

/-- `gossiper.merge`. -/
def merge (cfg : GossipConfig) (self : PeerID) (d : Draws W) (loc remote : View W) :
    Except Fault (View W) := do
  remote.validate
  let newLocal := (View.merged remote loc).isNot self
  let s := min cfg.swap (max (newLocal.length - cfg.maxView) 0)
  let newLocal := d.sort (← newLocal.tail (newLocal.length - s))
  let r := min (min cfg.protect cfg.maxView) newLocal.length
  let maxDecay := min r (max (newLocal.length - cfg.maxView) 0)
  let oldest := View.decay cfg.decay d.float maxDecay.toNat (← newLocal.tail r)
  let c := cfg.maxView - oldest.length
  let newLocal ← View.head c (d.shuffle (← newLocal.head (max (newLocal.length - r) 0)))
  return (View.merged oldest newLocal).incrHops

/-- The reordering of a loaded view by `mutexGetPushView`: a random order, with
the oldest records at the end. -/
def pushView (cfg : GossipConfig) (d : Draws W) (v : View W) : Except Fault (View W) := do
  let loc := d.sort v
  let oldest ← loc.tail cfg.protect
  let front ← loc.head (loc.length - oldest.length)
  return d.shuffle front ++ oldest

/-- How much of its view a node pushes. -/
def pushLimit (cfg : GossipConfig) : Int :=
  cfg.maxView.tdiv 2 - 1

def pushBuffer (cfg : GossipConfig) (own : GossipRecord W) (loc : View W) : Except Fault (View W) := do
  return (← loc.head (pushLimit cfg)) ++ [own]

theorem Draws.mem_sort (d : Draws W) {v : View W} {g : GossipRecord W} : g ∈ d.sort v ↔ g ∈ v :=
  (d.sort_perm v).mem_iff

theorem Draws.mem_shuffle (d : Draws W) {v : View W} {g : GossipRecord W} : g ∈ d.shuffle v ↔ g ∈ v :=
  (d.shuffle_perm v).mem_iff

/-- What a merge that returns has done: it has dropped records from the front,
then split the rest into records that may be evicted and records that may decay. -/
theorem merge_eq_ok {cfg : GossipConfig} {self : PeerID} {d : Draws W} {loc remote new : View W}
    (ok : merge cfg self d loc remote = .ok new) :
    remote.validate = .ok () ∧ ∃ kept young old : View W,
      kept <:+ (View.merged remote loc).isNot self ∧ young ⊆ kept ∧ old ⊆ kept ∧
        (young.length + old.length : Int) ≤ cfg.maxView ∧ new = (View.merged old young).incrHops := by
  unfold merge at ok
  simp only [Except.bind_eq_ok] at ok
  obtain ⟨_, valid, kept, swap, oldest, retain, front, room, young, evict, result⟩ := ok
  obtain ⟨_, shorter⟩ := View.tail_eq_ok.mp swap
  obtain ⟨_, last⟩ := View.tail_eq_ok.mp retain
  obtain ⟨_, first⟩ := View.head_eq_ok.mp room
  obtain ⟨spare, chosen⟩ := View.head_eq_ok.mp evict
  have decayed := View.decay_front cfg.decay d.float
    (min (min (min cfg.protect cfg.maxView) (d.sort kept).length)
      (max ((d.sort kept).length - cfg.maxView) 0)).toNat oldest
  refine ⟨valid, kept, young, _, ?_, ?_, ?_, ?_, (Except.ok.inj result).symm⟩
  · rw [shorter]
    exact List.drop_suffix ..
  · intro g member
    rw [chosen] at member
    have shuffled := d.mem_shuffle.mp (List.mem_of_mem_take member)
    rw [first] at shuffled
    exact d.mem_sort.mp (List.mem_of_mem_take shuffled)
  · intro g member
    have old := decayed.subset member
    rw [last] at old
    exact d.mem_sort.mp (List.mem_of_mem_drop old)
  · have bound := List.length_take_le (cfg.maxView - (View.decay cfg.decay d.float
      (min (min (min cfg.protect cfg.maxView) (d.sort kept).length)
        (max ((d.sort kept).length - cfg.maxView) 0)).toNat oldest).length).toNat (d.shuffle front)
    rw [← chosen] at bound
    omega

theorem merge_length_le {cfg : GossipConfig} {self : PeerID} {d : Draws W} {loc remote new : View W}
    (ok : merge cfg self d loc remote = .ok new) : (new.length : Int) ≤ cfg.maxView := by
  obtain ⟨_, kept, young, old, _, _, _, room, result⟩ := merge_eq_ok ok
  have bound := View.length_merged_le old young
  rw [result, View.incrHops, List.length_map]
  omega

/-- Every record of the merged view is a record of one of the two views, one hop
older and not the node's own. -/
theorem mem_merge {cfg : GossipConfig} {self : PeerID} {d : Draws W} {loc remote new : View W}
    (ok : merge cfg self d loc remote = .ok new) {x : GossipRecord W} (member : x ∈ new) :
    ∃ y ∈ View.merged remote loc, y.peerID ≠ self ∧ x = y.incrHop := by
  obtain ⟨_, kept, young, old, swapped, youngKept, oldKept, _, result⟩ := merge_eq_ok ok
  rw [result, View.incrHops, List.mem_map] at member
  obtain ⟨y, source, equal⟩ := member
  have inKept : y ∈ kept := by
    rcases View.mem_of_merged source with fromYoung | fromOld
    · exact youngKept fromYoung
    · exact oldKept fromOld
  obtain ⟨inMerged, other⟩ := View.mem_isNot.mp (swapped.subset inKept)
  exact ⟨y, inMerged, other, equal.symm⟩

theorem merge_returns {cfg : GossipConfig} (nonneg : cfg.NonNegative) (self : PeerID) (d : Draws W)
    (loc : View W) {remote : View W} (valid : remote.validate = .ok ()) :
    ∃ new, merge cfg self d loc remote = .ok new := by
  obtain ⟨maxView, swap, protect⟩ := nonneg
  unfold merge
  simp only [Except.bind_eq_ok]
  refine ⟨_, (), valid, _, View.tail_eq_ok.mpr ⟨by omega, rfl⟩, _, View.tail_eq_ok.mpr ⟨by omega, rfl⟩, _,
    View.head_eq_ok.mpr ⟨by omega, rfl⟩, _, View.head_eq_ok.mpr ⟨?_, rfl⟩, rfl⟩
  refine Int.sub_nonneg_of_le (le_trans (View.length_decay_le (View.tail_eq_ok.mpr ⟨?_, rfl⟩) ..) ?_)
  · omega
  · omega

theorem pushView_perm {cfg : GossipConfig} {d : Draws W} {v loc : View W}
    (ok : pushView cfg d v = .ok loc) : loc.Perm v := by
  unfold pushView at ok
  simp only [Except.bind_eq_ok] at ok
  obtain ⟨oldest, retain, front, rest, result⟩ := ok
  obtain ⟨_, last⟩ := View.tail_eq_ok.mp retain
  obtain ⟨_, first⟩ := View.head_eq_ok.mp rest
  have whole : front ++ oldest = d.sort v := by
    have count : ((d.sort v).length - oldest.length : Int).toNat = (d.sort v).length - cfg.protect.toNat := by
      rw [last, List.length_drop]
      omega
    rw [first, count, last, List.take_append_drop]
  rw [← Except.ok.inj result]
  exact ((d.shuffle_perm front).append_right oldest).trans (whole ▸ d.sort_perm v)

theorem pushView_returns {cfg : GossipConfig} (nonneg : cfg.NonNegative) (d : Draws W) (v : View W) :
    ∃ loc, pushView cfg d v = .ok loc := by
  have protect := nonneg.protect
  unfold pushView
  simp only [Except.bind_eq_ok]
  refine ⟨_, _, View.tail_eq_ok.mpr ⟨protect, rfl⟩, _, View.head_eq_ok.mpr ⟨?_, rfl⟩, rfl⟩
  rw [List.length_drop]
  omega

end Casm.Pex
