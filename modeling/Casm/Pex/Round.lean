import Casm.Lib.Slice
import Casm.Pex.Merge
import Casm.Pex.Store

namespace Casm.Pex
open GoSlice

variable {W : Identities}

/-- A gossiper with the record that the node currently advertises, which is
always fresh. -/
structure Node (W : Identities) where
  cfg : GossipConfig
  ns : Key
  own : GossipRecord W
  own_new : own.hop = 0

def Node.self (n : Node W) : PeerID :=
  n.own.peerID

/-- What a round does not control: failing operations, the messages on the
stream up to its end, and the random draws. -/
structure RoundInput (W : Identities) where
  faults : Faults
  stream : List (Except String Gossip)
  loadDraws : Draws W
  mergeDraws : Draws W

variable (W) in
/-- One step of the loop of `pull`. A message that cannot be decoded ends it. -/
def receive (message : Except String Gossip) : Except Fault (GossipRecord W) :=
  match message with
  | .error msg => .error (.error msg)
  | .ok g => readMessage W g

variable (W) in
def pull (stream : List (Except String Gossip)) : Except Fault (View W) :=
  stream.mapM (receive W)

def sendOps (count : Nat) : List Op :=
  (List.range count).map .encode ++ [.flush]

-- The functions of a round as they work on slices.
namespace InPlace

def head (n : Int) (s : Slice) : Except Fault Slice := do
  nonNegative n
  return s.head n.toNat

def tail (n : Int) (s : Slice) : Except Fault Slice := do
  nonNegative n
  return s.tail n.toNat

def decay (d : Rat) (float : Nat → Rat) : Nat → Slice → Slice
  | 0, s => s
  | maxDecay + 1, s =>
    if 0 < s.len ∧ float 0 < d then decay d (fun i => float (i + 1)) maxDecay (s.head (s.len - 1)) else s

/-- Both filters copy, so the append never reaches an array that was there before. -/
def merged (h : Heap (GossipRecord W)) (tail v : Slice) : Heap (GossipRecord W) × Slice :=
  let (h₁, kept) := v.filter h (View.keeps (h.read tail) true)
  let (h₂, fresh) := tail.filter h₁ (View.keeps (h₁.read v) false)
  kept.append h₂ (h₂.read fresh)

/-- `IncrHop` changes records that the loaded view shares. Nothing reads their
hops again, so here it changes the elements of the new view only. -/
def merge (cfg : GossipConfig) (self : PeerID) (d : Draws W) (h : Heap (GossipRecord W))
    (loc remote : Slice) : Except Fault (Heap (GossipRecord W) × Slice) := do
  View.validate (h.read remote)
  let (h, newLocal) := merged h remote loc
  let (h, newLocal) := newLocal.filter h fun g => self ≠ g.peerID
  let s := min cfg.swap (max (newLocal.len - cfg.maxView) 0)
  let newLocal ← tail (newLocal.len - s) newLocal
  let h := newLocal.update h d.sort
  let r := min (min cfg.protect cfg.maxView) newLocal.len
  let maxDecay := min r (max (newLocal.len - cfg.maxView) 0)
  let oldest := decay cfg.decay d.float maxDecay.toNat (← tail r newLocal)
  let c := cfg.maxView - oldest.len
  let front ← head (max (newLocal.len - r) 0) newLocal
  let h := front.update h d.shuffle
  let (h, newLocal) := merged h oldest (← head c front)
  return (newLocal.update h View.incrHops, newLocal)

/-- The records of the query go to a new array, and are then moved around in it. -/
def mutexGetPushView (cfg : GossipConfig) (d : Draws W) (v : View W) :
    Except Fault (Heap (GossipRecord W) × Slice) := do
  let (h, loc) := Heap.alloc [] v v.length
  let h := loc.update h d.sort
  let oldest ← tail cfg.protect loc
  let front ← head (loc.len - oldest.len) loc
  let h := front.update h d.shuffle
  return front.append h (h.read oldest)

def push (cfg : GossipConfig) (own : GossipRecord W) (h : Heap (GossipRecord W)) (loc : Slice) :
    Except Fault (Heap (GossipRecord W) × Slice) := do
  let front ← head (pushLimit cfg) loc
  return front.append h [own]

def pull (h : Heap (GossipRecord W)) (remote : Slice) :
    List (Except String Gossip) → Except Fault (Heap (GossipRecord W) × Slice)
  | [] => .ok (h, remote)
  | message :: rest => do
    let g ← receive W message
    let (h, remote) := remote.append h [g]
    pull h remote rest

/-- A round up to the two views it passes to `StoreRecords`. The push and the
pull run at the same time, on different arrays. -/
def roundViews (n : Node W) (input : RoundInput W) (d : RootDatastore) : Except Fault (View W × View W) := do
  input.faults.attempt [.setDeadline]
  let view ← loadView W n.ns input.faults d
  let (h, loc) ← mutexGetPushView n.cfg input.loadDraws view
  let (h, buffer) ← push n.cfg n.own h loc
  input.faults.attempt (sendOps buffer.len)
  let (h, remote) := h.alloc [] 0
  let (h, remote) ← pull h remote input.stream
  let (h, new) ← merge n.cfg n.self input.mergeDraws h loc remote
  return (h.read loc, h.read new)

end InPlace

/-- `gossipRound.Do`. -/
def gossipRound (n : Node W) (input : RoundInput W) (d : RootDatastore) : RootDatastore × Except Fault Unit :=
  match InPlace.roundViews n input d with
  | .error fault => (d, .error fault)
  | .ok (old, new) => storeRecords n.ns input.faults d old new

/-- What the push leaves of the loaded view: its record is appended to a part of
the view, and takes the place of the record that followed. -/
def pushed (cfg : GossipConfig) (own : GossipRecord W) (loc : View W) : View W :=
  loc.set (pushLimit cfg).toNat own

/-- The round on views that are values. The only trace of the shared arrays is
`pushed`. -/
def roundViews (n : Node W) (input : RoundInput W) (d : RootDatastore) : Except Fault (View W × View W) := do
  input.faults.attempt [.setDeadline]
  let view ← loadView W n.ns input.faults d
  let loc ← pushView n.cfg input.loadDraws view
  let buffer ← pushBuffer n.cfg n.own loc
  input.faults.attempt (sendOps buffer.length)
  let remote ← pull W input.stream
  let new ← merge n.cfg n.self input.mergeDraws (pushed n.cfg n.own loc) remote
  return (pushed n.cfg n.own loc, new)

/-- A computation on slices does what the one on views does, and leaves alone
what there was on the heap. -/
def Refines (base : Heap (GossipRecord W)) (x : Except Fault (Heap (GossipRecord W) × Slice))
    (y : Except Fault (View W)) : Prop :=
  match x with
  | .error fault => y = .error fault
  | .ok (h, s) => ∃ v, y = .ok v ∧ Yields base h s v

namespace InPlace

section

variable {base h : Heap (GossipRecord W)} {s tail' v : Slice} {xs : View W}

theorem decay_array (d : Rat) (float : Nat → Rat) (maxDecay : Nat) (s : Slice) :
    (decay d float maxDecay s).array = s.array ∧ (decay d float maxDecay s).off = s.off := by
  induction maxDecay generalizing float s with
  | zero => exact ⟨rfl, rfl⟩
  | succ maxDecay ih =>
    unfold decay
    split
    · obtain ⟨array, off⟩ := ih (fun i => float (i + 1)) (s.head (s.len - 1))
      exact ⟨array.trans (Slice.head_array ..), off.trans (Slice.head_off ..)⟩
    · exact ⟨rfl, rfl⟩

theorem decay_yields (d : Rat) (float : Nat → Rat) (maxDecay : Nat) (yields : Yields base h s xs) :
    Yields base h (decay d float maxDecay s) (View.decay d float maxDecay xs) := by
  induction maxDecay generalizing float s xs with
  | zero => exact yields
  | succ maxDecay ih =>
    have nonempty : 0 < s.len ↔ xs ≠ [] := by
      rw [yields.len_eq, List.length_pos_iff]
    unfold decay View.decay
    rw [if_congr (and_congr_left fun _ => nonempty) rfl rfl]
    split
    · have shorter := yields.head (s.len - 1)
      rw [yields.len_eq, ← List.dropLast_eq_take, ← yields.len_eq] at shorter
      exact ih _ shorter
    · exact yields

theorem merged_yields (grown : base <+: h) (validTail : h.Valid tail') (validV : h.Valid v) :
    ∃ h' t, merged h tail' v = (h', t) ∧ Yields base h' t (View.merged (h.read tail') (h.read v)) := by
  obtain ⟨h₁, kept, first, later, keptYields⟩ :=
    Yields.filter grown validV (View.keeps (h.read tail') true)
  obtain ⟨h₂, fresh, second, last, freshYields⟩ :=
    Yields.filter keptYields.grown (validTail.mono later) (View.keeps (h₁.read v) false)
  obtain ⟨h₃, t, third, result⟩ := (keptYields.mono last).append (h₂.read fresh)
  refine ⟨h₃, t, by simp only [merged, first, second, third], ?_⟩
  rw [freshYields.read, validTail.read_mono later, validV.read_mono later] at result
  exact result

theorem tail_refines (yields : Yields base h s xs) {n : Int}
    {next : Slice → Except Fault (Heap (GossipRecord W) × Slice)} {next' : View W → Except Fault (View W)}
    (rest : 0 ≤ n → Yields base h (s.tail n.toNat) (xs.drop (xs.length - n.toNat)) →
      Refines base (next (s.tail n.toNat)) (next' (xs.drop (xs.length - n.toNat)))) :
    Refines base (tail n s >>= next) (View.tail n xs >>= next') := by
  unfold tail View.tail
  cases guard : nonNegative n with
  | error fault => rfl
  | ok => exact rest (nonNegative_eq_ok.mp guard) (yields.tail n.toNat)

theorem head_refines (yields : Yields base h s xs) {n : Int}
    {next : Slice → Except Fault (Heap (GossipRecord W) × Slice)} {next' : View W → Except Fault (View W)}
    (rest : 0 ≤ n → Yields base h (s.head n.toNat) (xs.take n.toNat) →
      Refines base (next (s.head n.toNat)) (next' (xs.take n.toNat))) :
    Refines base (head n s >>= next) (View.head n xs >>= next') := by
  unfold head View.head
  cases guard : nonNegative n with
  | error fault => rfl
  | ok => exact rest (nonNegative_eq_ok.mp guard) (yields.head n.toNat)

/-- The windows of the oldest records and of the others share an array but no
cell, so shuffling the one does not disturb the other. -/
theorem merge_refines (cfg : GossipConfig) (self : PeerID) (d : Draws W) {loc remote : Slice}
    (validLoc : h.Valid loc) (validRemote : h.Valid remote) :
    Refines h (merge cfg self d h loc remote) (Pex.merge cfg self d (h.read loc) (h.read remote)) := by
  unfold merge Pex.merge
  cases View.validate (h.read remote) with
  | error fault => rfl
  | ok valid =>
    obtain ⟨h₁, s₁, first, joined⟩ := merged_yields (List.prefix_refl h) validRemote validLoc
    obtain ⟨h₂, s₂, second, _, others⟩ :=
      Yields.filter joined.grown joined.valid fun g => decide (self ≠ g.peerID)
    rw [joined.read] at others
    simp only [Except.ok_bind, first, second, others.len_eq]
    refine tail_refines others ?_
    intro _ kept
    have sorted := kept.update (d.sort_perm _).length_eq
    simp only [sorted.len_eq]
    refine tail_refines sorted ?_
    intro retained last
    generalize (min (min (min cfg.protect cfg.maxView) _) (max _ 0)).toNat = count
    have oldest := decay_yields cfg.decay d.float count last
    simp only [oldest.len_eq]
    refine head_refines sorted ?_
    intro _ front
    have reordered := front.update (d.shuffle_perm _).length_eq
    have apart := front.update_after (d.shuffle_perm _).length_eq oldest
      (by rw [(decay_array ..).1, Slice.tail_array, Slice.head_array])
      (by rw [(decay_array ..).2, Slice.tail_off, Slice.head_off, Slice.head_len, sorted.len_eq]; omega)
    refine head_refines reordered ?_
    intro _ young
    obtain ⟨h₃, t, third, result⟩ := merged_yields young.grown apart.valid young.valid
    rw [apart.read, young.read] at result
    simp only [third]
    exact ⟨_, rfl, result.update (by simp [View.incrHops])⟩

/-- A loaded view is put back into the array it was loaded to. -/
theorem mutexGetPushView_refines (cfg : GossipConfig) (d : Draws W) (view : View W) :
    Refines [] (mutexGetPushView cfg d view) (pushView cfg d view) := by
  unfold mutexGetPushView pushView
  obtain ⟨h, loc, allocated, _, loaded⟩ :=
    Yields.alloc (List.prefix_refl ([] : Heap (GossipRecord W))) (Nat.le_refl view.length)
  have sorted := loaded.update (d.sort_perm view).length_eq
  simp only [allocated]
  refine tail_refines sorted ?_
  intro _ oldest
  simp only [oldest.len_eq, sorted.len_eq]
  refine head_refines sorted ?_
  intro _ front
  have reordered := front.update (d.shuffle_perm _).length_eq
  have apart := front.update_after (d.shuffle_perm _).length_eq oldest
    (by rw [Slice.tail_array, Slice.head_array])
    (by rw [Slice.tail_off, Slice.head_off, Slice.head_len, sorted.len_eq, List.length_drop]; omega)
  rw [apart.read]
  obtain ⟨h', t, appended, result⟩ := reordered.append ((d.sort view).drop _)
  rw [appended]
  exact ⟨_, rfl, result⟩

/-- The push returns the buffer, and its record ends up in the loaded view. -/
theorem push_spec (cfg : GossipConfig) (own : GossipRecord W) {loc : Slice} (valid : h.Valid loc) :
    match push cfg own h loc with
    | .error fault => pushBuffer cfg own (h.read loc) = .error fault
    | .ok (h', buffer) => pushBuffer cfg own (h.read loc) = .ok (h'.read buffer) ∧ h'.Valid buffer ∧
        h'.Valid loc ∧ h'.read loc = (h.read loc).set (pushLimit cfg).toNat own := by
  unfold push pushBuffer head View.head
  cases nonNegative (pushLimit cfg) with
  | error fault => rfl
  | ok =>
    have front := Slice.valid_head valid (pushLimit cfg).toNat
    have buffer := Slice.read_append front [own]
    rw [Slice.read_head] at buffer
    exact ⟨congrArg Except.ok buffer.symm, Slice.append_valid front [own],
      Slice.valid_append front valid [own], Slice.read_append_head valid _ own⟩

theorem pull_refines (stream : List (Except String Gossip)) {remote : Slice}
    (yields : Yields base h remote xs) :
    Refines base (pull h remote stream) ((Pex.pull W stream).map fun received => xs ++ received) := by
  induction stream generalizing h remote xs with
  | nil => exact ⟨xs, by simp [Pex.pull, pure, Except.pure, Except.map], yields⟩
  | cons message rest ih =>
    unfold pull Pex.pull
    rw [List.mapM_cons]
    cases receive W message with
    | error fault => rfl
    | ok g =>
      obtain ⟨h', remote', appended, received⟩ := yields.append [g]
      have tail := ih received
      simp only [Except.ok_bind, appended]
      unfold Pex.pull at tail
      cases whole : rest.mapM (receive W) with
      | error fault =>
        rw [whole] at tail
        exact tail
      | ok received' =>
        rw [whole] at tail
        simp only [Except.map, List.append_assoc, List.singleton_append] at tail ⊢
        exact tail

end

/-- The rest of a round, once the push has left its record in the loaded view. -/
theorem exchanged (n : Node W) (input : RoundInput W) {h : Heap (GossipRecord W)} {loc : Slice}
    {view : View W} (valid : h.Valid loc)
    (overwritten : h.read loc = view.set (pushLimit n.cfg).toNat n.own) :
    (do
      let (h, remote) := h.alloc [] 0
      let (h, remote) ← pull h remote input.stream
      let (h, new) ← merge n.cfg n.self input.mergeDraws h loc remote
      return (h.read loc, h.read new) : Except Fault (View W × View W)) =
    (do
      let remote ← Pex.pull W input.stream
      let new ← Pex.merge n.cfg n.self input.mergeDraws (pushed n.cfg n.own view) remote
      return (pushed n.cfg n.own view, new)) := by
  have room : ([] : View W).length ≤ 0 := Nat.le_refl 0
  obtain ⟨h₁, s₁, allocated, _, empty⟩ := Yields.alloc (List.prefix_refl h) room
  have received := pull_refines input.stream empty
  have whole : ((Pex.pull W input.stream).map fun received => [] ++ received) = Pex.pull W input.stream := by
    cases Pex.pull W input.stream <;> rfl
  rw [whole] at received
  simp only [allocated]
  generalize pull h₁ s₁ input.stream = outcome at received ⊢
  cases outcome with
  | error fault =>
    have failed : Pex.pull W input.stream = .error fault := received
    rw [failed]
    rfl
  | ok result =>
    obtain ⟨h₂, remote⟩ := result
    obtain ⟨remoteView, equal, yields⟩ := received
    have grown : h <+: h₂ := yields.grown
    have refined := merge_refines n.cfg n.self input.mergeDraws (valid.mono grown) yields.valid
    rw [valid.read_mono grown, overwritten, yields.read] at refined
    simp only [Except.ok_bind, equal]
    generalize merge n.cfg n.self input.mergeDraws h₂ loc remote = outcome at refined ⊢
    cases outcome with
    | error fault =>
      have failed : Pex.merge n.cfg n.self input.mergeDraws (pushed n.cfg n.own view) remoteView = .error fault :=
        refined
      rw [failed]
      rfl
    | ok result =>
      obtain ⟨h₃, new⟩ := result
      obtain ⟨newView, merged, newYields⟩ := refined
      have kept : h₃.read loc = pushed n.cfg n.own view := by
        rw [(valid.mono grown).read_mono newYields.grown, valid.read_mono grown, overwritten]
        rfl
      rw [show Pex.merge n.cfg n.self input.mergeDraws (pushed n.cfg n.own view) remoteView = .ok newView from merged,
        Except.ok_bind, Except.ok_bind, kept, newYields.read]

/-- A round on slices is a round on views, but for the record that the push
leaves in the loaded view. -/
theorem roundViews_eq (n : Node W) (input : RoundInput W) (d : RootDatastore) :
    roundViews n input d = Pex.roundViews n input d := by
  unfold roundViews Pex.roundViews
  cases input.faults.attempt [.setDeadline] with
  | error fault => rfl
  | ok =>
    cases loadView W n.ns input.faults d with
    | error fault => rfl
    | ok view =>
      have prepared := mutexGetPushView_refines n.cfg input.loadDraws view
      simp only [Except.ok_bind]
      generalize mutexGetPushView n.cfg input.loadDraws view = outcome at prepared ⊢
      cases outcome with
      | error fault =>
        have failed : pushView n.cfg input.loadDraws view = .error fault := prepared
        rw [failed]
        rfl
      | ok result =>
        obtain ⟨h, loc⟩ := result
        obtain ⟨view', equal, yields⟩ := prepared
        have sent := push_spec n.cfg n.own yields.valid
        rw [yields.read] at sent
        simp only [Except.ok_bind, equal]
        generalize push n.cfg n.own h loc = outcome at sent ⊢
        cases outcome with
        | error fault =>
          have failed : pushBuffer n.cfg n.own view' = .error fault := sent
          rw [failed]
          rfl
        | ok result =>
          obtain ⟨h', buffer⟩ := result
          obtain ⟨equal', validBuffer, validLoc, overwritten⟩ := sent
          simp only [Except.ok_bind, equal', validBuffer.length_read]
          cases input.faults.attempt (sendOps buffer.len) with
          | error fault => rfl
          | ok => exact exchanged n input validLoc overwritten

end InPlace

end Casm.Pex
