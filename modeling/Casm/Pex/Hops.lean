import Casm.Pex.Rounds

namespace Casm.Pex

variable {W : Identities}

section Hops

variable {n : Node W}

/-- No record of a round that stores has the largest hop count there is. -/
def BelowWrap (s : System W) (e : Event W) : Prop :=
  ∀ i loc remote, e = .store i → s.rounds i = .exchanged loc remote →
    ∀ g ∈ loc ++ remote, g.hop.toNat < 2 ^ 64 - 1

/-- Nothing that is stored or loaded looks new. -/
structure Travelled (n : Node W) (s : System W) : Prop where
  inScope : Scoped W n.ns s.store
  stored : ∀ r : GossipRecord W, s.Stores n r → r.hop ≠ 0
  loaded : ∀ i loc, s.rounds i = .loaded loc → ∀ g ∈ loc, g.hop ≠ 0

theorem Fresh.travelled {s : System W} (fresh : Fresh n s) : Travelled n s := by
  have nothing (k : Key) (g : Gossip) (below : Below n.ns k) (found : s.store.lookup k = some g) : False := by
    have member := mem_entriesBelow.mpr ⟨below, found⟩
    rw [fresh.empty] at member
    cases member
  refine ⟨fun k g below found => (nothing k g below found).elim, ?_, ?_⟩
  · intro r stored
    exact (nothing _ _ (key_below n.ns r) stored).elim
  · intro i loc phase
    rw [fresh.idle i] at phase
    cases phase

theorem Travelled.loaded_setRound {s : System W} (inv : Travelled n s) {i : Nat} {phase : Phase W}
    (fine : ∀ loc, phase = .loaded loc → ∀ g ∈ loc, g.hop ≠ 0) (j : Nat) (loc : View W)
    (here : (s.setRound i phase).rounds j = .loaded loc) : ∀ g ∈ loc, g.hop ≠ 0 := by
  rcases System.setRound_cases here with same | old
  · exact fine loc same.symm
  · exact inv.loaded j loc old

theorem hop_ne_zero_of_mem_merge {loc remote new : View W} {draws : Draws W}
    (merged : merge n.cfg n.self draws loc remote = .ok new)
    (small : ∀ g ∈ loc ++ remote, g.hop.toNat < 2 ^ 64 - 1) {x : GossipRecord W} (member : x ∈ new) :
    x.hop ≠ 0 := by
  obtain ⟨y, source, _, equal⟩ := mem_merge merged member
  have bound := small y (List.mem_append.mpr (View.mem_of_merged source))
  intro zero
  rw [equal, GossipRecord.incrHop_hop] at zero
  have wrapped := congrArg UInt64.toNat zero
  rw [UInt64.toNat_add] at wrapped
  simp only [UInt64.toNat_one, UInt64.toNat_zero] at wrapped
  omega

theorem Travelled.step {s s' : System W} {e : Event W} (inv : Travelled n s) (allowed : BelowWrap s e)
    (step : Step n s e s') : Travelled n s' := by
  cases step with
  | @load i view loc draws idle loads pushes =>
    refine ⟨inv.inScope, inv.stored, inv.loaded_setRound ?_⟩
    intro loc' same g member
    cases same
    obtain ⟨v, persists⟩ := inv.inScope.persists
    rw [persists.loadView_eq] at loads
    cases loads
    exact inv.stored g (persists.mem_iff.mp ((pushView_perm pushes).mem_iff.mp member))
  | exchange => exact ⟨inv.inScope, inv.stored, inv.loaded_setRound nofun⟩
  | @store i loc remote new draws phase merged =>
    refine ⟨inv.inScope.store loc new, ?_, inv.loaded_setRound nofun⟩
    intro r stored
    rcases mem_or_stored_before stored with member | kept
    · exact hop_ne_zero_of_mem_merge merged (allowed i loc remote rfl phase) member
    · exact inv.stored r kept
  | abort => exact ⟨inv.inScope, inv.stored, inv.loaded_setRound nofun⟩

theorem pull_sent (buffer : View W) : pull W (buffer.map fun r => .ok r.message) = .ok buffer := by
  have read := mapM_readMessage buffer
  rw [List.mapM_map] at read
  rw [pull, List.mapM_map]
  exact read

/-- As long as no hop counter is at its end, every stored record has travelled,
and what a round is about to push is accepted by whoever receives it. -/
theorem push_always_valid {start s : System W} (fresh : Fresh n start) (reach : Reachable n BelowWrap start s) :
    (∀ r : GossipRecord W, s.Stores n r → r.hop ≠ 0) ∧
      ∀ i loc own, s.rounds i = .loaded loc → own.hop = 0 →
        (2 ≤ n.cfg.maxView → ∃ buffer, pushBuffer n.cfg own loc = .ok buffer) ∧
        ∀ buffer, pushBuffer n.cfg own loc = .ok buffer →
          pull W (buffer.map fun r => .ok r.message) = .ok buffer ∧ buffer.validate = .ok () := by
  have inv : Travelled n s := by
    induction reach with
    | start => exact fresh.travelled
    | next _ allowed step ih => exact ih.step allowed step
  refine ⟨inv.stored, fun i loc own phase new => ⟨fun big => ⟨_, pushBuffer_returns big own loc⟩, ?_⟩⟩
  intro buffer built
  have equal := pushBuffer_eq_ok built
  refine ⟨pull_sent buffer, View.validate_ok_iff.mpr ⟨_, own, equal, fun g member => ?_, new⟩⟩
  exact inv.loaded i loc phase g (List.mem_of_mem_take member)

end Hops

theorem push_always_valid_first :
    Reachable (plainNode 6) BelowWrap emptySystem firstStore ∧
      firstStore.Stores (plainNode 6) (peerTwo 1 2) ∧ (peerTwo 1 2).hop ≠ 0 := by
  have small : BelowWrap firstExchange (.store 0) := by
    intro i loc remote isStore phase
    cases isStore
    cases phase
    decide
  have reach := firstStore_reachable nofun nofun small
  exact ⟨reach, rfl, (push_always_valid (emptySystem_fresh 6) reach).1 _ rfl⟩

/-- A received record with the largest hop count is stored as if it were new.
What the node pushes next is rejected by everyone. -/
theorem push_rejected_after_wrap :
    ∃ s loc buffer, Reachable (plainNode 6) (fun _ _ => True) emptySystem s ∧
      s.Stores (plainNode 6) (peerTwo 1 0) ∧ s.rounds 1 = .loaded loc ∧
      pushBuffer (plainNode 6).cfg (plainNode 6).own loc = .ok buffer ∧ buffer.validate ≠ .ok () := by
  have merged : merge (plainNode 6).cfg (plainNode 6).self plainDraws []
      [peerTwo 1 18446744073709551615, peerThree 1 0] = .ok [peerThree 1 1, peerTwo 1 0] := rfl
  have origin : Reachable (plainNode 6) (fun _ _ => True) emptySystem emptySystem := .start
  obtain ⟨s, reach, stored, others⟩ := origin.round 0 rfl _ plainDraws plainDraws rfl rfl merged
  have persists : Persists (plainNode 6).ns s.store [peerTwo 1 0, peerThree 1 1] := by
    rw [stored]
    rfl
  have next := reach.next trivial
    (.load plainDraws ((others 1 (by decide)).trans rfl) (persists.loadView_eq noFaults) rfl)
  refine ⟨_, [peerTwo 1 0, peerThree 1 1], _, next, ?_, System.setRound_self _ 1 _, rfl, nofun⟩
  show s.store.lookup _ = _
  rw [stored]
  rfl

end Casm.Pex
