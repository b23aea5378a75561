import Casm.Pex.Rounds

namespace Casm.Pex

variable {W : Identities}

section Freshness

variable {n : Node W}

/-- A round that stores has no copy of a stored peer that is older than the
stored one, except for received copies that are no younger than its own: those
are not kept next to it. -/
def Newest (n : Node W) (s : System W) (e : Event W) : Prop :=
  ∀ i loc remote, e = .store i → s.rounds i = .exchanged loc remote → ∀ r, s.Stores n r →
    (∀ l ∈ loc, l.peerID = r.peerID → r.seq ≤ l.seq) ∧
    ∀ q ∈ remote, q.peerID = r.peerID → q.seq < r.seq →
      ∃ l, loc.find q.peerID = some l ∧ l.hop ≤ q.hop

/-- Steps during which a record of the peer stays stored. -/
inductive RunWhileStored (n : Node W) (allowed : System W → Event W → Prop) (p : PeerID) (start : System W) :
    System W → Prop
  | start : RunWhileStored n allowed p start start
  | next {s s' e} : RunWhileStored n allowed p start s → allowed s e → Step n s e s' →
      (∃ r, r.peerID = p ∧ s'.Stores n r) → RunWhileStored n allowed p start s'

/-- No copy of the peer that is older than the stored record survives the merge. -/
theorem seq_le_of_mem_merge {loc remote new : View W} {draws : Draws W}
    (merged : merge n.cfg n.self draws loc remote = .ok new) {r x : GossipRecord W}
    (own : ∀ l ∈ loc, l.peerID = r.peerID → r.seq ≤ l.seq)
    (received : ∀ q ∈ remote, q.peerID = r.peerID → q.seq < r.seq →
      ∃ l, loc.find q.peerID = some l ∧ l.hop ≤ q.hop)
    (member : x ∈ new) (samePeer : x.peerID = r.peerID) : r.seq ≤ x.seq := by
  obtain ⟨y, source, _, equal⟩ := mem_merge merged member
  rw [equal] at samePeer ⊢
  rcases View.mem_merged.mp source with ⟨fromLoc, _⟩ | ⟨fromRemote, kept⟩
  · exact own y fromLoc samePeer
  · by_contra older
    obtain ⟨l, found, young⟩ := received y fromRemote samePeer (UInt64.not_le.mp older)
    obtain ⟨inLoc, peer⟩ := View.find_some found
    have newer := own l inLoc (peer.trans samePeer)
    rcases View.keeps_false_iff.mp kept l found with later | younger
    · exact older (UInt64.le_trans newer (UInt64.le_of_lt later))
    · exact UInt64.not_lt.mpr young younger

theorem Step.seq_le {s s' : System W} {e : Event W} (step : Step n s e s') (newest : Newest n s e)
    {r r' : GossipRecord W} (before : s.Stores n r) (after : s'.Stores n r')
    (samePeer : r'.peerID = r.peerID) : r.seq ≤ r'.seq := by
  have sameKey : n.ns ++ r'.key = n.ns ++ r.key := key_inj_below.mpr samePeer
  have unchanged (kept : s.store.lookup (n.ns ++ r'.key) = some r'.message) : r.seq ≤ r'.seq := by
    rw [sameKey, before, Option.some.injEq] at kept
    rw [GossipRecord.message_injective kept]
    exact UInt64.le_refl _
  unfold System.Stores at after
  rcases step.store_cases with same | ⟨i, loc, remote, draws, new, isStore, phase, merged, stored⟩
  · rw [same] at after
    exact unchanged after
  · obtain ⟨own, received⟩ := newest i loc remote isStore phase r before
    rw [stored] at after
    rcases mem_or_stored_before after with member | kept
    · exact seq_le_of_mem_merge merged own received member samePeer
    · exact unchanged kept

theorem RunWhileStored.stored {allowed : System W → Event W → Prop} {p : PeerID} {start s : System W}
    (run : RunWhileStored n allowed p start s) (first : ∃ r, r.peerID = p ∧ start.Stores n r) :
    ∃ r, r.peerID = p ∧ s.Stores n r := by
  cases run with
  | start => exact first
  | next _ _ _ still => exact still

/-- While a peer stays stored and every round that stores has the newest records,
the sequence number stored for the peer never decreases. -/
theorem seq_never_regresses {p : PeerID} {start s : System W} {r r' : GossipRecord W}
    (run : RunWhileStored n (Newest n) p start s) (first : start.Stores n r) (peer : r.peerID = p)
    (last : s.Stores n r') (peer' : r'.peerID = p) : r.seq ≤ r'.seq := by
  induction run generalizing r' with
  | start =>
    have sameKey : n.ns ++ r'.key = n.ns ++ r.key := key_inj_below.mpr (peer'.trans peer.symm)
    unfold System.Stores at first last
    rw [sameKey, first, Option.some.injEq] at last
    rw [GossipRecord.message_injective last]
    exact UInt64.le_refl _
  | next run newest step _ ih =>
    obtain ⟨between, samePeer, stored⟩ := run.stored ⟨r, peer, first⟩
    exact UInt64.le_trans (ih stored samePeer) (step.seq_le newest stored last (peer'.trans samePeer.symm))

end Freshness

/-- A datastore with one peer, and every round idle. -/
def onePeerSystem : System plainIdentities where
  store := onePeer
  rounds _ := .idle

theorem seq_never_regresses_refresh :
    ∃ s, RunWhileStored (plainNode 6) (Newest (plainNode 6)) [2] onePeerSystem s ∧
      s.Stores (plainNode 6) (peerTwo 9 1) ∧ storedPeer.seq ≤ (peerTwo 9 1).seq := by
  have kept : ∃ r : GossipRecord plainIdentities, r.peerID = [2] ∧ onePeerSystem.Stores (plainNode 6) r :=
    ⟨storedPeer, rfl, rfl⟩
  have loads : RunWhileStored (plainNode 6) (Newest (plainNode 6)) [2] onePeerSystem
      (onePeerSystem.setRound 0 (.loaded [storedPeer])) :=
    .next .start (by nofun) (.load plainDraws rfl ((onePeer_persists 6).loadView_eq noFaults) rfl) kept
  have exchanges : RunWhileStored (plainNode 6) (Newest (plainNode 6)) [2] onePeerSystem
      ((onePeerSystem.setRound 0 (.loaded [storedPeer])).setRound 0
        (.exchanged [storedPeer] [peerTwo 9 0])) :=
    .next loads (by nofun)
      (.exchange (System.setRound_self _ 0 _) rfl (plainNode 6).own_new) kept
  have newest : Newest (plainNode 6) ((onePeerSystem.setRound 0 (.loaded [storedPeer])).setRound 0
      (.exchanged [storedPeer] [peerTwo 9 0])) (.store 0) := by
    intro i loc remote isStore phase r stored
    cases isStore
    cases phase
    have same := List.mem_singleton.mp ((onePeer_persists 6).mem_iff.mpr stored)
    subst same
    decide
  have merged : merge (plainNode 6).cfg (plainNode 6).self plainDraws [storedPeer] [peerTwo 9 0] =
      .ok [peerTwo 9 1] := rfl
  have stores := exchanges.next newest (.store plainDraws (System.setRound_self _ 0 _) merged)
    ⟨peerTwo 9 1, rfl, rfl⟩
  exact ⟨_, stores, rfl, seq_never_regresses stores rfl rfl rfl rfl⟩

/-- The same draws, with every shuffle a reversal. -/
def reversingDraws : Draws plainIdentities :=
  { plainDraws with shuffle := List.reverse, shuffle_perm := List.reverse_perm }

/-- A peer is stored with sequence number five. A record of the peer with number
two and a smaller hop counter is then kept next to it, and stored last. -/
theorem seq_regresses :
    ∃ s s', Reachable (plainNode 6) (fun _ _ => True) emptySystem s ∧ s.Stores (plainNode 6) (peerTwo 5 1) ∧
      RunWhileStored (plainNode 6) (fun _ _ => True) [2] s s' ∧ s'.Stores (plainNode 6) (peerTwo 2 1) := by
  have merged : merge (plainNode 6).cfg (plainNode 6).self plainDraws [] [peerTwo 5 0] = .ok [peerTwo 5 1] := rfl
  have merged' : merge (plainNode 6).cfg (plainNode 6).self reversingDraws [peerTwo 5 1] [peerTwo 2 0] =
      .ok [peerTwo 5 2, peerTwo 2 1] := rfl
  have origin : Reachable (plainNode 6) (fun _ _ => True) emptySystem emptySystem := .start
  obtain ⟨s, reach, stored, others⟩ := origin.round 0 rfl [peerTwo 5 0] plainDraws plainDraws rfl rfl merged
  have first : s.Stores (plainNode 6) (peerTwo 5 1) := by
    unfold System.Stores
    rw [stored]
    rfl
  have persists : Persists (plainNode 6).ns s.store [peerTwo 5 1] := by
    rw [stored]
    rfl
  have loads : RunWhileStored (plainNode 6) (fun _ _ => True) [2] s (s.setRound 1 (.loaded [peerTwo 5 1])) :=
    .next .start trivial
      (.load plainDraws ((others 1 (by decide)).trans rfl) (persists.loadView_eq noFaults) rfl) ⟨_, rfl, first⟩
  have exchanges := loads.next trivial (Step.exchange (System.setRound_self _ 1 _) rfl (plainNode 6).own_new :
    Step (plainNode 6) _ (.exchange 1 (plainNode 6).own [peerTwo 2 0]) _) ⟨_, rfl, first⟩
  have last : (s.store.commit (storeBatch (plainNode 6).ns [peerTwo 5 1] [peerTwo 5 2, peerTwo 2 1])).lookup
      ((plainNode 6).ns ++ (peerTwo 2 1).key) = some (peerTwo 2 1).message := by
    rw [stored]
    rfl
  have stores := exchanges.next trivial (.store reversingDraws (System.setRound_self _ 1 _) merged')
    ⟨peerTwo 2 1, rfl, last⟩
  exact ⟨s, _, reach, first, stores, last⟩

end Casm.Pex
