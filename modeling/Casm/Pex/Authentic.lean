import Casm.Pex.Rounds

namespace Casm.Pex

variable {W : Identities}

/-- `peer.AddrInfo`. -/
structure AddrInfo where
  id : PeerID
  addrs : List (List UInt8)
  deriving DecidableEq

variable (W) in
/-- `GetCachedPeers` returns no slice for an empty view. -/
def getCachedPeers (ns : Key) (faults : Faults) (draws : Draws W) (d : RootDatastore) :
    Except Fault (List AddrInfo) := do
  let view ← loadView W ns faults d
  if view.length = 0 then return []
  return (draws.shuffle view).map fun rec => ⟨rec.peerRecord.peerID, rec.peerRecord.addrs⟩

variable (W) in
/-- The record is the content of the envelope, which is signed under the key of the
record's own peer ID. -/
def SignedBy (envelope : List UInt8) (record : PeerRecord) : Prop :=
  ∃ pk, W.consumeTypedEnvelope envelope = .ok (record, pk) ∧ W.matchesPublicKey record.peerID pk = true

variable {n : Node W} {s s' : System W}

/-- What is stored in the namespace are records, and none of the node itself. -/
structure Foreign (n : Node W) (s : System W) : Prop where
  inScope : Scoped W n.ns s.store
  notSelf : ∀ r : GossipRecord W, s.Stores n r → r.peerID ≠ n.self

theorem Fresh.foreign (fresh : Fresh n s) : Foreign n s := by
  have nothing (k : Key) (g : Gossip) (below : Below n.ns k) (found : s.store.lookup k = some g) : False := by
    have member := mem_entriesBelow.mpr ⟨below, found⟩
    rw [fresh.empty] at member
    cases member
  refine ⟨fun k g below found => (nothing k g below found).elim, fun r stored => ?_⟩
  exact (nothing _ _ (key_below n.ns r) stored).elim

/-- Whatever a stream delivers, the merge leaves out the node's own record. -/
theorem Foreign.step {e : Event W} (foreign : Foreign n s) (step : Step n s e s') : Foreign n s' := by
  rcases step.store_cases with same | ⟨i, loc, remote, draws, new, _, _, merged, stored⟩
  · refine ⟨same ▸ foreign.inScope, fun r isStored => foreign.notSelf r ?_⟩
    rw [System.Stores, ← same]
    exact isStored
  · refine ⟨stored ▸ foreign.inScope.store loc new, fun r isStored => ?_⟩
    rw [System.Stores, stored] at isStored
    rcases mem_or_stored_before isStored with member | kept
    · obtain ⟨y, _, notSelf, isNext⟩ := mem_merge merged member
      rw [isNext, GossipRecord.incrHop_peerID]
      exact notSelf
    · exact foreign.notSelf r kept

theorem Foreign.persisted (foreign : Foreign n s) {k : Key} {g : Gossip} (below : Below n.ns k)
    (found : s.store.lookup k = some g) :
    ∃ record, SignedBy W g.envelope record ∧ record.peerID ≠ n.self ∧
      k = n.ns ++ GoPath.rooted (W.text record.peerID) := by
  obtain ⟨r, equal⟩ := foreign.inScope k g below found
  rw [entry, Prod.mk.injEq] at equal
  obtain ⟨isKey, isMessage⟩ := equal
  refine ⟨r.peerRecord, isMessage ▸ r.selfSigned, foreign.notSelf r ?_, isKey⟩
  rw [System.Stores, ← isKey, ← isMessage]
  exact found

theorem Foreign.loaded (foreign : Foreign n s) {faults : Faults} {view : View W}
    (loads : loadView W n.ns faults s.store = .ok view) {r : GossipRecord W} (member : r ∈ view) :
    s.Stores n r ∧ SignedBy W r.message.envelope r.peerRecord ∧ r.peerRecord.peerID ≠ n.self := by
  obtain ⟨v, persists⟩ := foreign.inScope.persists
  rw [persists.loadView_eq] at loads
  cases done : faults.attempt [.query, .rest] with
  | error fault =>
    rw [done] at loads
    cases loads
  | ok _ =>
    rw [done] at loads
    cases loads
    have stored : s.Stores n r := persists.mem_iff.mp member
    exact ⟨stored, r.selfSigned, foreign.notSelf r stored⟩

theorem mem_getCachedPeers {ns : Key} {faults : Faults} {draws : Draws W} {d : RootDatastore}
    {infos : List AddrInfo} (returns : getCachedPeers W ns faults draws d = .ok infos) {info : AddrInfo}
    (member : info ∈ infos) : ∃ view, loadView W ns faults d = .ok view ∧
      ∃ r ∈ view, info = ⟨r.peerRecord.peerID, r.peerRecord.addrs⟩ := by
  unfold getCachedPeers at returns
  obtain ⟨view, loads, result⟩ := Except.bind_eq_ok.mp returns
  refine ⟨view, loads, ?_⟩
  by_cases empty : view.length = 0
  · rw [if_pos empty] at result
    cases result
    cases member
  · rw [if_neg empty] at result
    cases result
    obtain ⟨r, shuffled, equal⟩ := List.mem_map.mp member
    exact ⟨r, draws.mem_shuffle.mp shuffled, equal.symm⟩

/-- Whatever streams the rounds read, and however they interleave and fail: every
message that is stored, every record that is loaded and every address that is handed
out comes from an envelope signed by the peer itself, and never from the node. -/
theorem cached_records_authentic {start : System W} (fresh : Fresh n start)
    (reach : Reachable n (fun _ _ => True) start s) :
    (∀ k g, Below n.ns k → s.store.lookup k = some g →
      ∃ record, SignedBy W g.envelope record ∧ record.peerID ≠ n.self ∧
        k = n.ns ++ GoPath.rooted (W.text record.peerID)) ∧
    (∀ faults view, loadView W n.ns faults s.store = .ok view → ∀ r ∈ view,
      s.Stores n r ∧ SignedBy W r.message.envelope r.peerRecord ∧ r.peerRecord.peerID ≠ n.self) ∧
    (∀ faults draws infos, getCachedPeers W n.ns faults draws s.store = .ok infos → ∀ info ∈ infos,
      ∃ envelope record, SignedBy W envelope record ∧ info = ⟨record.peerID, record.addrs⟩ ∧
        record.peerID ≠ n.self) := by
  have foreign : Foreign n s := by
    induction reach with
    | start => exact fresh.foreign
    | next _ _ step ih => exact ih.step step
  refine ⟨fun k g below found => foreign.persisted below found,
    fun faults view loads r member => foreign.loaded loads member, ?_⟩
  intro faults draws infos returns info member
  obtain ⟨view, loads, r, inView, isInfo⟩ := mem_getCachedPeers returns member
  obtain ⟨_, signed, notSelf⟩ := foreign.loaded loads inView
  exact ⟨r.message.envelope, r.peerRecord, signed, isInfo, notSelf⟩

/-- After a first round with two peers both are handed out. -/
theorem cached_records_authentic_first :
    Reachable (plainNode 6) (fun _ _ => True) emptySystem firstStore ∧
      getCachedPeers plainIdentities (plainNode 6).ns noFaults plainDraws firstStore.store =
        .ok [⟨[2], []⟩, ⟨[3], []⟩] ∧
      ∀ info ∈ ([⟨[2], []⟩, ⟨[3], []⟩] : List AddrInfo),
        ∃ envelope record, SignedBy plainIdentities envelope record ∧ info = ⟨record.peerID, record.addrs⟩ ∧
          record.peerID ≠ (plainNode 6).self := by
  have persists : Persists (plainNode 6).ns firstStore.store [peerTwo 1 2, peerThree 1 1] := rfl
  have returns : getCachedPeers plainIdentities (plainNode 6).ns noFaults plainDraws firstStore.store =
      .ok [⟨[2], []⟩, ⟨[3], []⟩] := by
    rw [getCachedPeers, persists.loadView_eq]
    rfl
  have reach : Reachable (plainNode 6) (fun _ _ => True) emptySystem firstStore :=
    firstStore_reachable trivial trivial trivial
  exact ⟨reach, returns,
    (cached_records_authentic (emptySystem_fresh 6) reach).2.2 noFaults plainDraws _ returns⟩

end Casm.Pex
