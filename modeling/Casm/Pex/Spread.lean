import Casm.Lib.Epidemic
import Casm.Pex.Network

namespace Casm.Pex

variable {W : Identities}

def View.peers (v : View W) : Finset PeerID :=
  (v.map GossipRecord.peerID).toFinset

namespace View

theorem mem_peers {v : View W} {p : PeerID} : p ∈ v.peers ↔ p ∈ v.map GossipRecord.peerID :=
  List.mem_toFinset

theorem mem_peers_iff {v : View W} {p : PeerID} : p ∈ v.peers ↔ ∃ r ∈ v, r.peerID = p :=
  mem_peers.trans List.mem_map

theorem Distinct.length_le {v : View W} (distinct : v.Distinct) {members : Finset PeerID} (subset : v.peers ⊆ members) :
    v.length ≤ members.card := by
  have count := Finset.card_le_card subset
  rw [peers, List.toFinset_card_of_nodup distinct, List.length_map] at count
  exact count

end View

/-- A merge that has room for both views keeps every peer but the node itself. -/
theorem peers_merge {cfg : GossipConfig} (nonneg : cfg.NonNegative) {self : PeerID} {d : Draws W}
    {loc remote new : View W} (merged : merge cfg self d loc remote = .ok new)
    (room : (loc.length + remote.length : Int) ≤ cfg.maxView) : new.peers = (loc.peers ∪ remote.peers).erase self := by
  have valid := (merge_eq_ok merged).1
  rw [merge_eq nonneg rfl valid, Except.ok.injEq] at merged
  have few : ((candidates self loc remote).length : Int) ≤ cfg.maxView := by
    have filtered : (candidates self loc remote).length ≤ (View.merged remote loc).length := List.length_filter_le ..
    have joined := View.length_merged_le remote loc
    omega
  have parts := parts_perm nonneg d few
  ext p
  have same : p ∈ new.peers ↔ p ∈ (candidates self loc remote).map GossipRecord.peerID := by
    rw [← merged, View.mem_peers, View.incrHops, List.map_map]
    show p ∈ List.map GossipRecord.peerID _ ↔ _
    rw [View.mem_peers_merged, ← List.mem_append, ← List.map_append]
    exact (parts.map _).mem_iff
  rw [same, Finset.mem_erase, Finset.mem_union, View.mem_peers, View.mem_peers, ← View.mem_peers_merged]
  simp only [List.mem_map, candidates, View.mem_isNot]
  constructor
  · rintro ⟨r, ⟨member, notSelf⟩, rfl⟩
    exact ⟨notSelf, r, member, rfl⟩
  · rintro ⟨notSelf, r, member, rfl⟩
    exact ⟨r, ⟨member, notSelf⟩, rfl⟩

namespace Network

/-- The node stores a record of the peer. -/
def Knows (n : Node W) (sys : System W) (p : PeerID) : Prop :=
  ∃ r : GossipRecord W, r.peerID = p ∧ sys.Stores n r

section Knowledge

variable {n : Node W} {sys sys' : System W} {loc new : View W} {p : PeerID}

theorem stored_eq_none_of_notMem {r : GossipRecord W} (absent : r.peerID ∉ new.peers) :
    new.stored n.ns (n.ns ++ r.key) = none := by
  rw [stored_eq_none_iff]
  intro r' member sameKey
  exact absent (View.mem_peers_iff.mpr ⟨r', member, key_inj_below.mp sameKey⟩)

/-- After a store the node knows the peers of the new view, and those that the round has
not loaded. -/
theorem knows_store (stores : sys'.store = sys.store.commit (storeBatch n.ns loc new)) :
    Knows n sys' p ↔ p ∈ new.peers ∨ p ∉ loc.peers ∧ Knows n sys p := by
  by_cases isNew : p ∈ new.peers
  · refine iff_of_true ?_ (.inl isNew)
    obtain ⟨r, member, isPeer⟩ := View.mem_peers_iff.mp isNew
    obtain ⟨g, found⟩ : ∃ g, new.stored n.ns (n.ns ++ r.key) = some g := by
      rw [← Option.ne_none_iff_exists', Ne, stored_eq_none_iff]
      exact fun absent => absent r member rfl
    obtain ⟨r', _, isEntry⟩ := mem_of_stored found
    obtain ⟨sameKey, sameMessage⟩ := Prod.mk.inj isEntry
    refine ⟨r', (key_inj_below.mp sameKey).symm.trans isPeer, ?_⟩
    rw [System.Stores, stores, lookup_store, ← sameKey, found, Option.some_or, sameMessage]
  · rw [or_iff_right isNew]
    have unchanged {r : GossipRecord W} (isPeer : r.peerID = p) :
        sys'.Stores n r ↔ p ∉ loc.peers ∧ sys.Stores n r := by
      have absent := stored_eq_none_of_notMem (n := n) (isPeer.symm ▸ isNew)
      have inLoc : n.ns ++ r.key ∈ loc.map (fun g => n.ns ++ g.key) ↔ p ∈ loc.peers := by
        simp only [List.mem_map, key_inj_below, View.mem_peers_iff, isPeer]
      rw [System.Stores, stores, lookup_store_of_not_mem absent, ite_eq_iff, inLoc]
      simp [System.Stores]
    constructor
    · rintro ⟨r, isPeer, stored⟩
      obtain ⟨notLoaded, kept⟩ := (unchanged isPeer).mp stored
      exact ⟨notLoaded, r, isPeer, kept⟩
    · rintro ⟨notLoaded, r, isPeer, kept⟩
      exact ⟨r, isPeer, (unchanged isPeer).mpr ⟨notLoaded, kept⟩⟩

theorem mem_peers_iff_knows {view : View W} (persists : Persists n.ns sys.store view) :
    p ∈ view.peers ↔ Knows n sys p := by
  rw [View.mem_peers_iff]
  constructor
  · rintro ⟨r, member, isPeer⟩
    exact ⟨r, isPeer, persists.mem_iff.mp member⟩
  · rintro ⟨r, isPeer, stored⟩
    exact ⟨r, persists.mem_iff.mpr stored, isPeer⟩

end Knowledge

/-- A network that is small for the views of its nodes: a node pushes all that it knows,
and two such views fit into one. -/
structure Roomy (nodes : Nat → Node W) (members : Finset PeerID) : Prop where
  self : ∀ v, (nodes v).self ∈ members
  nonNegative : ∀ v, (nodes v).cfg.NonNegative
  maxView : ∀ v, (2 * members.card : Int) ≤ (nodes v).cfg.maxView

section Simulation

/-- What a round of a node in a small network has in hand. -/
def HasInHand (members known hand got : Finset PeerID) : Phase W → Prop
  | .idle => hand = ∅ ∧ got = ∅
  | .loaded loc => loc.Distinct ∧ loc.peers = hand ∧ hand ⊆ known ∧ got = ∅
  | .exchanged loc remote =>
    loc.Distinct ∧ loc.peers ⊆ known ∧ remote.Distinct ∧ remote.peers = got ∧ got ⊆ members
  | .finished => True

/-- What is on the stream of a round. -/
def IsSent (members sent : Finset PeerID) : Option (GossipRecord W × View W) → Prop
  | none => sent = ∅
  | some (_, buffer) => buffer.Distinct ∧ buffer.peers = sent ∧ sent ⊆ members

/-- The node has what the node of the abstract network has. -/
structure Mirrors (members : Finset PeerID) (n : Node W) (sys : System W) (own : GossipRecord W)
    (wire : Nat → Option (GossipRecord W × View W)) (a : Spreader PeerID) : Prop where
  inScope : Scoped W n.ns sys.store
  known : ∀ p, Knows n sys p ↔ p ∈ a.known
  subset : a.known ⊆ members.erase n.self
  own : own.peerID = n.self
  rounds : ∀ i, HasInHand members a.known (a.hand i) (a.got i) (sys.rounds i)
  wires : ∀ i, IsSent members (a.sent i) (wire i)

variable {members : Finset PeerID} {n : Node W} {sys sys' : System W} {own : GossipRecord W}
  {wire : Nat → Option (GossipRecord W × View W)} {a : Spreader PeerID} {i : Nat}

theorem HasInHand.mono {known known' hand got : Finset PeerID} {phase : Phase W} (subset : known ⊆ known')
    (has : HasInHand members known hand got phase) : HasInHand members known' hand got phase := by
  cases phase with
  | idle => exact has
  | loaded loc =>
    obtain ⟨distinct, isHand, isKnown, nothing⟩ := has
    exact ⟨distinct, isHand, isKnown.trans subset, nothing⟩
  | exchanged loc remote =>
    obtain ⟨distinct, isKnown, rest⟩ := has
    exact ⟨distinct, isKnown.trans subset, rest⟩
  | finished => trivial

theorem setRound_of_ne {j : Nat} (other : j ≠ i) (phase : Phase W) : (sys.setRound i phase).rounds j = sys.rounds j :=
  Function.update_of_ne other ..

theorem hasInHand_finished {known : Finset PeerID} {hand got : Nat → Finset PeerID}
    (rounds : ∀ j, HasInHand members known (hand j) (got j) (sys.rounds j)) (j : Nat) :
    HasInHand members known (hand j) (got j) ((sys.setRound i .finished).rounds j) := by
  by_cases same : j = i
  · subst same
    rw [System.setRound_self]
    trivial
  · rw [setRound_of_ne same]
    exact rounds j

theorem Mirrors.fresh (fresh : Fresh n sys) (isOwn : own.peerID = n.self) (unsent : ∀ i, wire i = none) :
    Mirrors members n sys own wire .empty where
  inScope := fresh.foreign.inScope
  known p := by
    refine iff_of_false (fun knows => ?_) (Finset.notMem_empty p)
    obtain ⟨r, _, stored⟩ := knows
    exact (Contains.fresh (Q := fun _ => False) fresh).stored r stored
  subset := Finset.empty_subset _
  own := isOwn
  rounds i := by
    rw [fresh.idle i]
    exact ⟨rfl, rfl⟩
  wires i := by
    rw [unsent i]
    exact rfl

/-- A view of known peers is short enough to be pushed as a whole. -/
theorem Mirrors.pushes_all (mirrors : Mirrors members n sys own wire a) (inside : n.self ∈ members)
    (room : (2 * members.card : Int) ≤ n.cfg.maxView) {loc : View W} (distinct : loc.Distinct)
    (known : loc.peers ⊆ a.known) : loc.length < members.card ∧ loc.length ≤ (pushLimit n.cfg).toNat := by
  have count := distinct.length_le (known.trans mirrors.subset)
  rw [Finset.card_erase_of_mem inside] at count
  have positive := Finset.card_pos.mpr ⟨_, inside⟩
  refine ⟨by omega, ?_⟩
  rw [pushLimit, Int.tdiv_eq_ediv_of_nonneg (by omega)]
  omega

theorem Mirrors.load (mirrors : Mirrors members n sys own wire a) (step : Pex.Step n sys (.load i) sys') :
    Mirrors members n sys' own wire (a.load i) := by
  cases step with
  | @load _ view loc draws idle loads pushes =>
    have persists := persists_of_loadView mirrors.inScope loads
    have perm := pushView_perm pushes
    have peers : loc.peers = a.known := by
      ext p
      rw [← mirrors.known, ← mem_peers_iff_knows persists, View.mem_peers, View.mem_peers]
      exact (perm.map _).mem_iff
    refine ⟨mirrors.inScope, mirrors.known, mirrors.subset, mirrors.own, fun j => ?_, mirrors.wires⟩
    have before := mirrors.rounds j
    by_cases same : j = i
    · subst same
      rw [idle] at before
      obtain ⟨noHand, noGot⟩ := before
      rw [System.setRound_self]
      refine ⟨persists.loaded_nodup perm, ?_, ?_, noGot⟩
      · simp [Spreader.load, noHand, peers]
      · simp [Spreader.load, noHand]
    · simp only [Spreader.load, Spreader.grow_of_ne same, setRound_of_ne same]
      exact before

theorem Mirrors.push (mirrors : Mirrors members n sys own wire a) (inside : n.self ∈ members)
    (room : (2 * members.card : Int) ≤ n.cfg.maxView) {loc buffer : View W} (isPhase : sys.rounds i = .loaded loc)
    (unsent : wire i = none) (built : pushBuffer n.cfg own loc = .ok buffer) :
    Mirrors members n sys own (Function.update wire i (some (own, buffer))) (a.push n.self i) := by
  refine ⟨mirrors.inScope, mirrors.known, mirrors.subset, mirrors.own, mirrors.rounds, fun j => ?_⟩
  have before := mirrors.wires j
  by_cases same : j = i
  · subst same
    have has := mirrors.rounds j
    rw [isPhase] at has
    obtain ⟨distinct, isHand, isKnown, _⟩ := has
    have short := (mirrors.pushes_all inside room distinct (isHand ▸ isKnown)).2
    have isBuffer := pushBuffer_eq_ok built
    rw [List.take_of_length_le short] at isBuffer
    have foreign : n.self ∉ loc.peers := by
      rw [isHand]
      exact fun member => Finset.notMem_erase _ _ (mirrors.subset (isKnown member))
    rw [unsent] at before
    have peers : buffer.peers = insert n.self loc.peers := by
      ext p
      simp only [isBuffer, View.peers, List.map_append, List.map_singleton, List.mem_toFinset, List.mem_append,
        List.mem_singleton, Finset.mem_insert, mirrors.own]
      exact or_comm
    have sent : (a.push n.self j).sent j = insert n.self (a.hand j) := by
      simp [Spreader.push, show a.sent j = ∅ from before]
    rw [Function.update_self, sent]
    refine ⟨?_, by rw [peers, isHand], ?_⟩
    · rw [isBuffer, View.Distinct, List.map_append, List.map_singleton, mirrors.own]
      refine List.nodup_append'.mpr ⟨distinct, List.nodup_singleton _, ?_⟩
      exact List.disjoint_singleton.mpr fun member => foreign (View.mem_peers.mpr member)
    · refine Finset.insert_subset inside ((isKnown.trans mirrors.subset).trans (Finset.erase_subset _ _))
  · simp only [Spreader.push, Spreader.grow_of_ne same, Function.update_of_ne same]
    exact before

theorem Mirrors.pull (mirrors : Mirrors members n sys own wire a) (inside : n.self ∈ members)
    (room : (2 * members.card : Int) ≤ n.cfg.maxView) {pushedOwn other : GossipRecord W} {buffer : View W}
    {received : Finset PeerID} (isSent : IsSent members received (some (other, buffer)))
    (step : Pex.Step n sys (.exchange i pushedOwn buffer) sys') :
    Mirrors members n sys' own wire (a.pull i received) := by
  obtain ⟨distinctRemote, isRemote, within⟩ := isSent
  cases step with
  | @exchange _ loc _ _ isPhase _ _ =>
    refine ⟨mirrors.inScope, mirrors.known, mirrors.subset, mirrors.own, fun j => ?_, mirrors.wires⟩
    have before := mirrors.rounds j
    by_cases same : j = i
    · subst same
      rw [isPhase] at before
      obtain ⟨distinct, isHand, isKnown, noGot⟩ := before
      have short := (mirrors.pushes_all inside room distinct (isHand ▸ isKnown)).2
      have got : (a.pull j received).got j = received := by simp [Spreader.pull, noGot]
      rw [System.setRound_self, got, pushed, List.set_eq_of_length_le short]
      exact ⟨distinct, isHand ▸ isKnown, distinctRemote, isRemote, within⟩
    · simp only [Spreader.pull, Spreader.grow_of_ne same, setRound_of_ne same]
      exact before

theorem Mirrors.store (mirrors : Mirrors members n sys own wire a) (inside : n.self ∈ members)
    (nonneg : n.cfg.NonNegative) (room : (2 * members.card : Int) ≤ n.cfg.maxView)
    (step : Pex.Step n sys (.store i) sys') : Mirrors members n sys' own wire (a.store n.self i) := by
  cases step with
  | @store _ loc remote new draws isPhase merged =>
    have has := mirrors.rounds i
    rw [isPhase] at has
    obtain ⟨distinct, isKnown, distinctRemote, isRemote, within⟩ := has
    have peers : new.peers = (loc.peers ∪ a.got i).erase n.self := by
      have few := (mirrors.pushes_all inside room distinct isKnown).1
      have fewRemote := distinctRemote.length_le (isRemote ▸ within)
      rw [← isRemote]
      exact peers_merge nonneg merged (by omega)
    have notSelf {p : PeerID} (member : p ∈ a.known) : p ≠ n.self := (Finset.mem_erase.mp (mirrors.subset member)).1
    refine ⟨mirrors.inScope.store loc new, fun p => ?_, ?_, mirrors.own, fun j => ?_, mirrors.wires⟩
    · rw [knows_store rfl, mirrors.known, peers, Spreader.store]
      simp only [Finset.mem_erase, Finset.mem_union]
      constructor
      · rintro (⟨other, inLoc | inGot⟩ | ⟨_, old⟩)
        · exact .inl (isKnown inLoc)
        · exact .inr ⟨other, inGot⟩
        · exact .inl old
      · rintro (old | ⟨other, inGot⟩)
        · by_cases inLoc : p ∈ loc.peers
          · exact .inl ⟨notSelf old, .inl inLoc⟩
          · exact .inr ⟨inLoc, old⟩
        · exact .inl ⟨other, .inr inGot⟩
    · exact Finset.union_subset mirrors.subset (Finset.erase_subset_erase _ within)
    · exact hasInHand_finished (fun j => (mirrors.rounds j).mono Finset.subset_union_left) j

theorem Mirrors.abort (mirrors : Mirrors members n sys own wire a) (step : Pex.Step n sys (.abort i) sys') :
    Mirrors members n sys' own wire a := by
  cases step with
  | abort =>
    exact ⟨mirrors.inScope, mirrors.known, mirrors.subset, mirrors.own, hasInHand_finished mirrors.rounds, mirrors.wires⟩

end Simulation

section Spreading

/-- What the event does in the abstract network. -/
def Event.spreads : Event W → Option Epidemic.Event
  | .load v i => some (.load v i)
  | .push v i => some (.push v i)
  | .pull v i u j => some (.pull v i u j)
  | .store v i => some (.store v i)
  | _ => none

/-- No intruder takes part. -/
def Honest (events : List (Event W)) : Prop :=
  ∀ v i remote, .intrude v i remote ∉ events

variable (nodes : Nat → Node W) in
/-- What the events spread, in the abstract network. -/
def spread (a : Epidemic PeerID) (events : List (Event W)) : Epidemic PeerID :=
  Epidemic.run (fun v => (nodes v).self) a (events.filterMap Event.spreads)

def Simulated (members : Finset PeerID) (nodes : Nat → Node W) (s : Net W) (a : Epidemic PeerID) : Prop :=
  ∀ v, Mirrors members (nodes v) (s.sys v) (s.own v) (s.wire v) (a v)

variable {members : Finset PeerID} {nodes : Nat → Node W} {start s s' : Net W} {a : Epidemic PeerID}
  {events : List (Event W)}

theorem Simulated.update (simulated : Simulated members nodes s a) {v : Nat} {a' : Spreader PeerID}
    (changed : ∀ u, u ≠ v → s'.sys u = s.sys u ∧ s'.own u = s.own u ∧ s'.wire u = s.wire u)
    (mirrors : Mirrors members (nodes v) (s'.sys v) (s'.own v) (s'.wire v) a') :
    Simulated members nodes s' (Function.update a v a') := by
  intro u
  by_cases same : u = v
  · subst same
    rw [Function.update_self]
    exact mirrors
  · obtain ⟨sameSys, sameOwn, sameWire⟩ := changed u same
    rw [Function.update_of_ne same, sameSys, sameOwn, sameWire]
    exact simulated u

theorem Simulated.setSys (simulated : Simulated members nodes s a) {v : Nat} {sys : System W} {a' : Spreader PeerID}
    (mirrors : Mirrors members (nodes v) sys (s.own v) (s.wire v) a') :
    Simulated members nodes (s.setSys v sys) (Function.update a v a') := by
  refine simulated.update (fun u other => ⟨Function.update_of_ne other .., rfl, rfl⟩) ?_
  have changed : (s.setSys v sys).sys v = sys := Function.update_self ..
  rw [changed]
  exact mirrors

theorem spread_singleton (e : Event W) : spread nodes a [e] =
    match e.spreads with
    | some e => Epidemic.step (fun v => (nodes v).self) a e
    | none => a := by
  unfold spread
  cases found : e.spreads with
  | none => simp [found, Epidemic.run]
  | some e => simp [found, Epidemic.run]

theorem Simulated.step {e : Event W} (roomy : Roomy nodes members) (simulated : Simulated members nodes s a)
    (honest : ∀ v i remote, e ≠ .intrude v i remote) (step : Step nodes s e s') :
    Simulated members nodes s' (spread nodes a [e]) := by
  rw [spread_singleton]
  cases step with
  | @announce v own isOwn _ =>
    have mirrors := simulated v
    have announced : Simulated members nodes { s with own := Function.update s.own v own }
        (Function.update a v (a v)) := by
      refine simulated.update (fun u other => ⟨rfl, Function.update_of_ne other .., rfl⟩) ?_
      exact ⟨mirrors.inScope, mirrors.known, mirrors.subset, by simpa using isOwn, mirrors.rounds, mirrors.wires⟩
    rwa [Function.update_eq_self] at announced
  | @load v i sys step => exact simulated.setSys ((simulated v).load step)
  | @push v i loc buffer isPhase unsent built =>
    refine simulated.update (fun u other => ⟨rfl, rfl, Function.update_of_ne other ..⟩) ?_
    have pushed := (simulated v).push (roomy.self v) (roomy.maxView v) isPhase unsent built
    simpa only [Net.setWire, Function.update_self] using pushed
  | @pull v i u j own other mine buffer sys isOwn isOther step =>
    have isSent := (simulated u).wires j
    rw [isOther] at isSent
    exact simulated.setSys ((simulated v).pull (roomy.self v) (roomy.maxView v) isSent step)
  | @intrude v i _ _ remote => exact absurd rfl (honest v i remote)
  | @store v i sys step =>
    exact simulated.setSys ((simulated v).store (roomy.self v) (roomy.nonNegative v) (roomy.maxView v) step)
  | @abort v i sys step =>
    have aborted := simulated.setSys ((simulated v).abort step)
    rwa [Function.update_eq_self] at aborted

theorem spread_cons (e : Event W) : spread nodes a (e :: events) = spread nodes (spread nodes a [e]) events := by
  simp only [spread, ← Epidemic.run_append, ← List.filterMap_append, List.singleton_append]

theorem Simulated.run (roomy : Roomy nodes members) (simulated : Simulated members nodes s a)
    (honest : Honest events) (steps : Steps (Step nodes) s events s') :
    Simulated members nodes s' (spread nodes a events) := by
  induction steps generalizing a with
  | nil => exact simulated
  | cons step _ ih =>
    rw [spread_cons]
    refine ih (simulated.step roomy (fun v i remote isIntrude => ?_) step) fun v i remote member => ?_
    · exact honest v i remote (isIntrude ▸ List.mem_cons_self)
    · exact honest v i remote (List.mem_cons_of_mem _ member)

theorem getCachedPeers_of_persists {ns : Key} {d : RootDatastore} {view : View W} (persists : Persists ns d view)
    (draws : Draws W) : ∃ infos, getCachedPeers W ns noFaults draws d = .ok infos ∧
      (infos.map AddrInfo.id).Perm (view.map GossipRecord.peerID) := by
  have loads : loadView W ns noFaults d = .ok view := persists.loadView_eq noFaults
  by_cases empty : view.length = 0
  · refine ⟨[], ?_, ?_⟩
    · rw [getCachedPeers, loads]
      exact if_pos empty
    · rw [List.eq_nil_of_length_eq_zero empty]
      exact .nil
  · refine ⟨(draws.shuffle view).map fun r => ⟨r.peerRecord.peerID, r.peerRecord.addrs⟩, ?_, ?_⟩
    · rw [getCachedPeers, loads]
      exact if_neg empty
    · rw [List.map_map]
      exact (draws.shuffle_perm view).map GossipRecord.peerID

theorem simulated_start (begins : Begins nodes start) : Simulated members nodes start fun _ => .empty :=
  fun v => .fresh (begins.fresh v) (congrArg GossipRecord.peerID (begins.own v)) (begins.wire v)

/-- In a network that is small for the views of its nodes, whatever the order of the
steps of all rounds: the peers that a node hands out are, each once, those that the events
spread to it, no matter what is swapped, retained, shuffled or decayed. -/
theorem cached_peers_are_spread (roomy : Roomy nodes members) (begins : Begins nodes start)
    (honest : Honest events) (steps : Steps (Step nodes) start events s) (v : Nat) (draws : Draws W) :
    ∃ infos, getCachedPeers W (nodes v).ns noFaults draws (s.sys v).store = .ok infos ∧
      (infos.map AddrInfo.id).Nodup ∧
      ∀ p, p ∈ infos.map AddrInfo.id ↔ p ∈ (spread nodes (fun _ => .empty) events v).known := by
  have mirrors := (simulated_start begins).run roomy honest steps v
  obtain ⟨view, persists⟩ := mirrors.inScope.persists
  obtain ⟨infos, returns, perm⟩ := getCachedPeers_of_persists persists draws
  refine ⟨infos, returns, perm.nodup_iff.mpr (persists.loaded_nodup (.refl view)), fun p => ?_⟩
  rw [perm.mem_iff, ← View.mem_peers, mem_peers_iff_knows persists, mirrors.known]

/-- In such a network whatever a node knows reaches every node to which exchanges lead,
and stays known there, also if rounds overlap or fail: nothing is lost on the way. -/
theorem gossip_reaches {before later : List (Event W)} {u v : Nat} {p : PeerID} (roomy : Roomy nodes members)
    (begins : Begins nodes start) (honest : Honest (before ++ later)) (first : Steps (Step nodes) start before s)
    (rest : Steps (Step nodes) s later s') (flows : Epidemic.Flows u (later.filterMap Event.spreads) v)
    (other : p ≠ (nodes v).self) (knows : p = (nodes u).self ∨ Knows (nodes u) (s.sys u) p) :
    Knows (nodes v) (s'.sys v) p := by
  have honestBefore : Honest before := fun v i remote member => honest v i remote (List.mem_append_left later member)
  have honestLater : Honest later := fun v i remote member => honest v i remote (List.mem_append_right before member)
  have simulated := (simulated_start begins).run roomy honestBefore first
  have mirrors := simulated.run roomy honestLater rest v
  rw [mirrors.known]
  refine Epidemic.known_of_flows flows other (knows.imp_right fun stored => ?_)
  exact ((simulated u).known p).mp stored

theorem twoNodes_cfg (v : Nat) : (twoNodes v).cfg = (plainNode 6).cfg := by
  cases v with
  | zero => rfl
  | succ v => rfl

theorem twoNodes_roomy : Roomy twoNodes {[1], [2]} where
  self v := by
    cases v with
    | zero => decide
    | succ v => exact (by decide : [2] ∈ ({[1], [2]} : Finset PeerID))
  nonNegative v := by
    rw [twoNodes_cfg]
    exact ⟨by decide, by decide, by decide⟩
  maxView v := by
    rw [twoNodes_cfg]
    decide

/-- Two rounds exchange what they have pushed. -/
def exchanged : List (Event plainIdentities) :=
  [.load 0 0, .load 1 0, .push 0 0, .push 1 0, .pull 1 0 0 0, .pull 0 0 1 0, .store 0 0, .store 1 0]

theorem exchanged_honest : Honest exchanged := by
  intro v i remote member
  simp [exchanged] at member

theorem exchanged_steps : ∃ s, Steps (Step twoNodes) twoNet exchanged s := by
  refine ⟨_, .cons (.load (.load plainDraws rfl rfl rfl)) <| .cons (.load (.load plainDraws rfl rfl rfl)) <|
    .cons (.push rfl rfl rfl) <| .cons (.push rfl rfl rfl) <| .cons (.pull rfl rfl (.exchange rfl rfl rfl)) <|
    .cons (.pull rfl rfl (.exchange rfl rfl rfl)) <| .cons (.store (.store plainDraws rfl rfl)) <|
    .cons (.store (.store plainDraws rfl rfl)) .nil⟩

theorem cached_peers_are_spread_exchanged : ∃ s, Steps (Step twoNodes) twoNet exchanged s ∧
    (spread twoNodes (fun _ => .empty) exchanged 0).known = {[2]} ∧
    ∃ infos, getCachedPeers plainIdentities (twoNodes 0).ns noFaults plainDraws (s.sys 0).store = .ok infos ∧
      (infos.map AddrInfo.id).Nodup ∧
      ∀ p, p ∈ infos.map AddrInfo.id ↔ p ∈ (spread twoNodes (fun _ => .empty) exchanged 0).known := by
  obtain ⟨s, steps⟩ := exchanged_steps
  exact ⟨s, steps, by decide, cached_peers_are_spread twoNodes_roomy twoNet_begins exchanged_honest steps 0 plainDraws⟩

theorem gossip_reaches_exchanged : ∃ s, Steps (Step twoNodes) twoNet exchanged s ∧ Knows (twoNodes 1) (s.sys 1) [1] := by
  obtain ⟨s, steps⟩ := exchanged_steps
  have inOrder : (Epidemic.exchange 0 0 1 0).Sublist (exchanged.filterMap Event.spreads) := by decide
  have flows : Epidemic.Flows 0 ([] ++ exchanged.filterMap Event.spreads) 1 := .next .here inOrder
  have honest : Honest ([] ++ exchanged) := exchanged_honest
  exact ⟨s, steps, gossip_reaches twoNodes_roomy twoNet_begins honest .nil steps flows (by decide) (.inl rfl)⟩

end Spreading

end Network

end Casm.Pex
