import Casm.Lib.Machine
import Casm.Pex.RoundStore

namespace Casm.Pex

variable {W : Identities}

/-- Where a round is between its atomic steps, with the views it has in hand. -/
inductive Phase (W : Identities) where
  | idle
  | loaded (loc : View W)
  | exchanged (loc remote : View W)
  | finished

/-- The rounds of one gossiper, initiated or served, and the datastore they share. -/
structure System (W : Identities) where
  store : RootDatastore
  rounds : Nat → Phase W

inductive Event (W : Identities) where
  | load (i : Nat)
  | exchange (i : Nat) (own : GossipRecord W) (remote : View W)
  | store (i : Nat)
  | abort (i : Nat)

def System.setRound (s : System W) (i : Nat) (phase : Phase W) : System W :=
  { s with rounds := Function.update s.rounds i phase }

theorem System.setRound_self (s : System W) (i : Nat) (phase : Phase W) :
    (s.setRound i phase).rounds i = phase :=
  Function.update_self ..

theorem System.setRound_cases {s : System W} {i j : Nat} {phase found : Phase W}
    (at' : (s.setRound i phase).rounds j = found) : found = phase ∨ s.rounds j = found :=
  (Function.update_cases at').imp (fun isNew => isNew.2.symm) And.right

/-- One atomic step of one round. The mutex of the gossiper makes the load and
the merge-and-store atomic; the stream may deliver any view, and a round may
fail before every step. The node's own record may have changed since the last
round, but it is always new. -/
inductive Step (n : Node W) : System W → Event W → System W → Prop
  | load {s i view loc} (draws : Draws W) : s.rounds i = .idle → loadView W n.ns noFaults s.store = .ok view →
      pushView n.cfg draws view = .ok loc → Step n s (.load i) (s.setRound i (.loaded loc))
  | exchange {s i loc own remote} : s.rounds i = .loaded loc → own.peerID = n.self → own.hop = 0 →
      Step n s (.exchange i own remote) (s.setRound i (.exchanged (pushed n.cfg own loc) remote))
  | store {s i loc remote new} (draws : Draws W) : s.rounds i = .exchanged loc remote →
      merge n.cfg n.self draws loc remote = .ok new →
      Step n s (.store i)
        { s.setRound i .finished with store := s.store.commit (storeBatch n.ns loc new) }
  | abort {s i} : Step n s (.abort i) (s.setRound i .finished)

/-- The systems that steps lead to, each step allowed in the state it is taken in. -/
inductive Reachable (n : Node W) (allowed : System W → Event W → Prop) (start : System W) : System W → Prop
  | start : Reachable n allowed start start
  | next {s s' e} : Reachable n allowed start s → allowed s e → Step n s e s' → Reachable n allowed start s'

/-- The record is what the datastore holds for its peer. -/
def System.Stores (s : System W) (n : Node W) (r : GossipRecord W) : Prop :=
  s.store.lookup (n.ns ++ r.key) = some r.message

/-- All rounds idle, and nothing stored in the namespace. -/
structure Fresh (n : Node W) (s : System W) : Prop where
  idle : ∀ i, s.rounds i = .idle
  empty : entriesBelow n.ns s.store = []

/-- Only the merge-and-store step of a round touches the datastore. -/
theorem Step.store_cases {n : Node W} {s s' : System W} {e : Event W} (step : Step n s e s') :
    s'.store = s.store ∨ ∃ i loc remote draws new, e = .store i ∧ s.rounds i = .exchanged loc remote ∧
      merge n.cfg n.self draws loc remote = .ok new ∧
      s'.store = s.store.commit (storeBatch n.ns loc new) := by
  cases step with
  | load => exact Or.inl rfl
  | exchange => exact Or.inl rfl
  | @store i loc remote new draws phase merged =>
    exact Or.inr ⟨i, loc, remote, draws, new, rfl, phase, merged, rfl⟩
  | abort => exact Or.inl rfl

/-- The three steps of one round, taken one after the other. -/
theorem Reachable.round {n : Node W} {start s : System W} (reach : Reachable n (fun _ _ => True) start s)
    (i : Nat) (idle : s.rounds i = .idle) {view loc new : View W} (remote : View W) (draws draws' : Draws W)
    (loads : loadView W n.ns noFaults s.store = .ok view) (pushes : pushView n.cfg draws view = .ok loc)
    (merged : merge n.cfg n.self draws' (pushed n.cfg n.own loc) remote = .ok new) :
    ∃ s', Reachable n (fun _ _ => True) start s' ∧
      s'.store = s.store.commit (storeBatch n.ns (pushed n.cfg n.own loc) new) ∧
      ∀ j, j ≠ i → s'.rounds j = s.rounds j := by
  have loaded := reach.next trivial (.load draws idle loads pushes)
  have exchanged := loaded.next trivial
    (Step.exchange (System.setRound_self _ i _) rfl n.own_new : Step n _ (.exchange i n.own remote) _)
  have stored := exchanged.next trivial (.store draws' (System.setRound_self _ i _) merged)
  refine ⟨_, stored, rfl, fun j other => ?_⟩
  show Function.update (Function.update (Function.update s.rounds i _) i _) i _ j = s.rounds j
  rw [Function.update_of_ne other, Function.update_of_ne other, Function.update_of_ne other]

/-- A round that runs alone is a run of its steps. -/
theorem gossipRound_reachable (n : Node W) (input : RoundInput W) (d : RootDatastore) :
    ∃ s, Reachable n (fun _ _ => True) ⟨d, fun _ => .idle⟩ s ∧ s.store = (gossipRound n input d).1 := by
  rw [gossipRound_eq]
  cases outcome : roundViews n input d with
  | error fault => exact ⟨_, .start, rfl⟩
  | ok views =>
    obtain ⟨old, new⟩ := views
    rcases storeRecords_cases n.ns input.faults d old new with ⟨msg, failed⟩ | committed
    · refine ⟨_, .start, ?_⟩
      simp only [failed]
    · unfold roundViews at outcome
      simp only [Except.bind_eq_ok] at outcome
      obtain ⟨_, _, view, queried, loc, pushes, _, _, _, _, remote, _, new', merged, result⟩ := outcome
      have equal := Except.ok.inj result
      rw [Prod.mk.injEq] at equal
      obtain ⟨sameOld, sameNew⟩ := equal
      have loads : loadView W n.ns noFaults d = .ok view := by
        unfold loadView at queried ⊢
        obtain ⟨_, _, read⟩ := Except.bind_eq_ok.mp queried
        exact read
      have origin : Reachable n (fun _ _ => True) ⟨d, fun _ => .idle⟩ ⟨d, fun _ => .idle⟩ := .start
      obtain ⟨s, reach, stored, _⟩ :=
        origin.round 0 rfl remote input.loadDraws input.mergeDraws loads pushes merged
      refine ⟨s, reach, ?_⟩
      show s.store = (storeRecords n.ns input.faults d old new).1
      rw [committed, stored, sameOld, sameNew]

section Bounded

variable {n : Node W}

/-- A round that stores has loaded every peer that is stored in the meantime,
and its push has not lost one of them. -/
def Covers (n : Node W) (s : System W) (e : Event W) : Prop :=
  ∀ i loc remote, e = .store i → s.rounds i = .exchanged loc remote →
    ∀ k, Below n.ns k → k ∈ s.store → k ∈ loc.map fun g => n.ns ++ g.key

theorem length_entriesBelow_le {ns : Key} {d : RootDatastore} {keys : List Key}
    (subset : ∀ k, Below ns k → k ∈ d → k ∈ keys) : (entriesBelow ns d).length ≤ keys.length := by
  have nodup : ((entriesBelow ns d).map Sigma.fst).Nodup :=
    List.Nodup.sublist (List.Sublist.map _ List.filter_sublist) d.keys_nodup
  rw [← List.length_map Sigma.fst]
  refine (List.subperm_of_subset nodup ?_).length_le
  intro k member
  obtain ⟨e, inside, same⟩ := List.mem_map.mp member
  obtain ⟨stored, below⟩ := List.mem_filter.mp inside
  rw [← same]
  exact subset e.1 (of_decide_eq_true below) (List.mem_map_of_mem stored)

/-- After a merge-and-store that covers the datastore, the peers stored in the
namespace are those of the merged view. -/
theorem length_stored_le {d : RootDatastore} {loc remote new : View W} {draws : Draws W}
    (merged : merge n.cfg n.self draws loc remote = .ok new)
    (covers : ∀ k, Below n.ns k → k ∈ d → k ∈ loc.map fun g => n.ns ++ g.key) :
    ((entriesBelow n.ns (d.commit (storeBatch n.ns loc new))).length : Int) ≤ n.cfg.maxView := by
  have inNew : ∀ k, Below n.ns k → k ∈ d.commit (storeBatch n.ns loc new) →
      k ∈ new.map fun g => n.ns ++ g.key := by
    intro k below member
    obtain ⟨g, found⟩ := Option.isSome_iff_exists.mp (AList.lookup_isSome.mpr member)
    rw [lookup_store_of_covers covers below] at found
    obtain ⟨r, inside, equal⟩ := mem_of_stored found
    exact List.mem_map.mpr ⟨r, inside, (congrArg Prod.fst equal).symm⟩
  have count := length_entriesBelow_le inNew
  have bound := merge_length_le merged
  rw [List.length_map] at count
  omega

/-- As long as every round that stores covers the datastore, the cache never
outgrows its bound, however the rounds interleave. -/
theorem persisted_le_maxView (sane : n.cfg.Sane) {start s : System W} (fresh : Fresh n start)
    (reach : Reachable n (Covers n) start s) :
    ((entriesBelow n.ns s.store).length : Int) ≤ n.cfg.maxView := by
  induction reach with
  | start =>
    have big := sane.maxView
    rw [fresh.empty, List.length_nil]
    omega
  | @next s s' e reach covers step ih =>
    rcases step.store_cases with same | ⟨i, loc, remote, draws, new, isStore, phase, merged, stored⟩
    · rw [same]
      exact ih
    · rw [stored]
      exact length_stored_le merged (covers i loc remote isStore phase)

end Bounded

def emptySystem : System plainIdentities where
  store := ∅
  rounds _ := .idle

theorem emptySystem_fresh (maxView : Int) : Fresh (plainNode maxView) emptySystem where
  idle _ := rfl
  empty := rfl

/-- A record of hop one and its sender. -/
def firstView : View plainIdentities :=
  [peerTwo 1 1, peerThree 1 0]

def firstExchange : System plainIdentities :=
  (emptySystem.setRound 0 (.loaded [])).setRound 0 (.exchanged [] firstView)

def firstStore : System plainIdentities :=
  { firstExchange.setRound 0 .finished with
    store := firstExchange.store.commit (storeBatch (plainNode 6).ns []
      [peerThree 1 1, peerTwo 1 2]) }

/-- A first round, if its steps are allowed. -/
theorem firstStore_reachable {allowed : System plainIdentities → Event plainIdentities → Prop}
    (load : allowed emptySystem (.load 0))
    (exchange : allowed (emptySystem.setRound 0 (.loaded []))
      (.exchange 0 (plainNode 6).own firstView))
    (store : allowed firstExchange (.store 0)) : Reachable (plainNode 6) allowed emptySystem firstStore := by
  have loads : Reachable (plainNode 6) allowed emptySystem (emptySystem.setRound 0 (.loaded [])) :=
    .next .start load (.load plainDraws rfl rfl rfl)
  have exchanges : Reachable (plainNode 6) allowed emptySystem firstExchange :=
    .next loads exchange (.exchange (System.setRound_self _ 0 _) rfl (plainNode 6).own_new)
  exact .next exchanges store (.store plainDraws (System.setRound_self _ 0 _) rfl)

theorem persisted_le_maxView_first :
    Reachable (plainNode 6) (Covers (plainNode 6)) emptySystem firstStore ∧
      (entriesBelow (plainNode 6).ns firstStore.store).length = 2 ∧
      ((entriesBelow (plainNode 6).ns firstStore.store).length : Int) ≤ (plainNode 6).cfg.maxView := by
  have nothing : Covers (plainNode 6) firstExchange (.store 0) :=
    fun _ _ _ _ _ k _ member => absurd member (AList.notMem_empty k)
  have reach := firstStore_reachable nofun nofun nothing
  exact ⟨reach, rfl, persisted_le_maxView ⟨by decide, by decide, by decide⟩ (emptySystem_fresh 6) reach⟩

/-- Two rounds that both load the empty view, and then store what they received
one after the other: neither knows what the other has stored. -/
theorem persisted_exceeds_maxView :
    ∃ s, Reachable (plainNode 2) (fun _ _ => True) emptySystem s ∧
      (entriesBelow (plainNode 2).ns s.store).length = 4 := by
  have loads : Reachable (plainNode 2) (fun _ _ => True) emptySystem
      ((emptySystem.setRound 0 (.loaded [])).setRound 1 (.loaded [])) :=
    .next (.next .start trivial (.load plainDraws rfl rfl rfl)) trivial (.load plainDraws rfl rfl rfl)
  have first := loads.next trivial (Step.exchange rfl rfl (plainNode 2).own_new :
    Step (plainNode 2) _ (.exchange 0 (plainNode 2).own firstView) _)
  have second := first.next trivial (Step.exchange rfl rfl (plainNode 2).own_new :
    Step (plainNode 2) _ (.exchange 1 (plainNode 2).own [plainRecord 4 1 1, plainRecord 5 1 0]) _)
  have stores := (second.next trivial (Step.store (i := 0) plainDraws rfl rfl)).next trivial
    (Step.store (i := 1) plainDraws rfl rfl)
  exact ⟨_, stores, rfl⟩

end Casm.Pex
