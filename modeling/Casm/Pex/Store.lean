import Casm.Lib.Datastore
import Casm.Pex.Record

namespace Casm.Pex
open Datastore (BatchOp lastPut)

abbrev Key := List GoPath.Segment

abbrev RootDatastore := Datastore Key Gossip

/-- The operations of a round that can fail on their own. -/
inductive Op where
  | setDeadline | query | rest | batch | delete (i : Nat) | marshal (i : Nat) | put (i : Nat) | commit | sync
  | encode (i : Nat) | flush
  deriving DecidableEq

/-- Which operations fail, and with which error. -/
abbrev Faults := Op → Option String

def noFaults : Faults :=
  fun _ => none

/-- Run operations in order up to the first failure. -/
def Faults.attempt (faults : Faults) (ops : List Op) : Except Fault Unit :=
  match ops.findSome? faults with
  | some msg => .error (.error msg)
  | none => .ok ()

/-- The key lies strictly below the path, at any depth. -/
def Below (ns k : Key) : Prop :=
  ns <+: k ∧ k ≠ ns

instance (ns k : Key) : Decidable (Below ns k) :=
  inferInstanceAs (Decidable (_ ∧ _))

theorem below_append {ns rest : Key} (nonempty : rest ≠ []) : Below ns (ns ++ rest) := by
  refine ⟨List.prefix_append ns rest, ?_⟩
  intro same
  exact nonempty (List.append_right_eq_self.mp same)

/-- What a query of the store scoped to `ns` returns. -/
def entriesBelow (ns : Key) (d : RootDatastore) : List (Sigma fun _ : Key => Gossip) :=
  d.entries.filter fun entry => Below ns entry.1

variable {W : Identities}

/-- Where and as what the store scoped to `ns` keeps a record. -/
def entry (ns : Key) (r : GossipRecord W) : Key × Gossip :=
  (ns ++ r.key, r.message)

variable (W) in
def loadView (ns : Key) (faults : Faults) (d : RootDatastore) : Except Fault (View W) := do
  faults.attempt [.query, .rest]
  (entriesBelow ns d).mapM fun entry => readMessage W entry.2

/-- The batch of `StoreRecords`: drop what is no longer in the view, then put
every record of the new view. -/
def storeBatch (ns : Key) (old new : View W) : List (BatchOp Key Gossip) :=
  ((old.diff new).map fun g => ns ++ g.key).map .delete ++
    (new.map (entry ns)).map fun entry => .put entry.1 entry.2

def storeOps (old new : View W) : List Op :=
  .batch :: (List.range (old.diff new).length).map .delete ++
    (List.range new.length).flatMap (fun i => [.marshal i, .put i]) ++ [.commit]

/-- Nothing happens to the datastore unless the commit succeeds; the sync after
it can fail without undoing anything. -/
def storeRecords (ns : Key) (faults : Faults) (d : RootDatastore) (old new : View W) :
    RootDatastore × Except Fault Unit :=
  match faults.attempt (storeOps old new) with
  | .error fault => (d, .error fault)
  | .ok () => (d.commit (storeBatch ns old new), faults.attempt [.sync])

/-- The view, as the map from keys to messages that storing it in order gives. -/
def View.stored (ns : Key) (v : View W) : Key → Option Gossip :=
  lastPut (v.map (entry ns))

variable (W) in
/-- Every entry below `ns` is a record, stored where that record belongs. -/
def Scoped (ns : Key) (d : RootDatastore) : Prop :=
  ∀ k g, Below ns k → d.lookup k = some g → ∃ r : GossipRecord W, (k, g) = entry ns r

theorem key_below (ns : Key) (r : GossipRecord W) : Below ns (ns ++ r.key) :=
  below_append (by rw [r.key_eq]; exact List.cons_ne_nil _ _)

theorem key_inj_below {ns : Key} {r r' : GossipRecord W} :
    ns ++ r.key = ns ++ r'.key ↔ r.peerID = r'.peerID := by
  rw [List.append_right_inj, GossipRecord.key_inj]

theorem mapM_readMessage (v : View W) :
    (v.map GossipRecord.message).mapM (readMessage W) = .ok v := by
  induction v with
  | nil => rfl
  | cons r rest ih =>
    rw [List.map_cons, List.mapM_cons, readMessage_message, ih]
    rfl

theorem mem_entriesBelow {ns k : Key} {g : Gossip} {d : RootDatastore} :
    ⟨k, g⟩ ∈ entriesBelow ns d ↔ Below ns k ∧ d.lookup k = some g := by
  rw [entriesBelow, List.mem_filter, decide_eq_true_eq, and_comm, ← AList.mem_lookup_iff, Option.mem_def]

/-- The entries below `ns` are the records of `v`, in some order. -/
def Persists (ns : Key) (d : RootDatastore) (v : View W) : Prop :=
  entriesBelow ns d = v.map fun r => ⟨ns ++ r.key, r.message⟩

theorem Scoped.persists {ns : Key} {d : RootDatastore} (inScope : Scoped W ns d) :
    ∃ v : View W, Persists ns d v := by
  have image : entriesBelow ns d ∈ Set.range
      (List.map fun r : GossipRecord W => (⟨ns ++ r.key, r.message⟩ : Sigma fun _ : Key => Gossip)) := by
    rw [Set.range_list_map]
    intro e member
    obtain ⟨k, g⟩ := e
    obtain ⟨below, found⟩ := mem_entriesBelow.mp member
    obtain ⟨r, equal⟩ := inScope k g below found
    refine ⟨r, ?_⟩
    rw [entry, Prod.mk.injEq] at equal
    rw [equal.1, equal.2]
  obtain ⟨v, equal⟩ := image
  exact ⟨v, equal.symm⟩

namespace Persists

variable {ns : Key} {d : RootDatastore} {v : View W}

/-- The records that are stored are the ones that a query reads back. -/
theorem loadView_eq (persists : Persists ns d v) (faults : Faults) :
    loadView W ns faults d = (faults.attempt [.query, .rest]).map fun _ => v := by
  unfold loadView
  cases faults.attempt [.query, .rest] with
  | error fault => rfl
  | ok done =>
    have messages := mapM_readMessage v
    rw [List.mapM_map] at messages
    show List.mapM _ (entriesBelow ns d) = _
    rw [persists, List.mapM_map]
    exact messages

theorem mem_iff (persists : Persists ns d v) {r : GossipRecord W} :
    r ∈ v ↔ d.lookup (ns ++ r.key) = some r.message := by
  have entries : ⟨ns ++ r.key, r.message⟩ ∈ entriesBelow ns d ↔ _ := mem_entriesBelow
  rw [and_iff_right (key_below ns r), persists, List.mem_map] at entries
  rw [← entries]
  constructor
  · intro member
    exact ⟨r, member, rfl⟩
  · intro found
    obtain ⟨r', member, equal⟩ := found
    rw [Sigma.mk.injEq, heq_eq_eq] at equal
    rw [← GossipRecord.message_injective equal.2]
    exact member

theorem inScope (persists : Persists ns d v) : Scoped W ns d := by
  intro k g below found
  have member := mem_entriesBelow.mpr ⟨below, found⟩
  rw [persists, List.mem_map] at member
  obtain ⟨r, _, equal⟩ := member
  rw [Sigma.mk.injEq, heq_eq_eq] at equal
  exact ⟨r, by rw [entry, equal.1, equal.2]⟩

theorem distinct (persists : Persists ns d v) : v.Pairwise fun a b => a.peerID ≠ b.peerID := by
  have nodup : ((entriesBelow ns d).map Sigma.fst).Nodup :=
    List.Nodup.sublist (List.Sublist.map _ List.filter_sublist) d.keys_nodup
  rw [persists, List.map_map, List.nodup_iff_pairwise_ne, List.pairwise_map] at nodup
  refine nodup.imp ?_
  intro a b different same
  exact different (key_inj_below.mpr same)

end Persists

section Stored

variable {ns : Key} {d : RootDatastore} {old new : View W}

theorem stored_eq_none_iff {k : Key} : new.stored ns k = none ↔ ∀ r ∈ new, ns ++ r.key ≠ k := by
  rw [View.stored, Datastore.lastPut_eq_none_iff]
  simp [entry]

theorem mem_of_stored {k : Key} {g : Gossip} (found : new.stored ns k = some g) :
    ∃ r ∈ new, (k, g) = entry ns r := by
  obtain ⟨r, member, equal⟩ := List.mem_map.mp (Datastore.mem_of_lastPut found)
  exact ⟨r, member, equal.symm⟩

theorem lookup_store (ns : Key) (d : RootDatastore) (old new : View W) (k : Key) :
    (d.commit (storeBatch ns old new)).lookup k =
      (new.stored ns k).or (if k ∈ (old.diff new).map (fun g => ns ++ g.key) then none else d.lookup k) := by
  rw [storeBatch, Datastore.lookup_commit]
  congr

/-- What a commit leaves under a key that the new view does not have: nothing if
the old view has it, else what was there. -/
theorem lookup_store_of_not_mem {k : Key} (absent : new.stored ns k = none) :
    (d.commit (storeBatch ns old new)).lookup k =
      if k ∈ old.map (fun g => ns ++ g.key) then none else d.lookup k := by
  have same : k ∈ (old.diff new).map (fun g => ns ++ g.key) ↔ k ∈ old.map (fun g => ns ++ g.key) := by
    rw [stored_eq_none_iff] at absent
    simp only [List.mem_map, View.mem_diff]
    constructor
    · intro found
      obtain ⟨g, ⟨member, _⟩, equal⟩ := found
      exact ⟨g, member, equal⟩
    · intro found
      obtain ⟨g, member, equal⟩ := found
      refine ⟨g, ⟨member, fun g' member' samePeer => absent g' member' ?_⟩, equal⟩
      rw [key_inj_below.mpr samePeer, equal]
  rw [lookup_store, absent, Option.none_or, if_congr same rfl rfl]

/-- What is stored after a commit is an entry of the new view, or was stored before. -/
theorem lookup_store_cases {k : Key} {g : Gossip}
    (found : (d.commit (storeBatch ns old new)).lookup k = some g) :
    (∃ r ∈ new, (k, g) = entry ns r) ∨ d.lookup k = some g := by
  cases stored : new.stored ns k with
  | some g' =>
    rw [lookup_store, stored, Option.some_or, Option.some.injEq] at found
    rw [found] at stored
    exact Or.inl (mem_of_stored stored)
  | none =>
    rw [lookup_store_of_not_mem stored] at found
    split at found
    · cases found
    · exact Or.inr found

theorem mem_or_stored_before {r : GossipRecord W}
    (found : (d.commit (storeBatch ns old new)).lookup (ns ++ r.key) = some r.message) :
    r ∈ new ∨ d.lookup (ns ++ r.key) = some r.message := by
  rcases lookup_store_cases found with ⟨x, member, equal⟩ | kept
  · have same : r = x := GossipRecord.message_injective (congrArg Prod.snd equal)
    exact Or.inl (same ▸ member)
  · exact Or.inr kept

theorem Scoped.store (inScope : Scoped W ns d) (old new : View W) :
    Scoped W ns (d.commit (storeBatch ns old new)) := by
  intro k g below found
  rcases lookup_store_cases found with ⟨r, _, equal⟩ | kept
  · exact ⟨r, equal⟩
  · exact inScope k g below kept

/-- If the old view has every stored peer, what is stored afterwards is exactly
the new view. -/
theorem lookup_store_of_covers (covers : ∀ k, Below ns k → k ∈ d → k ∈ old.map fun g => ns ++ g.key)
    {k : Key} (below : Below ns k) : (d.commit (storeBatch ns old new)).lookup k = new.stored ns k := by
  cases stored : new.stored ns k with
  | some g => rw [lookup_store, stored, Option.some_or]
  | none =>
    rw [lookup_store_of_not_mem stored]
    split
    · rfl
    · rename_i missing
      rw [AList.lookup_eq_none]
      exact fun member => missing (covers k below member)

end Stored

end Casm.Pex
