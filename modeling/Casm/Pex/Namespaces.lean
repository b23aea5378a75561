import Casm.Pex.RoundStore

namespace Casm.Pex
open Datastore (BatchOp)

variable {W : Identities}

abbrev Namespace := List UInt8

/-- The key that the store of a namespace puts in front of its own. -/
def nsKey (ns : Namespace) : Key :=
  GoPath.rooted ns

/-- A call of `StoreRecords` on the store of a namespace. -/
structure StoreCall (W : Identities) where
  ns : Namespace
  old : View W
  new : View W

def StoreCall.apply (d : RootDatastore) (c : StoreCall W) : RootDatastore :=
  d.commit (storeBatch (nsKey c.ns) c.old c.new)

/-- The datastore after calls that all succeed. -/
def afterCalls (calls : List (StoreCall W)) : RootDatastore :=
  calls.foldl StoreCall.apply ∅

variable (W) in
def loadNamespace (ns : Namespace) (d : RootDatastore) : Except Fault (View W) :=
  loadView W (nsKey ns) noFaults d

variable (W) in
/-- Whatever is stored through the two namespaces, storing through the first
does not change what the second loads, and the first loads only what was stored
through it. -/
def Isolated (ns ns' : Namespace) : Prop :=
  ∀ calls : List (StoreCall W), (∀ c ∈ calls, c.ns = ns ∨ c.ns = ns') →
    (∀ old new, loadNamespace W ns' (afterCalls (calls ++ [⟨ns, old, new⟩])) =
      loadNamespace W ns' (afterCalls calls)) ∧
    ∃ v, loadNamespace W ns (afterCalls calls) = .ok v ∧ ∀ r ∈ v, ∃ c ∈ calls, c.ns = ns ∧ r ∈ c.new

theorem afterCalls_concat (calls : List (StoreCall W)) (c : StoreCall W) :
    afterCalls (calls ++ [c]) = c.apply (afterCalls calls) := by
  rw [afterCalls, List.foldl_append]
  rfl

/-- A record of one store is below another store only if that store's key is on
the way to it. -/
theorem below_key_iff {k k' : Key} {r : GossipRecord W} : Below k' (k ++ r.key) ↔ k' <+: k := by
  constructor
  · intro below
    obtain ⟨onWay, other⟩ := below
    rw [r.key_eq] at onWay other
    rcases List.prefix_concat_iff.mp onWay with whole | shorter
    · exact absurd whole.symm other
    · exact shorter
  · intro onWay
    obtain ⟨rest, equal⟩ := onWay
    rw [← equal, List.append_assoc]
    apply below_append
    rw [r.key_eq]
    simp

theorem filter_kerase {ns k : Key} (outside : ¬ Below ns k) (l : List (Sigma fun _ : Key => Gossip)) :
    (l.kerase k).filter (fun e => Below ns e.1) = l.filter fun e => Below ns e.1 := by
  induction l with
  | nil => rfl
  | cons e rest ih =>
    by_cases same : k = e.1
    · rw [List.kerase_cons_eq same, List.filter_cons_of_neg]
      rw [decide_eq_true_eq, ← same]
      exact outside
    · rw [List.kerase_cons_ne same, List.filter_cons, List.filter_cons, ih]

/-- Operations on keys that are not below a path do not change what is below it. -/
theorem entriesBelow_commit {ns : Key} {batch : List (BatchOp Key Gossip)} (d : RootDatastore)
    (outside : ∀ op ∈ batch, match op with
      | .delete k => ¬ Below ns k
      | .put k _ => ¬ Below ns k) :
    entriesBelow ns (d.commit batch) = entriesBelow ns d := by
  induction batch generalizing d with
  | nil => rfl
  | cons op rest ih =>
    obtain ⟨first, others⟩ := List.forall_mem_cons.mp outside
    have tail := ih (d.apply op) others
    have step : entriesBelow ns (d.apply op) = entriesBelow ns d := by
      cases op with
      | delete k => exact filter_kerase first d.entries
      | put k g =>
        have entries : (d.insert k g).entries = ⟨k, g⟩ :: d.entries.kerase k := rfl
        show (d.insert k g).entries.filter _ = _
        rw [entries, List.filter_cons_of_neg (by rw [decide_eq_true_eq]; exact first)]
        exact filter_kerase first d.entries
    exact tail.trans step

theorem entriesBelow_apply {ns : Key} {c : StoreCall W} (d : RootDatastore) (apart : ¬ ns <+: nsKey c.ns) :
    entriesBelow ns (c.apply d) = entriesBelow ns d := by
  refine entriesBelow_commit d ?_
  intro op member
  unfold storeBatch at member
  rcases List.mem_append.mp member with deleted | put
  · obtain ⟨k, inside, equal⟩ := List.mem_map.mp deleted
    obtain ⟨r, _, same⟩ := List.mem_map.mp inside
    subst equal same
    exact fun below => apart (below_key_iff.mp below)
  · obtain ⟨e, inside, equal⟩ := List.mem_map.mp put
    obtain ⟨r, _, same⟩ := List.mem_map.mp inside
    subst equal same
    exact fun below => apart (below_key_iff.mp below)

section Isolation

variable {ns ns' : Namespace}

/-- What is below a namespace was stored through it, if nothing else reaches it. -/
theorem stored_through (apart : ¬ nsKey ns <+: nsKey ns') {calls : List (StoreCall W)}
    (only : ∀ c ∈ calls, c.ns = ns ∨ c.ns = ns') {k : Key} {g : Gossip} (below : Below (nsKey ns) k)
    (found : (afterCalls calls).lookup k = some g) :
    ∃ c ∈ calls, c.ns = ns ∧ ∃ r ∈ c.new, (k, g) = entry (nsKey ns) r := by
  induction calls using List.reverseRecOn with
  | nil => cases found
  | append_singleton rest c ih =>
    have earlier (kept : (afterCalls rest).lookup k = some g) :
        ∃ c' ∈ rest ++ [c], c'.ns = ns ∧ ∃ r ∈ c'.new, (k, g) = entry (nsKey ns) r := by
      obtain ⟨c', member, through⟩ := ih (fun c' member => only c' (List.mem_append_left _ member)) kept
      exact ⟨c', List.mem_append_left _ member, through⟩
    rw [afterCalls_concat] at found
    rcases only c (by simp) with mine | other
    · rw [StoreCall.apply, mine] at found
      rcases lookup_store_cases found with put | kept
      · exact ⟨c, by simp, mine, put⟩
      · exact earlier kept
    · have same := entriesBelow_apply (afterCalls rest) (other.symm ▸ apart : ¬ nsKey ns <+: nsKey c.ns)
      have member := mem_entriesBelow.mpr ⟨below, found⟩
      rw [same] at member
      exact earlier (mem_entriesBelow.mp member).2

theorem isolated_of_apart (first : ¬ nsKey ns <+: nsKey ns') (second : ¬ nsKey ns' <+: nsKey ns) :
    Isolated W ns ns' := by
  intro calls only
  constructor
  · intro old new
    have same := entriesBelow_apply (c := ⟨ns, old, new⟩) (afterCalls calls) second
    unfold loadNamespace loadView
    rw [afterCalls_concat, same]
  · have inScope : Scoped W (nsKey ns) (afterCalls calls) := by
      intro k g below found
      obtain ⟨c, _, _, r, _, equal⟩ := stored_through first only below found
      exact ⟨r, equal⟩
    obtain ⟨v, persists⟩ := inScope.persists
    refine ⟨v, persists.loadView_eq noFaults, fun r member => ?_⟩
    obtain ⟨c, inCalls, mine, r', inNew, equal⟩ :=
      stored_through first only (key_below (nsKey ns) r) (persists.mem_iff.mp member)
    have same : r = r' := GossipRecord.message_injective (congrArg Prod.snd equal)
    exact ⟨c, inCalls, mine, same ▸ inNew⟩

/-- One record stored through a namespace, loaded through another that is on
the way to it. -/
theorem loadNamespace_nested (onWay : nsKey ns <+: nsKey ns') (r : GossipRecord W) :
    loadNamespace W ns (afterCalls [⟨ns', [], [r]⟩]) = .ok [r] := by
  have entries : (afterCalls [⟨ns', [], [r]⟩]).entries = [⟨nsKey ns' ++ r.key, r.message⟩] := rfl
  have below : Below (nsKey ns) (nsKey ns' ++ r.key) := below_key_iff.mpr onWay
  have inside : entriesBelow (nsKey ns) (afterCalls [⟨ns', [], [r]⟩]) =
      [⟨nsKey ns' ++ r.key, r.message⟩] := by
    rw [entriesBelow, entries, List.filter_cons_of_pos (by exact decide_eq_true below), List.filter_nil]
  show List.mapM _ (entriesBelow (nsKey ns) (afterCalls [⟨ns', [], [r]⟩])) = _
  rw [inside, List.mapM_cons, readMessage_message]
  rfl

theorem not_isolated_of_nested (different : ns ≠ ns') (r : GossipRecord W)
    (nested : nsKey ns <+: nsKey ns' ∨ nsKey ns' <+: nsKey ns) : ¬ Isolated W ns ns' := by
  intro isolated
  rcases nested with below | above
  · obtain ⟨_, v, loads, through⟩ := isolated [⟨ns', [], [r]⟩] (by simp)
    rw [loadNamespace_nested below, Except.ok.injEq] at loads
    obtain ⟨c, member, mine, _⟩ := through r (by rw [← loads]; exact List.mem_singleton_self r)
    rw [List.mem_singleton] at member
    rw [member] at mine
    exact different mine.symm
  · obtain ⟨unchanged, _⟩ := isolated [] (by simp)
    have before : loadNamespace W ns' (afterCalls ([] : List (StoreCall W))) = .ok [] := rfl
    have after := unchanged [] [r]
    rw [List.nil_append, loadNamespace_nested above, before] at after
    cases after

/-- Two namespaces are isolated exactly when the cleaned path of neither one is
on the way to the other's. -/
theorem isolated_iff (different : ns ≠ ns') (r : GossipRecord W) :
    Isolated W ns ns' ↔ ¬ nsKey ns <+: nsKey ns' ∧ ¬ nsKey ns' <+: nsKey ns := by
  constructor
  · intro isolated
    exact ⟨fun below => not_isolated_of_nested different r (Or.inl below) isolated,
      fun above => not_isolated_of_nested different r (Or.inr above) isolated⟩
  · intro apart
    exact isolated_of_apart apart.1 apart.2

/-- Namespaces that are single names are isolated. -/
theorem isolated_of_names (name : GoPath.IsName ns) (name' : GoPath.IsName ns') (different : ns ≠ ns') :
    Isolated W ns ns' := by
  have key : nsKey ns = [ns] := GoPath.rooted_of_name name
  have key' : nsKey ns' = [ns'] := GoPath.rooted_of_name name'
  refine isolated_of_apart ?_ ?_
  · rw [key, key', List.cons_prefix_cons]
    exact fun onWay => different onWay.1
  · rw [key, key', List.cons_prefix_cons]
    exact fun onWay => different onWay.1.symm

end Isolation

/-- The namespaces `a` and `b`. -/
theorem isolated_words : Isolated plainIdentities [97] [98] :=
  (isolated_iff (by decide) storedPeer).mpr (by decide)

/-- The namespace `a` loads what is stored through `a/b`. -/
theorem not_isolated_nested : ¬ Isolated plainIdentities [97] [97, 47, 98] :=
  not_isolated_of_nested (by decide) storedPeer (Or.inl (by decide))

/-- Two spellings of one path, `a` and `a/`, share all their records. -/
example : nsKey [97] = nsKey [97, 47] := by decide

end Casm.Pex
