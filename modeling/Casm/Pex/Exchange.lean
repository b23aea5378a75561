import Casm.Lib.Registry
import Casm.Pex.Merge
import Casm.Pex.Namespaces

namespace Casm.Pex

def bytes (s : String) : List UInt8 :=
  s.toList.map fun c => c.toNat.toUInt8

/-- `casm.Subprotocol`: the namespace is joined into a path, which is cleaned as
a whole. -/
def subprotocol (ns : Namespace) (ss : List (List UInt8)) : Key :=
  GoPath.join (bytes "/casm/0.0.0" :: ns :: ss)

def proto (ns : Namespace) : Key :=
  subprotocol ns [bytes "pex"]

/-- A namespace that is a single name is a part of its protocol. -/
theorem proto_of_name {ns : Namespace} (name : GoPath.IsName ns) :
    proto ns = [bytes "casm", bytes "0.0.0", ns, bytes "pex"] := by
  have kept : [bytes "/casm/0.0.0", ns, bytes "pex"].filter (· ≠ []) = [bytes "/casm/0.0.0", ns, bytes "pex"] := by
    simp [name.nonempty, show bytes "/casm/0.0.0" ≠ [] by decide, show bytes "pex" ≠ [] by decide]
  have path : [GoPath.slash].intercalate [bytes "/casm/0.0.0", ns, bytes "pex"] =
      [GoPath.slash].intercalate [[], bytes "casm", bytes "0.0.0", ns, bytes "pex"] := rfl
  rw [proto, subprotocol, GoPath.join, kept, path]
  refine GoPath.rooted_names fun s member => ?_
  simp only [List.mem_cons, List.not_mem_nil, or_false] at member
  rcases member with isCasm | isVersion | isNs | isPex
  · subst isCasm
    exact ⟨by decide, by decide, by decide, by decide⟩
  · subst isVersion
    exact ⟨by decide, by decide, by decide, by decide⟩
  · subst isNs
    exact name
  · subst isPex
    exact ⟨by decide, by decide, by decide, by decide⟩

/-- A gossiper is told from another by its number. -/
structure Gossiper where
  id : Nat
  config : GossipConfig

structure Advertiser where
  deadline : Int
  gossiper : Gossiper

def Advertiser.expired (ad : Advertiser) (t : Int) : Bool :=
  ad.deadline < t

def Advertiser.resetTTL (ad : Advertiser) (t : Int) : Advertiser :=
  { ad with deadline := t + (ad.gossiper.config.tick + ad.gossiper.config.timeout) }

/-- What the main loop reads and writes: the advertisers by namespace and the
stream handlers of the host by protocol, each given as the number of the gossiper
it belongs to. The loop ends when the exchange is closed. -/
structure PeerExchange where
  advertisers : AList (fun _ : Namespace => Advertiser)
  handlers : Key → Option Nat
  next : Nat
  closed : Bool

namespace PeerExchange

def new : PeerExchange where
  advertisers := ∅
  handlers _ := none
  next := 0
  closed := false

variable (newParams : Namespace → GossipConfig)

/-- Making a gossiper registers its handler. -/
def newGossiper (px : PeerExchange) (ns : Namespace) : PeerExchange × Gossiper :=
  ({ px with
      handlers := Function.update px.handlers (proto ns) (some px.next)
      next := px.next + 1 },
    ⟨px.next, newParams ns⟩)

/-- What the main loop runs for a call of `getOrCreateGossiper`. -/
def getOrCreateGossiper (px : PeerExchange) (ns : Namespace) (now : Int) : PeerExchange × Gossiper :=
  let (px, ad) : PeerExchange × Advertiser :=
    match px.advertisers.lookup ns with
    | some ad => (px, ad)
    | none =>
      let (px, g) := px.newGossiper newParams ns
      (px, ⟨0, g⟩)
  let ad := ad.resetTTL now
  ({ px with advertisers := px.advertisers.insert ns ad }, ad.gossiper)

/-- `Stop` of the gossiper of a namespace, which removes whatever handler the
protocol has, and the deletion of the advertiser. -/
def stop (px : PeerExchange) (ns : Namespace) : PeerExchange :=
  { px with
    advertisers := px.advertisers.erase ns
    handlers := Function.update px.handlers (proto ns) none }

/-- One turn of the loop over the advertisers: the time is read for each anew. -/
def expire (px : PeerExchange) (turn : Namespace × Int) : PeerExchange :=
  match px.advertisers.lookup turn.1 with
  | some ad => if ad.expired turn.2 then px.stop turn.1 else px
  | none => px

def close (px : PeerExchange) : PeerExchange :=
  { px.advertisers.keys.foldl stop px with closed := true }

/-- What happens in the main loop. A tick goes over the advertisers in the order
that the iteration of the map happens to have. -/
inductive Event where
  | advertise (ns : Namespace) (now : Int)
  | tick (turns : List (Namespace × Int))
  | close

def handle (px : PeerExchange) (e : Event) : PeerExchange :=
  if px.closed then px
  else match e with
    | .advertise ns now => (px.getOrCreateGossiper newParams ns now).1
    | .tick turns => turns.foldl expire px
    | .close => px.close

def run (events : List Event) : PeerExchange :=
  events.foldl (handle newParams) new

/-- `px.advertisers[ns].Gossiper`. -/
def gossiper (px : PeerExchange) (ns : Namespace) : Option Gossiper :=
  (px.advertisers.lookup ns).map Advertiser.gossiper

/-- Every advertised namespace has its own gossiper as the handler of its protocol. -/
def Owned (px : PeerExchange) : Prop :=
  ∀ ns g, px.gossiper ns = some g → px.handlers (proto ns) = some g.id

/-- If the event creates a gossiper, its namespace has a protocol that no advertised
namespace has. -/
def Separate (px : PeerExchange) (e : Event) : Prop :=
  ∀ ns now, e = .advertise ns now → px.closed = false → px.gossiper ns = none →
    ∀ ns' g, px.gossiper ns' = some g → proto ns' ≠ proto ns

/-- The exchange as a registry: a gossiper owns its namespace and its handler
holds the protocol. -/
def registry (px : PeerExchange) : Registry Namespace Key Nat where
  owner ns := (px.gossiper ns).map Gossiper.id
  holder := px.handlers

variable {newParams} {px : PeerExchange} {ns : Namespace}

theorem owner_eq_some {n : Nat} : px.registry.owner ns = some n ↔ ∃ g, px.gossiper ns = some g ∧ g.id = n :=
  Option.map_eq_some_iff

theorem owned_iff_held : px.Owned ↔ Registry.Held proto px.registry := by
  constructor
  · intro owned ns n found
    obtain ⟨g, isGossiper, equal⟩ := owner_eq_some.mp found
    exact equal ▸ owned ns g isGossiper
  · intro held ns g found
    exact held ns g.id (owner_eq_some.mpr ⟨g, found, rfl⟩)

theorem separate_advertise_iff (now : Int) (running : px.closed = false) (unknown : px.gossiper ns = none) :
    px.Separate (.advertise ns now) ↔ Registry.Free proto px.registry ns := by
  constructor
  · intro separate ns' n found
    obtain ⟨g, isGossiper, _⟩ := owner_eq_some.mp found
    exact separate ns now rfl running unknown ns' g isGossiper
  · intro free ns₁ now₁ same _ _ ns' g found
    cases same
    exact free ns' g.id (owner_eq_some.mpr ⟨g, found, rfl⟩)

theorem gossiper_insert (ad : Advertiser) :
    gossiper { px with advertisers := px.advertisers.insert ns ad } =
      Function.update px.gossiper ns (some ad.gossiper) := by
  funext ns'
  by_cases same : ns' = ns
  · subst same
    rw [Function.update_self, gossiper, AList.lookup_insert, Option.map_some]
  · rw [Function.update_of_ne same, gossiper, AList.lookup_insert_ne same, gossiper]

theorem gossiper_stop : (px.stop ns).gossiper = Function.update px.gossiper ns none := by
  funext ns'
  by_cases same : ns' = ns
  · subst same
    rw [Function.update_self, gossiper, stop, AList.lookup_erase, Option.map_none]
  · rw [Function.update_of_ne same, gossiper, stop, AList.lookup_erase_ne same, gossiper]

theorem owner_update_gossiper {px' : PeerExchange} {g : Option Gossiper}
    (updated : px'.gossiper = Function.update px.gossiper ns g) :
    px'.registry.owner = Function.update px.registry.owner ns (g.map Gossiper.id) := by
  funext ns'
  show (px'.gossiper ns').map Gossiper.id = _
  by_cases same : ns' = ns
  · rw [updated, same, Function.update_self, Function.update_self]
  · rw [updated, Function.update_of_ne same, Function.update_of_ne same, registry]

/-- A namespace that is advertised again only gets a new deadline. -/
theorem getOrCreateGossiper_known (newParams : Namespace → GossipConfig) (now : Int) {g : Gossiper}
    (known : px.gossiper ns = some g) :
    (px.getOrCreateGossiper newParams ns now).1.gossiper = px.gossiper ∧
      (px.getOrCreateGossiper newParams ns now).1.handlers = px.handlers ∧
      (px.getOrCreateGossiper newParams ns now).1.next = px.next := by
  obtain ⟨ad, found, isGossiper⟩ := Option.map_eq_some_iff.mp known
  simp only [getOrCreateGossiper, found, and_true]
  have same : (ad.resetTTL now).gossiper = g := isGossiper
  rw [gossiper_insert, same, ← known, Function.update_eq_self]

theorem getOrCreateGossiper_unknown (newParams : Namespace → GossipConfig) (now : Int)
    (unknown : px.gossiper ns = none) :
    (px.getOrCreateGossiper newParams ns now).1.gossiper =
        Function.update px.gossiper ns (some ⟨px.next, newParams ns⟩) ∧
      (px.getOrCreateGossiper newParams ns now).1.handlers =
        Function.update px.handlers (proto ns) (some px.next) ∧
      (px.getOrCreateGossiper newParams ns now).1.next = px.next + 1 := by
  have absent : px.advertisers.lookup ns = none := Option.map_eq_none_iff.mp unknown
  simp only [getOrCreateGossiper, absent, newGossiper, and_true]
  exact gossiper_insert _

theorem closed_getOrCreateGossiper (newParams : Namespace → GossipConfig) (now : Int) :
    (px.getOrCreateGossiper newParams ns now).1.closed = px.closed := by
  cases found : px.advertisers.lookup ns with
  | none => simp only [getOrCreateGossiper, found, newGossiper]
  | some ad => simp only [getOrCreateGossiper, found]

theorem registry_known (newParams : Namespace → GossipConfig) (now : Int) {g : Gossiper}
    (known : px.gossiper ns = some g) :
    (px.getOrCreateGossiper newParams ns now).1.registry = px.registry := by
  obtain ⟨gossipers, handlers, _⟩ := getOrCreateGossiper_known newParams now known
  rw [registry, gossipers, handlers, registry]

theorem registry_unknown (newParams : Namespace → GossipConfig) (now : Int) (unknown : px.gossiper ns = none) :
    (px.getOrCreateGossiper newParams ns now).1.registry = px.registry.claim proto ns px.next := by
  obtain ⟨gossipers, handlers, _⟩ := getOrCreateGossiper_unknown newParams now unknown
  exact Registry.ext (owner_update_gossiper gossipers) handlers

theorem registry_stop : (px.stop ns).registry = px.registry.release proto ns :=
  Registry.ext (owner_update_gossiper gossiper_stop) rfl

theorem expire_cases (px : PeerExchange) (turn : Namespace × Int) :
    px.expire turn = px ∨ ∃ g, px.gossiper turn.1 = some g ∧ px.expire turn = px.stop turn.1 := by
  cases found : px.advertisers.lookup turn.1 with
  | none =>
    left
    simp only [expire, found]
  | some ad =>
    by_cases isOver : ad.expired turn.2
    · right
      refine ⟨ad.gossiper, ?_, ?_⟩
      · rw [gossiper, found, Option.map_some]
      · simp only [expire, found, isOver, if_true]
    · left
      simp only [expire, found, isOver, Bool.false_eq_true, if_false]

theorem gossiper_of_stop {ns' : Namespace} {g : Gossiper} (found : (px.stop ns).gossiper ns' = some g) :
    ns' ≠ ns ∧ px.gossiper ns' = some g := by
  rw [gossiper_stop] at found
  rcases Function.update_cases found with ⟨_, removed⟩ | kept
  · cases removed
  · exact kept

theorem gossiper_of_stops (nss : List Namespace) {ns' : Namespace} {g : Gossiper}
    (found : (nss.foldl stop px).gossiper ns' = some g) : ns' ∉ nss ∧ px.gossiper ns' = some g := by
  induction nss generalizing px with
  | nil => exact ⟨List.not_mem_nil, found⟩
  | cons ns rest ih =>
    obtain ⟨notRest, earlier⟩ := ih found
    obtain ⟨notFirst, before⟩ := gossiper_of_stop earlier
    refine ⟨fun member => ?_, before⟩
    rcases List.mem_cons.mp member with first | inRest
    · exact notFirst first
    · exact notRest inRest

theorem gossiper_close (px : PeerExchange) (ns : Namespace) : px.close.gossiper ns = none := by
  rw [Option.eq_none_iff_forall_ne_some]
  intro g found
  obtain ⟨absent, known⟩ := gossiper_of_stops px.advertisers.keys found
  obtain ⟨ad, isThere, _⟩ := Option.map_eq_some_iff.mp known
  exact absent (AList.lookup_isSome.mp (by rw [isThere]; rfl))

/-- A tick keeps the gossipers it keeps as they are, and makes none. -/
theorem tick_shrinks (px : PeerExchange) (turns : List (Namespace × Int)) :
    (turns.foldl expire px).next = px.next ∧
      ∀ ns g, (turns.foldl expire px).gossiper ns = some g → px.gossiper ns = some g := by
  induction turns generalizing px with
  | nil => exact ⟨rfl, fun _ _ found => found⟩
  | cons turn rest ih =>
    obtain ⟨next, kept⟩ := ih (px.expire turn)
    rcases px.expire_cases turn with same | ⟨_, _, stopped⟩
    · rw [same] at next kept
      rw [List.foldl_cons, same]
      exact ⟨next, kept⟩
    · rw [stopped] at next kept
      rw [List.foldl_cons, stopped]
      exact ⟨next, fun ns g found => (gossiper_of_stop (kept ns g found)).2⟩

theorem closed_tick (px : PeerExchange) (turns : List (Namespace × Int)) :
    (turns.foldl expire px).closed = px.closed := by
  induction turns generalizing px with
  | nil => rfl
  | cons turn rest ih =>
    rw [List.foldl_cons, ih]
    rcases px.expire_cases turn with same | ⟨_, _, stopped⟩
    · rw [same]
    · rw [stopped, stop]

/-- Where a gossiper comes from: it was there before the event, or the event
advertised its namespace and gave it the next number. -/
theorem handle_cases {e : Event} {g : Gossiper} (found : (px.handle newParams e).gossiper ns = some g) :
    (px.gossiper ns = some g ∧ px.next ≤ (px.handle newParams e).next) ∨
      ((∃ now, e = .advertise ns now) ∧ g.id < (px.handle newParams e).next) := by
  cases running : px.closed with
  | true =>
    simp only [handle, running, if_true] at found ⊢
    exact Or.inl ⟨found, le_rfl⟩
  | false =>
    simp only [handle, running, Bool.false_eq_true, if_false] at found ⊢
    cases e with
    | tick turns =>
      obtain ⟨next, kept⟩ := px.tick_shrinks turns
      exact Or.inl ⟨kept ns g found, next.ge⟩
    | close =>
      rw [gossiper_close] at found
      cases found
    | advertise ns' now =>
      cases isKnown : px.gossiper ns' with
      | some g' =>
        obtain ⟨gossipers, _, next⟩ := getOrCreateGossiper_known newParams now isKnown
        rw [gossipers] at found
        exact Or.inl ⟨found, next.ge⟩
      | none =>
        obtain ⟨gossipers, _, next⟩ := getOrCreateGossiper_unknown newParams now isKnown
        simp only [next]
        rw [gossipers] at found
        by_cases same : ns = ns'
        · rw [same, Function.update_self, Option.some.injEq] at found
          rw [← found, same]
          exact Or.inr ⟨⟨now, rfl⟩, Nat.lt_succ_self _⟩
        · rw [Function.update_of_ne same] at found
          exact Or.inl ⟨found, Nat.le_succ _⟩

/-- The numbers that gossipers have were given out before. -/
def Numbered (px : PeerExchange) : Prop :=
  ∀ ns g, px.gossiper ns = some g → g.id < px.next

theorem Numbered.handle (numbered : px.Numbered) (e : Event) : (px.handle newParams e).Numbered := by
  intro ns g found
  rcases handle_cases found with ⟨before, grows⟩ | ⟨_, given⟩
  · exact (numbered ns g before).trans_le grows
  · exact given

theorem run_concat (events : List Event) (e : Event) :
    run newParams (events ++ [e]) = (run newParams events).handle newParams e := by
  rw [run, List.foldl_append]
  rfl

theorem numbered_run (events : List Event) : (run newParams events).Numbered :=
  List.foldlRecOn events (handle newParams) (by nofun) fun _ kept e _ => kept.handle e

theorem settled_expire (settled : Registry.Settled proto px.registry) (turn : Namespace × Int) :
    Registry.Settled proto (px.expire turn).registry := by
  rcases px.expire_cases turn with same | ⟨g, known, stopped⟩
  · rw [same]
    exact settled
  · rw [stopped, registry_stop]
    exact settled.release (owner_eq_some.mpr ⟨g, known, rfl⟩)

theorem settled_tick (settled : Registry.Settled proto px.registry) (turns : List (Namespace × Int)) :
    Registry.Settled proto (turns.foldl expire px).registry := by
  induction turns generalizing px with
  | nil => exact settled
  | cons turn rest ih => exact ih (settled_expire settled turn)

/-- An event that creates no gossiper for a protocol in use leaves every handler
with its namespace. -/
theorem settled_handle (settled : Registry.Settled proto px.registry) {e : Event} (separate : px.Separate e) :
    Registry.Settled proto (px.handle newParams e).registry := by
  cases running : px.closed with
  | true =>
    simp only [handle, running, if_true]
    exact settled
  | false =>
    simp only [handle, running, Bool.false_eq_true, if_false]
    cases e with
    | advertise ns now =>
      cases isKnown : px.gossiper ns with
      | some g =>
        show Registry.Settled proto (px.getOrCreateGossiper newParams ns now).1.registry
        rw [registry_known newParams now isKnown]
        exact settled
      | none =>
        show Registry.Settled proto (px.getOrCreateGossiper newParams ns now).1.registry
        rw [registry_unknown newParams now isKnown]
        exact settled.claim ((separate_advertise_iff now running isKnown).mp separate)
    | tick turns =>
      exact settled_tick settled turns
    | close =>
      refine Registry.settled_of_unowned fun ns => ?_
      show (px.close.gossiper ns).map Gossiper.id = none
      rw [gossiper_close, Option.map_none]

/-- A gossiper created for a protocol in use takes it from the namespace that had it. -/
theorem separate_of_owned {e : Event} (numbered : px.Numbered) (owned : (px.handle newParams e).Owned) :
    px.Separate e := by
  intro ns now isAdvertise running unknown
  subst isAdvertise
  have after : px.handle newParams (.advertise ns now) = (px.getOrCreateGossiper newParams ns now).1 := by
    simp only [handle, running, Bool.false_eq_true, if_false]
  have held := owned_iff_held.mp owned
  rw [after, registry_unknown newParams now unknown] at held
  have unowned : px.registry.owner ns = none := Option.map_eq_none_iff.mpr unknown
  have fresh : ∀ ns', px.registry.owner ns' ≠ some px.next := by
    intro ns' isNext
    obtain ⟨g, known, equal⟩ := owner_eq_some.mp isNext
    have := numbered ns' g known
    omega
  have free := Registry.free_of_held_claim unowned fresh held
  exact (separate_advertise_iff now running unknown).mpr free ns now rfl running unknown

theorem settled_run {events : List Event}
    (separate : ∀ before e, before ++ [e] <+: events → (run newParams before).Separate e) :
    Registry.Settled proto (run newParams events).registry := by
  induction events using List.reverseRecOn with
  | nil => exact Registry.settled_of_unowned fun _ => rfl
  | append_singleton events e ih =>
    rw [run_concat]
    refine settled_handle (ih fun before e' isBefore => ?_) (separate events e List.prefix_rfl)
    exact separate before e' (isBefore.trans (List.prefix_append events [e]))

/-- Only a namespace that was advertised has a gossiper. -/
theorem advertised_of_gossiper {events : List Event} {g : Gossiper}
    (found : (run newParams events).gossiper ns = some g) : ∃ now, .advertise ns now ∈ events := by
  induction events using List.reverseRecOn generalizing g with
  | nil => cases found
  | append_singleton events e ih =>
    rw [run_concat] at found
    rcases handle_cases found with ⟨before, _⟩ | ⟨⟨now, isAdvertise⟩, _⟩
    · obtain ⟨now, member⟩ := ih before
      exact ⟨now, List.mem_append_left _ member⟩
    · exact ⟨now, by rw [isAdvertise]; simp⟩

/-- The handlers belong to their namespaces throughout a run exactly when no step
creates a gossiper for a protocol that an advertised namespace has. -/
theorem owned_iff_separate (newParams : Namespace → GossipConfig) (events : List Event) :
    (∀ before, before <+: events → (run newParams before).Owned) ↔
      ∀ before e, before ++ [e] <+: events → (run newParams before).Separate e := by
  constructor
  · intro owned before e isBefore
    have after := owned (before ++ [e]) isBefore
    rw [run_concat] at after
    exact separate_of_owned (numbered_run before) after
  · intro separate before isBefore
    refine owned_iff_held.mpr (settled_run fun earlier e isEarlier => ?_).held
    exact separate earlier e (isEarlier.trans isBefore)

/-- Namespaces that are single names never take each other's handlers. -/
theorem owned_of_names {events : List Event} (names : ∀ ns now, .advertise ns now ∈ events → GoPath.IsName ns) :
    (run newParams events).Owned := by
  refine owned_iff_held.mpr (settled_run ?_).held
  intro before e isBefore ns now isAdvertise _ unknown ns' g known same
  have inEvents : ∀ e' ∈ before ++ [e], e' ∈ events := fun e' member => isBefore.subset member
  obtain ⟨now', advertised⟩ := advertised_of_gossiper known
  have name := names ns now (inEvents _ (by rw [isAdvertise]; simp))
  have name' := names ns' now' (inEvents _ (List.mem_append_left _ advertised))
  rw [proto_of_name name, proto_of_name name'] at same
  have equal : ns' = ns := by simpa using same
  rw [equal, unknown] at known
  cases known

/-- The namespaces `a` and `a/` have one protocol, which the second one takes. -/
theorem not_owned_same_path :
    ¬ (run (fun _ => defaultGossipConfig) [.advertise [97] 0, .advertise [97, 47] 0]).Owned := by
  intro owned
  have taken := owned [97] ⟨0, defaultGossipConfig⟩ rfl
  cases taken

end PeerExchange

end Casm.Pex
