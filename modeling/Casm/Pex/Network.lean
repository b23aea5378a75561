import Casm.Lib.Steps
import Casm.Pex.Authentic
import Casm.Pex.Selection

namespace Casm.Pex.Network

variable {W : Identities}

/-- The nodes of a namespace. Each has the rounds of its gossiper and the record that it
announces at the moment. What a round has pushed is on its stream, with the record that
it was pushed for. -/
structure Net (W : Identities) where
  sys : Nat → System W
  own : Nat → GossipRecord W
  wire : Nat → Nat → Option (GossipRecord W × View W)

/-- A round `i` of a node `v` pulls what a round `j` of a node `u` has pushed, or what an
intruder sends. -/
inductive Event (W : Identities) where
  | announce (v : Nat) (own : GossipRecord W)
  | load (v i : Nat)
  | push (v i : Nat)
  | pull (v i u j : Nat)
  | intrude (v i : Nat) (remote : View W)
  | store (v i : Nat)
  | abort (v i : Nat)

namespace Net

def setSys (s : Net W) (v : Nat) (sys : System W) : Net W :=
  { s with sys := Function.update s.sys v sys }

def setWire (s : Net W) (v i : Nat) (pushed : GossipRecord W × View W) : Net W :=
  { s with wire := Function.update s.wire v (Function.update (s.wire v) i (some pushed)) }

end Net

/-- Each node takes the steps of its own rounds. A round pushes the record that the node
announces then, and pulls when it has pushed. -/
inductive Step (nodes : Nat → Node W) : Net W → Event W → Net W → Prop
  | announce {s : Net W} {v : Nat} {own : GossipRecord W} : own.peerID = (nodes v).self → own.hop = 0 →
      Step nodes s (.announce v own) { s with own := Function.update s.own v own }
  | load {s : Net W} {v i : Nat} {sys : System W} : Pex.Step (nodes v) (s.sys v) (.load i) sys →
      Step nodes s (.load v i) (s.setSys v sys)
  | push {s : Net W} {v i : Nat} {loc buffer : View W} : (s.sys v).rounds i = .loaded loc → s.wire v i = none →
      pushBuffer (nodes v).cfg (s.own v) loc = .ok buffer →
      Step nodes s (.push v i) (s.setWire v i (s.own v, buffer))
  | pull {s : Net W} {v i u j : Nat} {own other : GossipRecord W} {mine buffer : View W} {sys : System W} :
      s.wire v i = some (own, mine) → s.wire u j = some (other, buffer) →
      Pex.Step (nodes v) (s.sys v) (.exchange i own buffer) sys → Step nodes s (.pull v i u j) (s.setSys v sys)
  | intrude {s : Net W} {v i : Nat} {own : GossipRecord W} {mine remote : View W} {sys : System W} :
      s.wire v i = some (own, mine) → Pex.Step (nodes v) (s.sys v) (.exchange i own remote) sys →
      Step nodes s (.intrude v i remote) (s.setSys v sys)
  | store {s : Net W} {v i : Nat} {sys : System W} : Pex.Step (nodes v) (s.sys v) (.store i) sys →
      Step nodes s (.store v i) (s.setSys v sys)
  | abort {s : Net W} {v i : Nat} {sys : System W} : Pex.Step (nodes v) (s.sys v) (.abort i) sys →
      Step nodes s (.abort v i) (s.setSys v sys)

/-- Nothing has happened yet. -/
structure Begins (nodes : Nat → Node W) (s : Net W) : Prop where
  fresh : ∀ v, Fresh (nodes v) (s.sys v)
  own : ∀ v, s.own v = (nodes v).own
  wire : ∀ v i, s.wire v i = none

section Origin

/-- Every record that the node stores or has in hand has the property. -/
structure Contains (n : Node W) (Q : GossipRecord W → Prop) (sys : System W) : Prop where
  inScope : Scoped W n.ns sys.store
  stored : ∀ r, sys.Stores n r → Q r
  loaded : ∀ i loc, sys.rounds i = .loaded loc → ∀ r ∈ loc, Q r
  exchanged : ∀ i loc remote, sys.rounds i = .exchanged loc remote → ∀ r ∈ loc ++ remote, Q r

/-- Every record in the network has the property. -/
structure Everywhere (nodes : Nat → Node W) (Q : GossipRecord W → Prop) (s : Net W) : Prop where
  node : ∀ v, Contains (nodes v) Q (s.sys v)
  own : ∀ v, Q (s.own v)
  wire : ∀ v i own buffer, s.wire v i = some (own, buffer) → Q own ∧ ∀ r ∈ buffer, Q r

variable {n : Node W} {Q : GossipRecord W → Prop} {sys sys' : System W} {nodes : Nat → Node W} {s s' : Net W}

theorem Contains.fresh (fresh : Fresh n sys) : Contains n Q sys := by
  have foreign := fresh.foreign
  have idle {i : Nat} {phase : Phase W} (isPhase : sys.rounds i = phase) : phase = .idle :=
    isPhase.symm.trans (fresh.idle i)
  refine ⟨foreign.inScope, fun r stored => ?_, fun i loc isPhase => ?_, fun i loc remote isPhase => ?_⟩
  · have member := mem_entriesBelow.mpr ⟨key_below n.ns r, stored⟩
    rw [fresh.empty] at member
    cases member
  · cases idle isPhase
  · cases idle isPhase

theorem Contains.setRound (contains : Contains n Q sys) {i : Nat} {phase : Phase W}
    (loaded : ∀ loc, phase = .loaded loc → ∀ r ∈ loc, Q r)
    (exchanged : ∀ loc remote, phase = .exchanged loc remote → ∀ r ∈ loc ++ remote, Q r) :
    Contains n Q (sys.setRound i phase) := by
  refine ⟨contains.inScope, contains.stored, fun j loc isPhase => ?_, fun j loc remote isPhase => ?_⟩
  · rcases System.setRound_cases isPhase with same | old
    · exact loaded loc same.symm
    · exact contains.loaded j loc old
  · rcases System.setRound_cases isPhase with same | old
    · exact exchanged loc remote same.symm
    · exact contains.exchanged j loc remote old

theorem mem_pushed {cfg : GossipConfig} {own r : GossipRecord W} {loc : View W} (member : r ∈ pushed cfg own loc) :
    r ∈ loc ∨ r = own :=
  List.mem_or_eq_of_mem_set member

theorem persists_of_loadView (inScope : Scoped W n.ns sys.store) {faults : Faults} {view : View W}
    (loads : loadView W n.ns faults sys.store = .ok view) : Persists n.ns sys.store view := by
  obtain ⟨v, persists⟩ := inScope.persists
  rw [persists.loadView_eq] at loads
  cases done : faults.attempt [.query, .rest] with
  | error fault =>
    rw [done] at loads
    cases loads
  | ok _ =>
    rw [done] at loads
    cases loads
    exact persists

/-- A round only handles records that were stored, announced or received. -/
theorem Contains.step {e : Pex.Event W} (travels : ∀ r, Q r → Q r.incrHop) (contains : Contains n Q sys)
    (received : ∀ i own remote, e = .exchange i own remote → Q own ∧ ∀ r ∈ remote, Q r)
    (step : Pex.Step n sys e sys') : Contains n Q sys' := by
  cases step with
  | @load i view loc draws idle loads pushes =>
    refine contains.setRound (fun loc' same r member => ?_) (fun _ _ same => by cases same)
    cases same
    have persists := persists_of_loadView contains.inScope loads
    exact contains.stored r (persists.mem_iff.mp ((pushView_perm pushes).mem_iff.mp member))
  | @exchange i loc own remote isPhase _ _ =>
    obtain ⟨ownHolds, remoteHolds⟩ := received i own remote rfl
    refine contains.setRound (fun _ same => by cases same) (fun loc' remote' same r member => ?_)
    cases same
    rcases List.mem_append.mp member with inLoc | inRemote
    · rcases mem_pushed inLoc with old | rfl
      · exact contains.loaded i loc isPhase r old
      · exact ownHolds
    · exact remoteHolds r inRemote
  | @store i loc remote new draws isPhase merged =>
    have finished : Contains n Q (sys.setRound i .finished) :=
      contains.setRound (fun _ same => by cases same) (fun _ _ same => by cases same)
    refine ⟨contains.inScope.store loc new, fun r stored => ?_, finished.loaded, finished.exchanged⟩
    rcases mem_or_stored_before stored with member | kept
    · obtain ⟨y, inMerged, -, rfl⟩ := mem_merge merged member
      exact travels y (contains.exchanged i loc remote isPhase y (List.mem_append.mpr (View.mem_of_merged inMerged)))
    · exact contains.stored r kept
  | abort => exact contains.setRound (fun _ same => by cases same) (fun _ _ same => by cases same)

theorem Everywhere.begins (begins : Begins nodes s) (own : ∀ v, Q (nodes v).own) : Everywhere nodes Q s where
  node v := .fresh (begins.fresh v)
  own v := begins.own v ▸ own v
  wire v i own buffer isWire := by cases (begins.wire v i).symm.trans isWire

theorem Everywhere.setSys (everywhere : Everywhere nodes Q s) {v : Nat} (contains : Contains (nodes v) Q sys) :
    Everywhere nodes Q (s.setSys v sys) where
  node := (Function.forall_update_iff s.sys fun u sys => Contains (nodes u) Q sys).mpr
    ⟨contains, fun u _ => everywhere.node u⟩
  own := everywhere.own
  wire := everywhere.wire

theorem wire_setWire {v i u j : Nat} {pushed found : GossipRecord W × View W}
    (isWire : (s.setWire v i pushed).wire u j = some found) : (u = v ∧ j = i ∧ found = pushed) ∨ s.wire u j = some found := by
  by_cases same : u = v
  · subst same
    simp only [Net.setWire, Function.update_self] at isWire
    rcases Function.update_cases isWire with ⟨rfl, isNew⟩ | ⟨-, old⟩
    · exact .inl ⟨rfl, rfl, (Option.some.inj isNew).symm⟩
    · exact .inr old
  · simp only [Net.setWire, Function.update_of_ne same] at isWire
    exact .inr isWire

/-- A property of records that survives the way to the next node holds of all records in
the network, if it holds of what nodes announce and of what intruders send. -/
theorem Everywhere.step {e : Event W} (travels : ∀ r, Q r → Q r.incrHop) (everywhere : Everywhere nodes Q s)
    (announced : ∀ v own, e = .announce v own → Q own)
    (intruded : ∀ v i remote, e = .intrude v i remote → ∀ r ∈ remote, Q r) (step : Step nodes s e s') :
    Everywhere nodes Q s' := by
  cases step with
  | @announce v own _ _ =>
    exact ⟨everywhere.node, (Function.forall_update_iff s.own fun _ own => Q own).mpr
      ⟨announced v own rfl, fun u _ => everywhere.own u⟩, everywhere.wire⟩
  | load step => exact everywhere.setSys ((everywhere.node _).step travels (fun _ _ _ same => by cases same) step)
  | @push v i loc buffer isPhase _ built =>
    refine ⟨everywhere.node, everywhere.own, fun u j own' buffer' isWire => ?_⟩
    rcases wire_setWire isWire with ⟨rfl, rfl, same⟩ | old
    · cases same
      refine ⟨everywhere.own u, fun r member => ?_⟩
      rw [pushBuffer_eq_ok built, List.mem_append, List.mem_singleton] at member
      rcases member with inFront | rfl
      · exact (everywhere.node u).loaded j loc isPhase r (List.mem_of_mem_take inFront)
      · exact everywhere.own u
    · exact everywhere.wire u j own' buffer' old
  | @pull v i u j own other mine buffer sys isOwn isOther step =>
    refine everywhere.setSys ((everywhere.node v).step travels (fun i' own' remote' same => ?_) step)
    cases same
    exact ⟨(everywhere.wire v i own mine isOwn).1, (everywhere.wire u j other buffer isOther).2⟩
  | @intrude v i own mine remote sys isOwn step =>
    refine everywhere.setSys ((everywhere.node v).step travels (fun i' own' remote' same => ?_) step)
    cases same
    exact ⟨(everywhere.wire v i own mine isOwn).1, intruded v i remote rfl⟩
  | store step => exact everywhere.setSys ((everywhere.node _).step travels (fun _ _ _ same => by cases same) step)
  | abort step => exact everywhere.setSys ((everywhere.node _).step travels (fun _ _ _ same => by cases same) step)

theorem Everywhere.imp {Q' : GossipRecord W → Prop} (weaker : ∀ r, Q r → Q' r) (everywhere : Everywhere nodes Q s) :
    Everywhere nodes Q' s where
  node v :=
    { inScope := (everywhere.node v).inScope
      stored := fun r stored => weaker r ((everywhere.node v).stored r stored)
      loaded := fun i loc isPhase r member => weaker r ((everywhere.node v).loaded i loc isPhase r member)
      exchanged := fun i loc remote isPhase r member =>
        weaker r ((everywhere.node v).exchanged i loc remote isPhase r member) }
  own v := weaker _ (everywhere.own v)
  wire v i own buffer isWire := (everywhere.wire v i own buffer isWire).imp (weaker own)
    fun holds r member => weaker r (holds r member)

end Origin

section Announcements

variable {nodes : Nat → Node W} {start s : Net W} {events later : List (Event W)} {r : GossipRecord W}

/-- The node begins with the record, or has announced it since. -/
def Announced (nodes : Nat → Node W) (events : List (Event W)) (v : Nat) (own : GossipRecord W) : Prop :=
  own = (nodes v).own ∨ .announce v own ∈ events

/-- A record of one of the nodes is in an envelope that the node has announced. Of other
peers there may be any records, and the hop counter is not signed. -/
def Genuine (nodes : Nat → Node W) (events : List (Event W)) (r : GossipRecord W) : Prop :=
  (∃ v, (nodes v).self = r.peerID) → ∃ v own, (nodes v).self = r.peerID ∧ Announced nodes events v own ∧
    r.message.envelope = own.message.envelope

/-- Intruders send any views, but cannot sign for a node. -/
def Unforged (nodes : Nat → Node W) (events : List (Event W)) : Prop :=
  ∀ before v i remote after, events = before ++ .intrude v i remote :: after → ∀ r ∈ remote, Genuine nodes before r

theorem Genuine.append (genuine : Genuine nodes events r) (later : List (Event W)) :
    Genuine nodes (events ++ later) r := by
  intro isNode
  obtain ⟨v, own, isSelf, announced, sameEnvelope⟩ := genuine isNode
  exact ⟨v, own, isSelf, announced.imp_right (List.mem_append_left later), sameEnvelope⟩

theorem Genuine.of_announced {v : Nat} (own : r.peerID = (nodes v).self) (announced : Announced nodes events v r) :
    Genuine nodes events r :=
  fun _ => ⟨v, r, own.symm, announced, rfl⟩

theorem Unforged.of_append (unforged : Unforged nodes (events ++ later)) : Unforged nodes events := by
  intro before v i remote after equal
  refine unforged before v i remote (after ++ later) ?_
  rw [equal, List.append_assoc, List.cons_append]

theorem everywhere_genuine (begins : Begins nodes start) (unforged : Unforged nodes events)
    (steps : Steps (Step nodes) start events s) : Everywhere nodes (Genuine nodes events) s := by
  induction events using List.reverseRecOn generalizing s with
  | nil =>
    cases Steps.nil_iff.mp steps
    exact .begins begins fun v => .of_announced rfl (.inl rfl)
  | append_singleton events e ih =>
    obtain ⟨s', before, step⟩ := Steps.concat_iff.mp steps
    have everywhere := (ih unforged.of_append before).imp fun r genuine => genuine.append [e]
    refine everywhere.step (fun r genuine => genuine) (fun v own isAnnounce => ?_)
      (fun v i remote isIntrude r member => ?_) step
    · subst isAnnounce
      have isOwn : own.peerID = (nodes v).self := by
        cases step with
        | announce isOwn _ => exact isOwn
      exact .of_announced isOwn (.inr (by simp))
    · subst isIntrude
      exact (unforged events v i remote [] rfl r member).append _

theorem peerRecord_eq_of_envelope {own : GossipRecord W} (same : r.message.envelope = own.message.envelope) :
    r.peerRecord = own.peerRecord := by
  obtain ⟨pk, opened, _⟩ := r.selfSigned
  obtain ⟨pk', opened', _⟩ := own.selfSigned
  rw [same, opened'] at opened
  exact (congrArg Prod.fst (Except.ok.inj opened)).symm

/-- In any network, however the rounds of its nodes interleave and fail, and whatever
views intruders send that cannot sign for a node: what is under way of a node is what it
has announced itself, and the addresses that a node hands out for another are those of
one of the other's announcements. -/
theorem gossip_relays_announcements (begins : Begins nodes start) (unforged : Unforged nodes events)
    (steps : Steps (Step nodes) start events s) :
    (∀ v i own buffer, s.wire v i = some (own, buffer) → ∀ r ∈ buffer, Genuine nodes events r) ∧
    ∀ u faults draws infos, getCachedPeers W (nodes u).ns faults draws (s.sys u).store = .ok infos →
      ∀ info ∈ infos, (∃ v, (nodes v).self = info.id) → ∃ v own, (nodes v).self = info.id ∧
        Announced nodes events v own ∧ info = ⟨own.peerRecord.peerID, own.peerRecord.addrs⟩ := by
  have everywhere := everywhere_genuine begins unforged steps
  refine ⟨fun v i own buffer isWire => (everywhere.wire v i own buffer isWire).2, ?_⟩
  intro u faults draws infos returns info member isNode
  obtain ⟨view, loads, r, inView, rfl⟩ := mem_getCachedPeers returns member
  have contains := everywhere.node u
  have stored : (s.sys u).Stores (nodes u) r := (persists_of_loadView contains.inScope loads).mem_iff.mp inView
  obtain ⟨v, own, isSelf, announced, sameEnvelope⟩ := contains.stored r stored isNode
  exact ⟨v, own, isSelf, announced, by rw [peerRecord_eq_of_envelope sameEnvelope]⟩

/-- Node zero is the one with peer ID one, and all others have peer ID two. -/
def twoNodes : Nat → Node plainIdentities
  | 0 => plainNode 6
  | _ + 1 => { plainNode 6 with own := peerTwo 1 0, own_new := rfl }

def twoNet : Net plainIdentities where
  sys _ := emptySystem
  own v := (twoNodes v).own
  wire _ _ := none

theorem twoNet_begins : Begins twoNodes twoNet where
  fresh _ := ⟨fun _ => rfl, rfl⟩
  own _ := rfl
  wire _ _ := rfl

/-- An intruder replays the record of the second node, with a record of its own. -/
def replayed : List (Event plainIdentities) :=
  [.load 0 0, .push 0 0, .intrude 0 0 [peerThree 1 1, peerTwo 1 0], .store 0 0]

theorem replayed_unforged : Unforged twoNodes replayed := by
  intro before v i remote after equal r member
  have sent : Event.intrude v i remote ∈ replayed := by
    rw [equal]
    exact List.mem_append_right before List.mem_cons_self
  simp only [replayed, List.mem_cons, List.not_mem_nil, Event.intrude.injEq, reduceCtorEq, false_or, or_false] at sent
  obtain ⟨_, _, rfl⟩ := sent
  have genuine : Genuine twoNodes [] r := by
    rcases List.mem_cons.mp member with rfl | member
    · rintro ⟨v, isSelf⟩
      cases v with
      | zero => cases isSelf
      | succ v => cases isSelf
    · rw [List.mem_singleton] at member
      subst member
      exact .of_announced (v := 1) rfl (.inl rfl)
  exact genuine.append before

theorem gossip_relays_announcements_replayed : ∃ s, Steps (Step twoNodes) twoNet replayed s ∧
    getCachedPeers plainIdentities (twoNodes 0).ns noFaults plainDraws (s.sys 0).store =
      .ok [⟨[3], []⟩, ⟨[2], []⟩] ∧
    ∃ v own, (twoNodes v).self = [2] ∧ Announced twoNodes replayed v own ∧
      (⟨[2], []⟩ : AddrInfo) = ⟨own.peerRecord.peerID, own.peerRecord.addrs⟩ := by
  obtain ⟨s, steps, stored⟩ : ∃ s, Steps (Step twoNodes) twoNet replayed s ∧
      (s.sys 0).store = (∅ : RootDatastore).commit (storeBatch (twoNodes 0).ns []
        [peerTwo 1 1, peerThree 1 2]) :=
    ⟨_, .cons (.load (.load plainDraws rfl rfl rfl)) (.cons (.push rfl rfl rfl)
      (.cons (.intrude rfl (.exchange rfl rfl rfl)) (.cons (.store (.store plainDraws rfl rfl)) .nil))), rfl⟩
  have persists : Persists (twoNodes 0).ns (s.sys 0).store [peerThree 1 2, peerTwo 1 1] := by
    rw [stored]
    rfl
  have returns : getCachedPeers plainIdentities (twoNodes 0).ns noFaults plainDraws (s.sys 0).store =
      .ok [⟨[3], []⟩, ⟨[2], []⟩] := by
    rw [getCachedPeers, persists.loadView_eq]
    rfl
  have origin := (gossip_relays_announcements twoNet_begins replayed_unforged steps).2 0 noFaults plainDraws _ returns
  exact ⟨s, steps, returns, origin ⟨[2], []⟩ (by simp) ⟨1, rfl⟩⟩

end Announcements

end Casm.Pex.Network
