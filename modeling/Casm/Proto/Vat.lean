import Casm.Lib.LastWrite
import Casm.Proto.Matcher

namespace Casm.Vat
open GoPath Proto
open Casm.Pex (bytes)

abbrev ID := List UInt8

/-- `Vat.protocolsFor`. A capability is given by its `Protocols`. -/
def protocolsFor (ns : ID) (c : List ID) : List ID :=
  c.map fun id => subprotocol ns [id]

/-- What the stream handler of an exported protocol has captured. -/
structure Export where
  cap : List ID
  boot : Nat
  deriving DecidableEq

/-- What a host runs for the streams of a protocol. Not all of its handlers are set by the
vat: the ping and the peer exchange of the host have theirs. -/
inductive Handler where
  | exported (e : Export)
  | foreign
  deriving DecidableEq

def Handler.export? : Handler → Option Export
  | .exported e => some e
  | .foreign => none

/-- Where the handler of a stream is between the calls of the metric reporter: it counts
the protocol, then the connection, serves it until it is done, and takes both back. -/
inductive Phase where
  | accepted
  | opening
  | serving
  | closing
  | closed
  deriving DecidableEq

/-- A stream that a handler was started for. -/
structure Stream where
  client : Nat
  server : Nat
  wanted : List ID
  id : ID
  handler : Export
  phase : Phase

/-- The stream handlers of the host of each vat, what its peerstore knows of the others,
the streams that were accepted, and the gauges of its metrics. -/
structure State where
  handlers : Nat → ID → Option Handler
  known : Nat → Nat → Option (List ID)
  streams : List Stream
  gauge : Nat → ID → Int

/-- `Export` and `Embargo` go through the protocols of the capability one by one. Other
components of a host register handlers as they like. -/
inductive Event where
  | exports (w : Nat) (c : List ID) (boot : Nat) (id : ID)
  | embargoes (w : Nat) (c : List ID) (id : ID)
  | register (w : Nat) (id : ID)
  | unregister (w : Nat) (id : ID)
  | identify (v w : Nat) (ids : List ID)
  | accept (v w : Nat) (c : List ID) (id : ID)
  | proceed (i : Nat)

def connectedKey : ID :=
  bytes "rpc.connected"

/-- `fmt.Sprintf("rpc.%s", id)`. -/
def protocolKey (id : ID) : ID :=
  bytes "rpc." ++ id

/-- The next call of the reporter in the handler of a stream: the phase that follows, the
gauge and its change. -/
def Stream.next (st : Stream) : Option (Phase × ID × Int) :=
  match st.phase with
  | .accepted => some (.opening, protocolKey st.id, 1)
  | .opening => some (.serving, connectedKey, 1)
  | .serving => some (.closing, protocolKey st.id, -1)
  | .closing => some (.closed, connectedKey, -1)
  | .closed => none

namespace State

variable (ns : Nat → ID) (reports : Nat → Bool)

def setHandler (s : State) (w : Nat) (id : ID) (handler : Option Handler) : State :=
  { s with handlers := Function.update s.handlers w (Function.update (s.handlers w) id handler) }

/-- `Incr` and `Decr`, which a vat without a reporter leaves out. -/
def report (s : State) (w : Nat) (key : ID) (change : Int) : State :=
  if reports w then
    { s with gauge := Function.update s.gauge w (Function.update (s.gauge w) key (s.gauge w key + change)) }
  else s

def setKnown (s : State) (v w : Nat) (ids : List ID) : State :=
  { s with known := Function.update s.known v (Function.update (s.known v) w (some ids)) }

def addStream (s : State) (st : Stream) : State :=
  { s with streams := s.streams ++ [st] }

def setPhase (s : State) (i : Nat) (st : Stream) (phase : Phase) : State :=
  { s with streams := s.streams.set i { st with phase := phase } }

/-- The handler of a stream goes on. -/
def proceed (s : State) (i : Nat) (st : Stream) : Option State :=
  st.next.map fun (phase, key, change) => (s.setPhase i st phase).report reports st.server key change

/-- What the host last set for the protocol, if it is of the vat. -/
def exported (s : State) (w : Nat) (id : ID) : Option Export :=
  (s.handlers w id).bind Handler.export?

/-- A host accepts a stream for a protocol that it has a handler for. What it learns of the
protocols of another are some of those that the other's host handles, of the vat or not, or
that it knew of before. -/
def step (s : State) : Event → Option State
  | .exports w c boot id =>
    if (protocolsFor (ns w) c).contains id then some (s.setHandler w id (some (.exported ⟨c, boot⟩))) else none
  | .embargoes w c id => if (protocolsFor (ns w) c).contains id then some (s.setHandler w id none) else none
  | .register w id => some (s.setHandler w id (some .foreign))
  | .unregister w id => some (s.setHandler w id none)
  | .identify v w ids =>
    if ids.all fun id => (s.handlers w id).isSome || ((s.known v w).getD []).contains id then
      some (s.setKnown v w ids)
    else none
  | .accept v w c id =>
    if (protocolsFor (ns v) c).contains id then
      (s.exported w id).map fun handler => s.addStream ⟨v, w, c, id, handler, .accepted⟩
    else none
  | .proceed i => (s.streams[i]?).bind (s.proceed reports i)

end State

section System

variable (ns : Nat → ID) (reports : Nat → Bool)

def machine : Machine State Event where
  start := ⟨fun _ _ => none, fun _ _ => none, [], fun _ _ => 0⟩
  step := State.step ns reports

variable (w : Nat) (id : ID)

/-- The host of the vat is given a handler for the protocol. -/
def Sets (_ : State) (e : Event) (handler : Handler) : Prop :=
  (∃ c boot, e = .exports w c boot id ∧ handler = .exported ⟨c, boot⟩) ∨ (e = .register w id ∧ handler = .foreign)

/-- The handler for the protocol is taken away. -/
def Removes (e : Event) (_ : Handler) : Prop :=
  (∃ c, e = .embargoes w c id) ∨ e = .unregister w id

/-- After the events the host has the handler that was last set for the protocol. -/
def Handled (events : List Event) (handler : Handler) : Prop :=
  (machine ns reports).Last (Sets w id) (Removes w id) events handler

/-- After the events the protocol is exported, with the handler of the last export of a
capability that has it. -/
def Exported (events : List Event) (handler : Export) : Prop :=
  Handled ns reports w id events (.exported handler)

end System

section Protocols

variable {ns ns' p p' : ID}

/-- The protocol has no steps up, which could leave the namespace. -/
def Descends (p : ID) : Prop :=
  ∀ segment ∈ split p, segment ≠ [dot, dot]

theorem subprotocol_of_descends (name : IsName ns) (descends : Descends p) :
    Pex.subprotocol ns [p] = Proto.base ++ ns :: rooted p := by
  have pieces : [ns, p].flatMap split = ns :: split p := by
    rw [List.flatMap_cons, List.flatMap_singleton, split, List.splitOn_eq_singleton name.noSlash]
    rfl
  have below : ∀ s ∈ ns :: split p, s ≠ [dot, dot] := List.forall_mem_cons.mpr ⟨name.notDots, descends⟩
  rw [subprotocol_eq_append_iff, pieces, relative_ups below, relative_names, clean_cons_of_descends name descends]
  rfl

/-- In namespaces that are single names, protocols that descend are told apart by their
namespace and by their path. -/
theorem subprotocol_inj (name : IsName ns) (name' : IsName ns') (descends : Descends p) (descends' : Descends p')
    (same : subprotocol ns [p] = subprotocol ns' [p']) : ns = ns' ∧ rooted p = rooted p' := by
  have paths : Pex.subprotocol ns [p] = Pex.subprotocol ns' [p'] := by
    rw [← components_subprotocol, same, components_subprotocol]
  rw [subprotocol_of_descends name descends, subprotocol_of_descends name' descends', List.append_cancel_left_eq,
    List.cons.injEq] at paths
  exact paths

theorem head_of_mem_protocolsFor {c : List ID} {id : ID} (member : id ∈ protocolsFor ns c) :
    id.head? = some slash := by
  obtain ⟨p, _, rfl⟩ := List.mem_map.mp member
  rw [subprotocol_eq]
  rfl

end Protocols

section Handlers

variable {ns : Nat → ID} {reports : Nat → Bool} {s s' : State} {w : Nat} {id : ID} {events : List Event}

theorem handlers_setHandler {w' : Nat} {id' : ID} {handler : Option Handler} :
    (s.setHandler w' id' handler).handlers w id = if w = w' ∧ id = id' then handler else s.handlers w id := by
  by_cases same : w = w'
  · subst same
    by_cases sameId : id = id'
    · subst sameId
      simp [State.setHandler]
    · simp [State.setHandler, sameId]
  · simp [State.setHandler, same]

@[simp] theorem report_handlers {key : ID} {change : Int} :
    (s.report reports w key change).handlers = s.handlers := by
  rw [State.report]
  split <;> rfl

@[simp] theorem report_streams {key : ID} {change : Int} : (s.report reports w key change).streams = s.streams := by
  rw [State.report]
  split <;> rfl

variable (ns reports s) in
/-- What a step can do. -/
inductive Turn : Event → State → Prop
  | exports {w : Nat} {c : List ID} {boot : Nat} {id : ID} (own : id ∈ protocolsFor (ns w) c) :
      Turn (.exports w c boot id) (s.setHandler w id (some (.exported ⟨c, boot⟩)))
  | embargoes {w : Nat} {c : List ID} {id : ID} (own : id ∈ protocolsFor (ns w) c) :
      Turn (.embargoes w c id) (s.setHandler w id none)
  | register {w : Nat} {id : ID} : Turn (.register w id) (s.setHandler w id (some .foreign))
  | unregister {w : Nat} {id : ID} : Turn (.unregister w id) (s.setHandler w id none)
  | identify {v w : Nat} {ids : List ID}
      (handled : ∀ id ∈ ids, (∃ handler, s.handlers w id = some handler) ∨ ∃ old, s.known v w = some old ∧ id ∈ old) :
      Turn (.identify v w ids) (s.setKnown v w ids)
  | accept {v w : Nat} {c : List ID} {id : ID} {handler : Export} (wanted : id ∈ protocolsFor (ns v) c)
      (isHandler : s.handlers w id = some (.exported handler)) :
      Turn (.accept v w c id) (s.addStream ⟨v, w, c, id, handler, .accepted⟩)
  | proceed {i : Nat} {st : Stream} {phase : Phase} {key : ID} {change : Int} (isStream : s.streams[i]? = some st)
      (isNext : st.next = some (phase, key, change)) :
      Turn (.proceed i) ((s.setPhase i st phase).report reports st.server key change)

theorem exported_eq_some {handler : Export} :
    s.exported w id = some handler ↔ s.handlers w id = some (.exported handler) := by
  rw [State.exported]
  rcases s.handlers w id with _ | _ | _
  · simp
  · simp [Handler.export?]
  · simp [Handler.export?]

theorem turn_of_step {e : Event} (step : (machine ns reports).step s e = some s') : Turn ns reports s e s' := by
  have step : s.step ns reports e = some s' := step
  cases e with
  | exports w c boot id =>
    rw [State.step] at step
    split at step
    next own => exact Option.some.inj step ▸ .exports (List.contains_iff_mem.mp own)
    next => cases step
  | embargoes w c id =>
    rw [State.step] at step
    split at step
    next own => exact Option.some.inj step ▸ .embargoes (List.contains_iff_mem.mp own)
    next => cases step
  | register w id => exact Option.some.inj step ▸ .register
  | unregister w id => exact Option.some.inj step ▸ .unregister
  | identify v w ids =>
    rw [State.step] at step
    split at step
    next handled =>
      refine Option.some.inj step ▸ .identify fun id member => ?_
      rcases Bool.or_eq_true_iff.mp (List.all_eq_true.mp handled id member) with isSome | isOld
      · exact .inl (Option.isSome_iff_exists.mp isSome)
      · cases isKnown : s.known v w with
        | none =>
          rw [isKnown] at isOld
          cases isOld
        | some old =>
          rw [isKnown] at isOld
          exact .inr ⟨old, rfl, List.contains_iff_mem.mp isOld⟩
    next => cases step
  | accept v w c id =>
    rw [State.step] at step
    split at step
    next wanted =>
      obtain ⟨handler, isHandler, rfl⟩ := Option.map_eq_some_iff.mp step
      exact .accept (List.contains_iff_mem.mp wanted) (exported_eq_some.mp isHandler)
    next => cases step
  | proceed i =>
    obtain ⟨st, isStream, proceeds⟩ := Option.bind_eq_some_iff.mp step
    obtain ⟨⟨phase, key, change⟩, isNext, same⟩ := Option.map_eq_some_iff.mp proceeds
    exact same ▸ .proceed isStream isNext

/-- What a step does to the handler of a protocol. -/
theorem handlers_turn {e : Event} (turn : Turn ns reports s e s') :
    (∃ handler, Sets w id s e handler ∧ s'.handlers w id = some handler) ∨
      ((∀ handler, ¬ Sets w id s e handler) ∧
        ((∀ handler, Removes w id e handler) ∧ s'.handlers w id = none ∨
          (∀ handler, ¬ Removes w id e handler) ∧ s'.handlers w id = s.handlers w id)) := by
  cases turn with
  | @exports w' c boot id' own =>
    by_cases same : w = w' ∧ id = id'
    · obtain ⟨rfl, rfl⟩ := same
      exact .inl ⟨_, .inl ⟨c, boot, rfl, rfl⟩, by simp [handlers_setHandler]⟩
    · rw [handlers_setHandler, if_neg same]
      exact .inr (by simp_all [Sets, Removes, eq_comm])
  | @embargoes w' c id' own =>
    by_cases same : w = w' ∧ id = id'
    · obtain ⟨rfl, rfl⟩ := same
      exact .inr (by simp [Sets, Removes, handlers_setHandler])
    · rw [handlers_setHandler, if_neg same]
      exact .inr (by simp_all [Sets, Removes, eq_comm])
  | @register w' id' =>
    by_cases same : w = w' ∧ id = id'
    · obtain ⟨rfl, rfl⟩ := same
      exact .inl ⟨_, .inr ⟨rfl, rfl⟩, by simp [handlers_setHandler]⟩
    · rw [handlers_setHandler, if_neg same]
      exact .inr (by simp_all [Sets, Removes, eq_comm])
  | @unregister w' id' =>
    by_cases same : w = w' ∧ id = id'
    · obtain ⟨rfl, rfl⟩ := same
      exact .inr (by simp [Sets, Removes, handlers_setHandler])
    · rw [handlers_setHandler, if_neg same]
      exact .inr (by simp_all [Sets, Removes, eq_comm])
  | identify handled => exact .inr (by simp [Sets, Removes, State.setKnown])
  | accept wanted isHandler => exact .inr (by simp [Sets, Removes, State.addStream])
  | proceed isStream isNext => exact .inr (by simp [Sets, Removes, State.setPhase])

theorem Sets.inj {e : Event} {handler handler' : Handler} (sets : Sets w id s e handler)
    (sets' : Sets w id s e handler') : handler = handler' := by
  rcases sets with ⟨c, boot, rfl, rfl⟩ | ⟨rfl, rfl⟩
  · rcases sets' with ⟨c', boot', same, rfl⟩ | ⟨same, _⟩
    · cases same
      rfl
    · cases same
  · rcases sets' with ⟨_, _, same, _⟩ | ⟨_, rfl⟩
    · cases same
    · rfl

/-- The handler of a protocol is a place that is written when one is set, and cleared when
it is removed. -/
theorem register_handlers (ns : Nat → ID) (reports : Nat → Bool) (w : Nat) (id : ID) :
    (machine ns reports).Register (fun _ _ => True) (fun s => s.handlers w id) (Sets w id) (Removes w id) where
  start := rfl
  written {s e s' handler} _ step sets := by
    rcases handlers_turn (turn_of_step step) with ⟨handler', sets', isHandler⟩ | ⟨noSet, _⟩
    · exact sets.inj sets' ▸ isHandler
    · exact absurd sets (noSet handler)
  kept {s e s' handler} _ step noSet := by
    rcases handlers_turn (turn_of_step step) with ⟨handler', sets', _⟩ | ⟨_, ⟨removes, isNone⟩ | ⟨keeps, same⟩⟩
    · exact absurd sets' (noSet handler')
    · simp [isNone, removes]
    · simp [same, keeps]

theorem handlers_iff (reached : (machine ns reports).run events = some s) {handler : Handler} :
    s.handlers w id = some handler ↔ Handled ns reports w id events handler :=
  (register_handlers ns reports w id).read_iff (fun _ _ _ _ _ _ _ => trivial) reached

/-- What is exported is a protocol of the capability in the namespace of the vat. -/
theorem Exported.mem (reached : (machine ns reports).run events = some s) {handler : Export}
    (exported : Exported ns reports w id events handler) : id ∈ protocolsFor (ns w) handler.cap := by
  obtain ⟨before, _, after, s₀, rfl, isBefore, sets, _⟩ := exported
  obtain ⟨s₁, step⟩ := Machine.step_of_run reached isBefore
  rcases sets with ⟨c, boot, rfl, same⟩ | ⟨_, same⟩
  · cases same
    cases turn_of_step step with
    | exports own => exact own
  · cases same

/-- A capability with one protocol. -/
def echo : List ID :=
  [bytes "/echo"]

def echoID : ID :=
  bytes "/casm/0.0.0/casm/echo"

/-- Three vats, the last of which is in another namespace. -/
def threeNames (v : Nat) : ID :=
  if v = 2 then bytes "other" else bytes "casm"

/-- Two vats export the capability, each in its namespace, and a third uses it in its own. -/
def echoRun : List Event :=
  [.exports 1 echo 0 echoID, .exports 2 echo 1 (bytes "/casm/0.0.0/other/echo"), .identify 0 1 [echoID],
    .accept 0 1 echo echoID, .proceed 0, .proceed 0]

end Handlers

section Streams

variable {ns : Nat → ID} {reports : Nat → Bool} {s s' : State} {events : List Event} {st : Stream}

variable (ns reports) in
/-- The stream was accepted while the protocol was exported with its handler. -/
def Began (events : List Event) (st : Stream) : Prop :=
  ∃ before, before ++ [.accept st.client st.server st.wanted st.id] <+: events ∧
    st.id ∈ protocolsFor (ns st.client) st.wanted ∧ Exported ns reports st.server st.id before st.handler

theorem Began.later {e : Event} (began : Began ns reports events st) : Began ns reports (events ++ [e]) st := by
  obtain ⟨before, inside, rest⟩ := began
  exact ⟨before, inside.trans (List.prefix_append _ _), rest⟩

/-- A new stream comes from a request that is accepted, and the others only go on. -/
theorem streams_turn {e : Event} (turn : Turn ns reports s e s') (member : st ∈ s'.streams) :
    (∃ phase, { st with phase := phase } ∈ s.streams) ∨
      e = .accept st.client st.server st.wanted st.id ∧ st.id ∈ protocolsFor (ns st.client) st.wanted ∧
        s.handlers st.server st.id = some (.exported st.handler) := by
  cases turn with
  | accept wanted isHandler =>
    rcases List.mem_append.mp member with old | new
    · exact .inl ⟨st.phase, old⟩
    · cases List.mem_singleton.mp new
      exact .inr ⟨rfl, wanted, isHandler⟩
  | @proceed i st₀ phase key change isStream isNext =>
    rw [report_streams] at member
    rcases List.mem_or_eq_of_mem_set member with old | rfl
    · exact .inl ⟨st.phase, old⟩
    · exact .inl ⟨st₀.phase, List.mem_of_getElem? isStream⟩
  | exports own => exact .inl ⟨st.phase, member⟩
  | embargoes own => exact .inl ⟨st.phase, member⟩
  | register => exact .inl ⟨st.phase, member⟩
  | unregister => exact .inl ⟨st.phase, member⟩
  | identify handled => exact .inl ⟨st.phase, member⟩

theorem began_run (reached : (machine ns reports).run events = some s) (member : st ∈ s.streams) :
    Began ns reports events st := by
  induction events using List.reverseRecOn generalizing s st with
  | nil =>
    cases reached
    cases member
  | append_singleton events e ih =>
    obtain ⟨s₀, isBefore, step⟩ := Machine.run_concat.mp reached
    rcases streams_turn (turn_of_step step) member with ⟨phase, old⟩ | ⟨rfl, wanted, isHandler⟩
    · exact (ih isBefore old).later
    · exact ⟨events, List.prefix_rfl, wanted, (handlers_iff isBefore).mp isHandler⟩

/-- A client is served in its own namespace: where the namespaces of vats are single names
and protocols take no steps up, whoever serves a stream is a vat of the client's namespace,
and it had exported a capability that has the protocol that the client asked for. -/
theorem served_in_namespace (reached : (machine ns reports).run events = some s) (member : st ∈ s.streams)
    (names : ∀ v, IsName (ns v)) (wanted : ∀ p ∈ st.wanted, Descends p) (offered : ∀ p ∈ st.handler.cap, Descends p) :
    ns st.client = ns st.server ∧ (∃ p ∈ st.wanted, ∃ p' ∈ st.handler.cap, rooted p = rooted p') ∧
      Began ns reports events st := by
  obtain ⟨before, ⟨after, split⟩, isWanted, exported⟩ := began_run reached member
  obtain ⟨s₀, isBefore⟩ : ∃ s₀, (machine ns reports).run before = some s₀ := by
    rw [← split, List.append_assoc] at reached
    exact Machine.run_front reached
  obtain ⟨p, inWanted, isID⟩ := List.mem_map.mp isWanted
  obtain ⟨p', inCap, isID'⟩ := List.mem_map.mp (exported.mem isBefore)
  obtain ⟨sameNS, samePath⟩ := subprotocol_inj (names _) (names _) (wanted p inWanted) (offered p' inCap)
    (isID.trans isID'.symm)
  exact ⟨sameNS, ⟨p, inWanted, p', inCap, samePath⟩, began_run reached member⟩

theorem threeNames_isName (v : Nat) : IsName (threeNames v) := by
  unfold threeNames
  split
  · exact ⟨by decide, by decide, by decide, by decide⟩
  · exact casm_isName

theorem served_in_namespace_echo : ∃ s st, (machine threeNames fun _ => true).run echoRun = some s ∧
    s.streams = [st] ∧ threeNames st.client = threeNames st.server ∧
      (∃ p ∈ st.wanted, ∃ p' ∈ st.handler.cap, rooted p = rooted p') ∧ Began threeNames (fun _ => true) echoRun st := by
  have reached : (machine threeNames fun _ => true).run echoRun = some _ := rfl
  have descends : ∀ p ∈ echo, Descends p := by
    unfold Descends
    decide
  exact ⟨_, _, reached, rfl, served_in_namespace reached List.mem_cons_self threeNames_isName descends descends⟩

end Streams

section Gauges

variable {ns : Nat → ID} {reports : Nat → Bool} {s s' : State} {events : List Event} {w : Nat} {key : ID}

/-- The handler has counted the protocol of the stream and not taken it back. -/
def Stream.countsProtocol (st : Stream) : Bool :=
  st.phase = .opening ∨ st.phase = .serving

/-- The handler has counted the connection and not taken it back. -/
def Stream.countsConnection (st : Stream) : Bool :=
  st.phase = .serving ∨ st.phase = .closing

/-- What a stream has added to a gauge of a vat. -/
def Stream.share (w : Nat) (key : ID) (st : Stream) : Int :=
  if st.server = w then
    (if key = protocolKey st.id ∧ st.countsProtocol then 1 else 0) +
      (if key = connectedKey ∧ st.countsConnection then 1 else 0)
  else 0

theorem share_next {st : Stream} {phase : Phase} {key' : ID} {change : Int}
    (isNext : st.next = some (phase, key', change)) :
    ({ st with phase := phase } : Stream).share w key =
      st.share w key + if st.server = w ∧ key = key' then change else 0 := by
  by_cases serves : st.server = w
  · rw [Stream.next] at isNext
    split at isNext
    all_goals
      rename_i isPhase
      cases isNext
    all_goals
      simp [Stream.share, Stream.countsProtocol, Stream.countsConnection, isPhase, serves]
    all_goals split_ifs <;> rfl
  · simp [Stream.share, serves]

theorem gauge_report {w' : Nat} {key' : ID} {change : Int} (reporting : reports w = true) :
    (s.report reports w' key' change).gauge w key = s.gauge w key + if w' = w ∧ key = key' then change else 0 := by
  rw [State.report]
  by_cases same : w' = w
  · subst same
    rw [if_pos reporting]
    by_cases sameKey : key = key'
    · subst sameKey
      simp
    · simp [sameKey]
  · split
    · simp [same, Ne.symm same]
    · simp [same]

theorem sum_set_share {l : List Stream} {i : Nat} {st st' : Stream} (isStream : l[i]? = some st) :
    ((l.set i st').map (·.share w key)).sum = (l.map (·.share w key)).sum - st.share w key + st'.share w key := by
  obtain ⟨inside, isEntry⟩ := List.getElem?_eq_some_iff.mp isStream
  rw [List.map_set, List.sum_set', dif_pos (by simpa using inside), List.getElem_map, isEntry]
  ring

/-- Every gauge of a vat that reports is the sum of what its streams have added. -/
theorem gauge_eq_sum (reached : (machine ns reports).run events = some s) (reporting : reports w = true) (key : ID) :
    s.gauge w key = (s.streams.map (·.share w key)).sum := by
  induction events using List.reverseRecOn generalizing s with
  | nil =>
    cases reached
    rfl
  | append_singleton events e ih =>
    obtain ⟨s₀, isBefore, step⟩ := Machine.run_concat.mp reached
    have earlier := ih isBefore
    cases turn_of_step step with
    | @proceed i st phase key' change isStream isNext =>
      have streams : (s₀.setPhase i st phase).streams = s₀.streams.set i { st with phase := phase } := rfl
      have before : (s₀.setPhase i st phase).gauge w key = s₀.gauge w key := rfl
      rw [report_streams, streams, gauge_report reporting, before, earlier, sum_set_share isStream, share_next isNext]
      ring
    | @accept v w' c id handler wanted isHandler =>
      have streams : (s₀.addStream ⟨v, w', c, id, handler, .accepted⟩).streams =
          s₀.streams ++ [⟨v, w', c, id, handler, .accepted⟩] := rfl
      have new : Stream.share w key ⟨v, w', c, id, handler, .accepted⟩ = 0 := by
        simp [Stream.share, Stream.countsProtocol, Stream.countsConnection]
      rw [streams, List.map_append, List.sum_append, ← earlier, List.map_singleton, List.sum_singleton, new, add_zero]
      rfl
    | exports own => exact earlier
    | embargoes own => exact earlier
    | register => exact earlier
    | unregister => exact earlier
    | identify handled => exact earlier

theorem sum_share_eq_count {l : List Stream} {counted : Stream → Bool}
    (each : ∀ st ∈ l, st.share w key = if counted st then 1 else 0) :
    (l.map (·.share w key)).sum = (l.countP counted : Int) := by
  induction l with
  | nil => rfl
  | cons st l ih =>
    obtain ⟨first, rest⟩ := List.forall_mem_cons.mp each
    rw [List.map_cons, List.sum_cons, first, ih rest, List.countP_cons]
    split <;> simp [add_comm]

theorem protocolKey_ne_connectedKey {id : ID} (isRooted : id.head? = some slash) : protocolKey id ≠ connectedKey := by
  intro same
  have parts : connectedKey = bytes "rpc." ++ bytes "connected" := by decide
  rw [protocolKey, parts, List.append_cancel_left_eq] at same
  rw [same] at isRooted
  revert isRooted
  decide

/-- The gauges of a vat that reports tell how many streams its handlers have counted and
not taken back, in all and for each protocol, in whatever order the handlers run. -/
theorem gauges_count_streams (reached : (machine ns reports).run events = some s) (reporting : reports w = true) :
    s.gauge w connectedKey = (s.streams.countP fun st => st.server = w ∧ st.countsConnection : Nat) ∧
      ∀ id : ID, id.head? = some slash → s.gauge w (protocolKey id) =
        (s.streams.countP fun st => st.server = w ∧ st.id = id ∧ st.countsProtocol : Nat) := by
  have isRooted : ∀ st ∈ s.streams, st.id.head? = some slash := by
    intro st member
    obtain ⟨_, _, wanted, _⟩ := began_run reached member
    exact head_of_mem_protocolsFor wanted
  constructor
  · rw [gauge_eq_sum reached reporting]
    refine sum_share_eq_count fun st member => ?_
    have other : connectedKey ≠ protocolKey st.id := (protocolKey_ne_connectedKey (isRooted st member)).symm
    by_cases serves : st.server = w <;> simp [Stream.share, serves, other]
  · intro id rooted
    rw [gauge_eq_sum reached reporting]
    refine sum_share_eq_count fun st member => ?_
    have other := protocolKey_ne_connectedKey rooted
    have sameKey : protocolKey id = protocolKey st.id ↔ st.id = id := by
      rw [protocolKey, protocolKey, List.append_cancel_left_eq]
      exact eq_comm
    by_cases serves : st.server = w <;> simp [Stream.share, serves, other, sameKey]

theorem gauges_count_streams_echo : ∃ s, (machine threeNames fun _ => true).run echoRun = some s ∧
    s.gauge 1 connectedKey = 1 ∧ s.gauge 1 (protocolKey echoID) = 1 := by
  have reached : (machine threeNames fun _ => true).run echoRun = some _ := rfl
  have counted := gauges_count_streams (w := 1) reached rfl
  exact ⟨_, reached, counted.1.trans rfl, (counted.2 echoID rfl).trans rfl⟩

end Gauges

section Connect

variable {ns : Nat → ID} {reports : Nat → Bool} {s : State} {events : List Event} {v w : Nat} {c : List ID}

end Connect

end Casm.Vat
