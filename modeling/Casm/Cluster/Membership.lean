import Casm.Lib.LastWrite
import Casm.Pulse.Validator

namespace Casm.Cluster.Membership
open MultiIndex Routing Pulse

deriving instance DecidableEq for Message

/-- The routers of a cluster, each with the routing table of its validator while it
runs, and the messages that were ever published. -/
structure State (E : Engine schema) where
  published : List Message
  table : Nat → Option (Table E)

inductive Event where
  | start (n : Nat) (t : Int)
  | crash (n : Nat)
  | publish (m : Message)
  | deliver (n : Nat) (m : Message)
  | tick (n : Nat) (t : Int)

section Cluster

variable (decode : Bytes → Except String Heartbeat) (b58 : Bytes → Bytes) {E : Engine schema}

namespace State

def setTable (s : State E) (n : Nat) (table : Option (Table E)) : State E :=
  { s with table := Function.update s.table n table }

/-- A panic of the validator or of the clock takes the router down. -/
def settle (s : State E) (n : Nat) {α : Type} : Table E × Except Fault α → State E
  | (table, .ok _) => s.setTable n (some table)
  | (_, .error _) => s.setTable n none

/-- Published messages arrive at any router at any time, in any order, any number of
times or not at all. A router validates one message at a time, and one that starts again
has lost its table. -/
def step (s : State E) : Event → Option (State E)
  | .start n t => if (s.table n).isNone then some (s.setTable n (some (.new t))) else none
  | .crash n => some (s.setTable n none)
  | .publish m => some { s with published := m :: s.published }
  | .deliver n m =>
    if m ∈ s.published then (s.table n).map fun table => s.settle n (validate decode b58 table m) else none
  | .tick n t => (s.table n).map fun table => s.settle n (table.advance t)

/-- What the router knows of the peer. -/
def lookup (s : State E) (n : Nat) (p : Bytes) : Option DeadlineRecord :=
  (s.table n).bind fun table => E.first table.records .id (b58 p)

end State

variable (E) in
def machine : Machine (State E) Event where
  start := ⟨[], fun _ => none⟩
  step := State.step decode b58

/-- A message with a heartbeat that can be indexed, or with none that decodes. -/
def Sound (m : Message) : Prop :=
  ∀ h, decode m.data = .ok h → m.sender ≠ [] ∧ 8 ≤ m.seqno.length ∧ h.Readable

/-- A time before the year 2116, which leaves room for every lifetime. -/
def Epoch (t : Int) : Prop :=
  0 ≤ t ∧ t < 2 ^ 62

/-- What a run may contain: published messages are sound and clocks are in range. -/
def Admissible : Event → Prop
  | .publish m => Sound decode m
  | .start _ t | .tick _ t => Epoch t
  | _ => True

/-- The validator of the router accepts a heartbeat of the peer, which is stored with
its lifetime counted from the clock of the table. -/
def Accepts (n : Nat) (p : Bytes) (s : State E) (e : Event) (r : DeadlineRecord) : Prop :=
  ∃ m table rec, e = .deliver n m ∧ s.table n = some table ∧ m.sender = p ∧ readRecord decode b58 m = .ok rec ∧
    (validate decode b58 table m).2 = .ok .accept ∧ r = table.withDeadline rec

/-- The router crashes, or its clock passes the deadline. -/
def Ends (n : Nat) (e : Event) (r : DeadlineRecord) : Prop :=
  e = .crash n ∨ ∃ t, e = .tick n t ∧ r.deadline < t

/-- A table with its map, none of whose records is overdue. -/
structure Current (table : Table E) (map : ExpiringMap) : Prop where
  represents : Represents b58 table map
  clock : Epoch map.clock
  deadline : ∀ p r, map.entries p = some r → map.clock ≤ r.deadline ∧ r.deadline < 2 ^ 63

structure Good (s : State E) : Prop where
  sound : ∀ m ∈ s.published, Sound decode m
  current : ∀ n table, s.table n = some table → ∃ map, Current b58 table map

variable {decode b58} {s s' : State E} {n : Nat} {m : Message} {h : Heartbeat} {table : Table E} {map : ExpiringMap}

theorem duration_bounds (h : Heartbeat) : 0 ≤ h.duration ∧ h.duration < 2 ^ 62 := by
  have small := h.ttl.toNat_lt
  rw [Heartbeat.duration, defaultTTL]
  split <;> omega

theorem Sound.conforms (sound : Sound decode m) (decoded : decode m.data = .ok h) :
    (routingRecord b58 m h).Conforms b58 := by
  obtain ⟨named, long, ⟨name, host⟩, fields⟩ := sound h decoded
  exact ⟨named, rfl, ⟨name, congrArg some host⟩, fields, bigEndianUint64_ok_iff.mpr long⟩

theorem Current.new {t : Int} (epoch : Epoch t) : Current b58 (Table.new t : Table E) (.new t) where
  represents := .initially b58 t
  clock := epoch
  deadline p r found := by cases found

theorem Current.put (current : Current b58 table map) {table' : Table E}
    (represents : Represents b58 table' (map.put (routingRecord b58 m h))) :
    Current b58 table' (map.put (routingRecord b58 m h)) := by
  refine ⟨represents, current.clock, fun p r found => ?_⟩
  rcases ExpiringMap.put_cases found with ⟨-, rfl⟩ | old
  · have bounds := duration_bounds h
    have epoch := current.clock
    unfold Epoch at epoch
    show map.clock ≤ map.clock + h.duration ∧ map.clock + h.duration < 2 ^ 63
    omega
  · exact current.deadline p r old

theorem validate_of_upsert (decoded : decode m.data = .ok h) {table' : Table E} {fresh : Bool}
    (upserts : table.upsert b58 (routingRecord b58 m h) = (table', .ok fresh)) :
    validate decode b58 table m = (table', .ok (if fresh then .accept else .ignore)) := by
  rw [validate, readRecord_of_decode decode b58 decoded]
  simp only [upserts]
  cases fresh with
  | true => rfl
  | false => rfl

/-- A heartbeat that decodes is accepted or ignored as the map would have it. -/
theorem Current.validate (keys : IdKeys b58) (current : Current b58 table map) (sound : Sound decode m)
    (decoded : decode m.data = .ok h) : ∃ table',
      Pulse.validate decode b58 table m =
        (table', .ok (if map.accepts (routingRecord b58 m h) then .accept else .ignore)) ∧
      Current b58 table' (map.upsert (routingRecord b58 m h)).1 := by
  obtain ⟨reply, represents⟩ := current.represents.upsert_spec keys (sound.conforms decoded) b58
  cases accepted : map.accepts (routingRecord b58 m h) with
  | true =>
    rw [ExpiringMap.upsert, accepted] at reply represents ⊢
    exact ⟨_, validate_of_upsert decoded (Prod.ext rfl reply), current.put represents⟩
  | false =>
    rw [ExpiringMap.upsert, accepted] at reply represents ⊢
    exact ⟨_, validate_of_upsert decoded (Prod.ext rfl reply), represents, current.clock, current.deadline⟩

theorem Current.advance (keys : IdKeys b58) (current : Current b58 table map) {t : Int} (epoch : Epoch t) :
    (table.advance t).2 = .ok () ∧ Current b58 (table.advance t).1 (map.advance t) := by
  have inRange {d : Int} (lower : map.clock ≤ d) (upper : d < 2 ^ 63) : Representable d :=
    ⟨current.clock.1.trans lower, upper⟩
  obtain ⟨reply, represents⟩ := current.represents.advance_spec keys
    (fun later => inRange later.le (epoch.2.trans (by norm_num)))
    fun p r found => inRange (current.deadline p r found).1 (current.deadline p r found).2
  refine ⟨reply, represents, ?_, fun p r found => ?_⟩
  · rw [ExpiringMap.advance]
    split
    · exact current.clock
    · exact epoch
  · rw [ExpiringMap.advance] at found ⊢
    split at found
    next early =>
      rw [if_pos early]
      exact current.deadline p r found
    next late =>
      obtain ⟨stored, due⟩ := Option.filter_eq_some_iff.mp found
      rw [if_neg late]
      exact ⟨not_lt.mp (of_decide_eq_true due), (current.deadline p r stored).2⟩

/-- Since no record is overdue, a clock that goes back drops nothing either. -/
theorem Current.entries_advance (current : Current b58 table map) {t : Int} {p : Bytes} {r : DeadlineRecord} :
    (map.advance t).entries p = some r ↔ map.entries p = some r ∧ ¬ r.deadline < t := by
  rw [ExpiringMap.advance]
  split
  next early =>
    refine ⟨fun found => ⟨found, ?_⟩, And.left⟩
    have overdue := (current.deadline p r found).1
    omega
  next => simp [Option.filter_eq_some_iff]

theorem Current.lookup (keys : IdKeys b58) (current : Current b58 table map) (isTable : s.table n = some table)
    {p : Bytes} (named : p ≠ []) : s.lookup b58 n p = map.entries p := by
  rw [State.lookup, isTable]
  exact current.represents.first_eq keys named

theorem Good.setTable (good : Good decode b58 s) {table : Option (Table E)}
    (fine : ∀ table', table = some table' → ∃ map, Current b58 table' map) : Good decode b58 (s.setTable n table) := by
  refine ⟨good.sound, fun n' table' found => ?_⟩
  rcases Function.update_cases found with ⟨-, same⟩ | ⟨-, old⟩
  · exact fine table' same
  · exact good.current n' table' old

/-- A sound message never takes a router down. It is stored if the map accepts it. -/
theorem Good.deliver_cases (keys : IdKeys b58) (good : Good decode b58 s)
    (step : s.step decode b58 (.deliver n m) = some s') : ∃ table map table' map',
      s.table n = some table ∧ Current b58 table map ∧ Current b58 table' map' ∧ s' = s.setTable n (some table') ∧
      ((∃ h, decode m.data = .ok h ∧ validate decode b58 table m = (table', .ok .accept) ∧
          map' = map.put (routingRecord b58 m h)) ∨
        (validate decode b58 table m).2 ≠ .ok .accept ∧ map' = map ∧
          ∀ h, decode m.data = .ok h → map.accepts (routingRecord b58 m h) = false) := by
  rw [State.step] at step
  split at step
  next isPublished =>
    obtain ⟨table, isTable, result⟩ := Option.map_eq_some_iff.mp step
    obtain ⟨map, current⟩ := good.current n table isTable
    cases decoded : decode m.data with
    | error msg =>
      have rejected : validate decode b58 table m = (table, .ok .reject) := by
        rw [validate, readRecord_of_error decode b58 decoded]
      rw [rejected] at result
      refine ⟨table, map, table, map, isTable, current, current, result.symm, .inr ⟨?_, rfl, fun h same => ?_⟩⟩
      · rw [rejected]
        intro same
        cases same
      · cases same
    | ok h =>
      obtain ⟨table', validated, current'⟩ := current.validate keys (good.sound m isPublished) decoded
      rw [validated] at result
      refine ⟨table, map, table', _, isTable, current, current', result.symm, ?_⟩
      rw [validated, ExpiringMap.upsert]
      cases accepted : map.accepts (routingRecord b58 m h) with
      | true => exact .inl ⟨h, rfl, rfl, rfl⟩
      | false =>
        refine .inr ⟨fun same => ?_, rfl, fun h' same => ?_⟩
        · cases same
        · cases same
          exact accepted
  next => cases step

theorem Good.tick_cases (keys : IdKeys b58) (good : Good decode b58 s) {t : Int} (epoch : Epoch t)
    (step : s.step decode b58 (.tick n t) = some s') : ∃ table map table',
      s.table n = some table ∧ Current b58 table map ∧ Current b58 table' (map.advance t) ∧
        s' = s.setTable n (some table') := by
  obtain ⟨table, isTable, result⟩ := Option.map_eq_some_iff.mp step
  obtain ⟨map, current⟩ := good.current n table isTable
  obtain ⟨reply, current'⟩ := current.advance keys epoch
  refine ⟨table, map, _, isTable, current, current', ?_⟩
  rw [← result, show table.advance t = (_, .ok ()) from Prod.ext rfl reply]
  rfl

theorem Good.step (keys : IdKeys b58) (good : Good decode b58 s) {e : Event} (admissible : Admissible decode e)
    (step : s.step decode b58 e = some s') : Good decode b58 s' := by
  cases e with
  | start n t =>
    rw [State.step] at step
    split at step
    · cases step
      refine good.setTable fun table' same => ?_
      cases same
      exact ⟨_, .new admissible⟩
    · cases step
  | crash n =>
    cases step
    exact good.setTable nofun
  | publish m =>
    cases step
    exact ⟨List.forall_mem_cons.mpr ⟨admissible, good.sound⟩, good.current⟩
  | deliver n m =>
    obtain ⟨-, -, table', map', -, -, current', rfl, -⟩ := good.deliver_cases keys step
    exact good.setTable fun table same => Option.some.inj same ▸ ⟨map', current'⟩
  | tick n t =>
    obtain ⟨-, map, table', -, -, current', rfl⟩ := good.tick_cases keys admissible step
    exact good.setTable fun table same => Option.some.inj same ▸ ⟨_, current'⟩

theorem good_start : Good decode b58 (machine decode b58 E).start where
  sound := nofun
  current := nofun

section Lookup

variable {n' : Nat} {p : Bytes} {r : DeadlineRecord} {e : Event}

theorem lookup_setTable_of_ne (other : n ≠ n') (table : Option (Table E)) :
    (s.setTable n' table).lookup b58 n p = s.lookup b58 n p := by
  have same : (s.setTable n' table).table n = s.table n := Function.update_of_ne other ..
  rw [State.lookup, same, State.lookup]

theorem lookup_setTable_none : (s.setTable n none).lookup b58 n p = none := by
  have same : (s.setTable n none).table n = none := Function.update_self ..
  rw [State.lookup, same, Option.bind_none]

theorem Current.lookup_setTable (keys : IdKeys b58) (current : Current b58 table map) (named : p ≠ []) :
    (s.setTable n (some table)).lookup b58 n p = map.entries p :=
  current.lookup keys (Function.update_self ..) named

theorem ends_tick {t : Int} : Ends n (.tick n' t) r ↔ n' = n ∧ r.deadline < t := by
  simp [Ends]

theorem ends_crash : Ends n (.crash n') r ↔ n' = n := by
  simp [Ends]

theorem Good.accepted (keys : IdKeys b58) (good : Good decode b58 s) (named : p ≠ [])
    (accepts : Accepts decode b58 n p s e r) (step : s.step decode b58 e = some s') :
    s'.lookup b58 n p = some r := by
  obtain ⟨m, table, rec, rfl, isTable, isSender, reads, accepted, rfl⟩ := accepts
  obtain ⟨table₀, map, table', map', isTable₀, current, current', rfl, cases⟩ := good.deliver_cases keys step
  cases isTable.symm.trans isTable₀
  rcases cases with ⟨h, decoded, -, rfl⟩ | ⟨refused, -⟩
  · rw [readRecord_of_decode decode b58 decoded] at reads
    cases reads
    have stored := map.put_self (routingRecord b58 m h)
    rw [current'.lookup_setTable keys named, Table.withDeadline, current.represents.clock, ← isSender]
    exact stored
  · exact absurd accepted refused

theorem Good.deliver_kept (keys : IdKeys b58) (good : Good decode b58 s) (named : p ≠ [])
    (refuses : ∀ r, ¬ Accepts decode b58 n p s (.deliver n m) r) (step : s.step decode b58 (.deliver n m) = some s') :
    s'.lookup b58 n p = s.lookup b58 n p := by
  obtain ⟨table, map, table', map', isTable, current, current', rfl, cases⟩ := good.deliver_cases keys step
  rw [current'.lookup_setTable keys named, current.lookup keys isTable named]
  rcases cases with ⟨h, decoded, validated, rfl⟩ | ⟨-, rfl, -⟩
  · refine map.put_other _ fun same => ?_
    refine refuses _ ⟨m, table, _, rfl, isTable, same.symm, readRecord_of_decode decode b58 decoded, ?_, rfl⟩
    rw [validated]
  · rfl

/-- What a router knows of a peer is a place that accepted heartbeats write. -/
theorem register (keys : IdKeys b58) (named : p ≠ []) :
    (machine decode b58 E).Register (fun s e => Good decode b58 s ∧ Admissible decode e)
      (fun s => s.lookup b58 n p) (Accepts decode b58 n p) (Ends n) where
  start := rfl
  written met step accepts := met.1.accepted keys named accepts step
  kept {s e s' r} met step refuses := by
    obtain ⟨good, admissible⟩ := met
    have step : s.step decode b58 e = some s' := step
    cases e with
    | start n' t =>
      rw [State.step] at step
      split at step
      next down =>
        cases step
        by_cases same : n = n'
        · subst same
          have before : s.lookup b58 n p = none := by
            rw [State.lookup, Option.isNone_iff_eq_none.mp down]
            rfl
          rw [before, (Current.new admissible).lookup_setTable keys named]
          exact iff_of_false nofun fun found => nomatch found.1
        · rw [lookup_setTable_of_ne same]
          simp [Ends]
      next => cases step
    | crash n' =>
      cases step
      by_cases same : n = n'
      · subst same
        refine iff_of_false ?_ fun kept => kept.2 (ends_crash.mpr rfl)
        rw [lookup_setTable_none]
        exact nofun
      · rw [lookup_setTable_of_ne same, ends_crash, and_iff_left (Ne.symm same)]
    | publish m =>
      cases step
      simp [Ends, State.lookup]
    | deliver n' m =>
      by_cases same : n = n'
      · subst same
        rw [good.deliver_kept keys named refuses step]
        simp [Ends]
      · obtain ⟨-, -, -, -, -, -, -, rfl, -⟩ := good.deliver_cases keys step
        rw [lookup_setTable_of_ne same]
        simp [Ends]
    | tick n' t =>
      obtain ⟨table, map, table', isTable, current, current', rfl⟩ := good.tick_cases keys admissible step
      by_cases same : n = n'
      · subst same
        rw [current'.lookup_setTable keys named, current.lookup keys isTable named, current.entries_advance, ends_tick,
          and_iff_right rfl]
      · rw [lookup_setTable_of_ne same, ends_tick, and_iff_left fun both => same both.1.symm]

end Lookup

/-- The members of a router's view: whatever else happens in the cluster, the router has
a record of the peer exactly if its validator has accepted it, no later heartbeat of the
peer has been accepted, and since then the router has not crashed and its clock has not
passed the deadline. -/
theorem member_iff (keys : IdKeys b58) {events : List Event} (admissible : ∀ e ∈ events, Admissible decode e)
    (reached : (machine decode b58 E).run events = some s) (n : Nat) {p : Bytes} (named : p ≠ []) (r : DeadlineRecord) :
    s.lookup b58 n p = some r ↔ (machine decode b58 E).Last (Accepts decode b58 n p) (Ends n) events r :=
  (register keys named).read_iff
    (Machine.throughout_of_admissible good_start (fun _ _ _ good allowed step => good.step keys allowed step) admissible)
    reached

/-- The heartbeat of a peer with this number. -/
def beat (seq : UInt8) : Message where
  sender := [1]
  seqno := [0, 0, 0, 0, 0, 0, 0, seq]
  data := []

theorem sound_beat (seq : UInt8) : Sound decodePlain (beat seq) :=
  fun _ decoded => Except.ok.inj decoded ▸ ⟨nofun, Nat.le_refl 8, ⟨[], rfl⟩, [], rfl, nofun⟩

def oneBeat : List Event :=
  [.start 0 0, .publish (beat 1), .deliver 0 (beat 1), .tick 0 1]

theorem member_iff_oneBeat : ∃ s : State (sortedEngine schema), (machine decodePlain id _).run oneBeat = some s ∧
    (s.lookup id 0 [1] = some ⟨routingRecord id (beat 1) plainHeartbeat, plainHeartbeat.duration⟩ ↔
      (machine decodePlain id (sortedEngine schema)).Last (Accepts decodePlain id 0 [1]) (Ends 0) oneBeat
        ⟨routingRecord id (beat 1) plainHeartbeat, plainHeartbeat.duration⟩) := by
  have reached : (machine decodePlain id (sortedEngine schema)).run oneBeat = some _ := rfl
  refine ⟨_, reached, member_iff idKeys_id ?_ reached 0 (List.cons_ne_nil _ _) _⟩
  simp [oneBeat, Admissible, sound_beat, Epoch]

section Agreement

variable {p : Bytes} {r : DeadlineRecord} {e : Event}

variable (decode b58 E) in
/-- From the first heartbeat of the peer on, the router always has a record of it. -/
def Uninterrupted (n : Nat) (p : Bytes) (events : List Event) : Prop :=
  (machine decode b58 E).Throughout (fun _ s e => ∀ r, s.lookup b58 n p = some r → ¬ Ends n e r) events

variable (decode) in
/-- Heartbeats of the peer come from one instance of its server. -/
def FromInstance (p : Bytes) (server : UInt64) (m : Message) : Prop :=
  ∀ h, m.sender = p → decode m.data = .ok h → h.server = server

variable (decode b58) in
/-- The router has the newest of the heartbeats of the peer that it has heard. -/
structure Newest (n : Nat) (p : Bytes) (before : List Event) (s : State E) : Prop where
  heard : ∀ r, s.lookup b58 n p = some r → ∃ m h, .deliver n m ∈ before ∧ m ∈ s.published ∧ m.sender = p ∧
    decode m.data = .ok h ∧ r.record = routingRecord b58 m h
  newest : ∀ m h, .deliver n m ∈ before → m.sender = p → decode m.data = .ok h →
    ∃ r, s.lookup b58 n p = some r ∧ (routingRecord b58 m h).seqNo ≤ r.record.seqNo

theorem mem_published_step (step : s.step decode b58 e = some s') :
    m ∈ s'.published ↔ e = .publish m ∨ m ∈ s.published := by
  have settled {α : Type} (n : Nat) (result : Table E × Except Fault α) : (s.settle n result).published = s.published := by
    rcases result with ⟨table, _ | _⟩
    · rfl
    · rfl
  cases e with
  | start n t =>
    rw [State.step] at step
    split at step
    · cases step
      simp [State.setTable]
    · cases step
  | crash n =>
    cases step
    simp [State.setTable]
  | publish m' =>
    cases step
    simp [eq_comm]
  | deliver n m' =>
    rw [State.step] at step
    split at step
    · obtain ⟨table, -, rfl⟩ := Option.map_eq_some_iff.mp step
      simp [settled]
    · cases step
  | tick n t =>
    obtain ⟨table, -, rfl⟩ := Option.map_eq_some_iff.mp step
    simp [settled]

theorem mem_published_run {events : List Event} (reached : (machine decode b58 E).run events = some s) :
    m ∈ s.published ↔ .publish m ∈ events := by
  induction events using List.reverseRecOn generalizing s with
  | nil =>
    cases reached
    exact iff_of_false nofun nofun
  | append_singleton events e ih =>
    obtain ⟨s₀, isBefore, step⟩ := Machine.run_concat.mp reached
    rw [mem_published_step step, ih isBefore]
    simp [or_comm, eq_comm]

theorem published_of_deliver (step : s.step decode b58 (.deliver n m) = some s') : m ∈ s.published := by
  rw [State.step] at step
  split at step
  next isPublished => exact isPublished
  next => cases step

/-- Of one instance only a newer heartbeat is accepted. -/
theorem Good.accepts_iff (keys : IdKeys b58) (good : Good decode b58 s) (named : p ≠ []) (isSender : m.sender = p)
    (decoded : decode m.data = .ok h) (step : s.step decode b58 (.deliver n m) = some s')
    (sameServer : ∀ r, s.lookup b58 n p = some r → r.record.server = h.server) :
    (∃ r, Accepts decode b58 n p s (.deliver n m) r) ↔
      ∀ r, s.lookup b58 n p = some r → r.record.seqNo < (routingRecord b58 m h).seqNo := by
  obtain ⟨table, map, isTable, current⟩ : ∃ table map, s.table n = some table ∧ Current b58 table map := by
    obtain ⟨table, map, -, -, isTable, current, -⟩ := good.deliver_cases keys step
    exact ⟨table, map, isTable, current⟩
  obtain ⟨table', validated, -⟩ :=
    current.validate keys (good.sound m (published_of_deliver step)) decoded
  have lookup := current.lookup keys isTable named
  have isAccept : (∃ r, Accepts decode b58 n p s (.deliver n m) r) ↔
      map.accepts (routingRecord b58 m h) = true := by
    constructor
    · rintro ⟨r, m', table₀, rec, same, isTable₀, -, -, accepted, -⟩
      cases same
      cases isTable.symm.trans isTable₀
      rw [validated] at accepted
      by_contra refused
      rw [if_neg refused] at accepted
      cases accepted
    · intro accepted
      refine ⟨_, m, table, _, rfl, isTable, isSender, readRecord_of_decode decode b58 decoded, ?_, rfl⟩
      rw [validated, if_pos accepted]
  have isPeer : (routingRecord b58 m h).peer = p := isSender
  rw [isAccept, ExpiringMap.accepts, isPeer, ← lookup]
  cases found : s.lookup b58 n p with
  | none => simp
  | some old =>
    have same : old.record.server = (routingRecord b58 m h).server := sameServer old found
    simp [same]

theorem Newest.step (keys : IdKeys b58) (named : p ≠ []) {server : UInt64} {before : List Event}
    (newest : Newest decode b58 n p before s) (good : Good decode b58 s) (admissible : Admissible decode e)
    (inst : ∀ m ∈ s.published, FromInstance decode p server m)
    (alive : ∀ r, s.lookup b58 n p = some r → ¬ Ends n e r) (step : s.step decode b58 e = some s') :
    Newest decode b58 n p (before ++ [e]) s' := by
  have sameServer : ∀ r, s.lookup b58 n p = some r → r.record.server = server := by
    intro r found
    obtain ⟨m, h, -, isPublished, isSender, decoded, isRecord⟩ := newest.heard r found
    rw [isRecord]
    exact inst m isPublished h isSender decoded
  have rule {m : Message} {h : Heartbeat} (same : e = .deliver n m) (isSender : m.sender = p)
      (decoded : decode m.data = .ok h) : (∃ r, Accepts decode b58 n p s e r) ↔
        ∀ r, s.lookup b58 n p = some r → r.record.seqNo < (routingRecord b58 m h).seqNo := by
    subst same
    refine good.accepts_iff keys named isSender decoded step fun r found => ?_
    rw [sameServer r found, inst m (published_of_deliver step) h isSender decoded]
  have older {m' : Message} : .deliver n m' ∈ before ++ [e] → .deliver n m' ∈ before ∨ e = .deliver n m' := by
    intro member
    rcases List.mem_append.mp member with old | last
    · exact .inl old
    · exact .inr (List.mem_singleton.mp last).symm
  by_cases accepts : ∃ r, Accepts decode b58 n p s e r
  · obtain ⟨r, accepted⟩ := accepts
    have stored := good.accepted keys named accepted step
    have newer := fun m h same isSender decoded => (rule (m := m) (h := h) same isSender decoded).mp ⟨r, accepted⟩
    obtain ⟨m, table, rec, rfl, isTable, isSender, reads, -, rfl⟩ := accepted
    obtain ⟨h, decoded, rfl⟩ : ∃ h, decode m.data = .ok h ∧ rec = routingRecord b58 m h := by
      rw [readRecord] at reads
      obtain ⟨h, decoded, same⟩ := Except.bind_eq_ok.mp reads
      exact ⟨h, decoded, (Except.ok.inj same).symm⟩
    refine ⟨fun r' found => ?_, fun m' h' member isSender' decoded' => ⟨_, stored, ?_⟩⟩
    · cases stored.symm.trans found
      have isPublished := (mem_published_step step).mpr (.inr (published_of_deliver step))
      exact ⟨m, h, by simp, isPublished, isSender, decoded, rfl⟩
    · rcases older member with old | same
      · obtain ⟨r', found, le⟩ := newest.newest m' h' old isSender' decoded'
        exact UInt64.le_trans le (UInt64.le_of_lt (newer m h rfl isSender decoded r' found))
      · cases same
        cases decoded.symm.trans decoded'
        exact UInt64.le_refl _
  · have kept (r : DeadlineRecord) : s'.lookup b58 n p = some r ↔ s.lookup b58 n p = some r := by
      rw [(register keys named).kept ⟨good, admissible⟩ step (not_exists.mp accepts)]
      exact and_iff_left_of_imp (alive r)
    refine ⟨fun r found => ?_, fun m' h' member isSender' decoded' => ?_⟩
    · obtain ⟨m, h, member, isPublished, rest⟩ := newest.heard r ((kept r).mp found)
      exact ⟨m, h, List.mem_append_left _ member, (mem_published_step step).mpr (.inr isPublished), rest⟩
    · rcases older member with old | same
      · obtain ⟨r, found, le⟩ := newest.newest m' h' old isSender' decoded'
        exact ⟨r, (kept r).mpr found, le⟩
      · have refused := (not_congr (rule same isSender' decoded')).mp accepts
        push Not at refused
        obtain ⟨r, found, le⟩ := refused
        exact ⟨r, (kept r).mpr found, UInt64.not_lt.mp le⟩

/-- Along a run without interruption the router has the newest heartbeat that it heard. -/
theorem newest_run (keys : IdKeys b58) (named : p ≠ []) {events : List Event} {server : UInt64}
    (admissible : ∀ e ∈ events, Admissible decode e) (reached : (machine decode b58 E).run events = some s)
    (inst : ∀ m, .publish m ∈ events → FromInstance decode p server m)
    (alive : Uninterrupted decode b58 E n p events) : Newest decode b58 n p events s := by
  let Inv (s : State E) : Prop := Good decode b58 s ∧ ∀ m ∈ s.published, FromInstance decode p server m
  let A (e : Event) : Prop := Admissible decode e ∧ ∀ m, e = .publish m → FromInstance decode p server m
  have allowed : (machine decode b58 E).Throughout (fun _ s e => Inv s ∧ A e) events := by
    refine Machine.throughout_of_admissible ⟨good_start, nofun⟩ ?_ fun e member =>
      ⟨admissible e member, fun m same => inst m (same ▸ member)⟩
    intro s e s' inv allowed step
    refine ⟨inv.1.step keys allowed.1 step, fun m isPublished => ?_⟩
    rcases (mem_published_step step).mp isPublished with same | old
    · exact allowed.2 m same
    · exact inv.2 m old
  have start : Newest decode b58 n p [] (machine decode b58 E).start := by
    refine ⟨fun r found => ?_, nofun⟩
    have none_eq : none = some r := found
    cases none_eq
  refine Machine.always_of_throughout (P := Newest decode b58 n p)
    (C := fun _ s e => (Inv s ∧ A e) ∧ ∀ r, s.lookup b58 n p = some r → ¬ Ends n e r)
    (Machine.invariant_true _) start ?_ ?_ events s List.prefix_rfl reached
  · intro before s e s' _ newest met step
    exact newest.step keys named met.1.1.1 met.1.2.1 met.1.1.2 met.2 step
  · intro before e s s' isBefore isRun step
    exact ⟨allowed before e s s' isBefore isRun step, alive before e s s' isBefore isRun step⟩

theorem Newest.le_of_heard {a b : Nat} {events : List Event} (atA : Newest decode b58 a p events s)
    (atB : Newest decode b58 b p events s)
    (heard : ∀ m, m.sender = p → .deliver a m ∈ events → .deliver b m ∈ events) (found : s.lookup b58 a p = some r) :
    ∃ r', s.lookup b58 b p = some r' ∧ r.record.seqNo ≤ r'.record.seqNo := by
  obtain ⟨m, h, member, -, isSender, decoded, isRecord⟩ := atA.heard r found
  rw [isRecord]
  exact atB.newest m h (heard m isSender member) isSender decoded

/-- Two routers that have heard the same heartbeats of a peer, each in its own order and
with any repetitions and at any times, agree on the record of the peer, if neither has
lost it in between and the peer has one instance that numbers its heartbeats. -/
theorem routers_agree (keys : IdKeys b58) (named : p ≠ []) {events : List Event} {server : UInt64}
    (admissible : ∀ e ∈ events, Admissible decode e) (reached : (machine decode b58 E).run events = some s)
    (inst : ∀ m, .publish m ∈ events → FromInstance decode p server m)
    (numbered : ∀ m m', .publish m ∈ events → .publish m' ∈ events → m.sender = p → m'.sender = p →
      bigEndianUint64 m.seqno = bigEndianUint64 m'.seqno → m = m')
    {a b : Nat} (heard : ∀ m, m.sender = p → (.deliver a m ∈ events ↔ .deliver b m ∈ events))
    (aliveA : Uninterrupted decode b58 E a p events) (aliveB : Uninterrupted decode b58 E b p events) :
    (s.lookup b58 a p).map DeadlineRecord.record = (s.lookup b58 b p).map DeadlineRecord.record := by
  have atA := newest_run keys named admissible reached inst aliveA
  have atB := newest_run keys named admissible reached inst aliveB
  cases foundA : s.lookup b58 a p with
  | none =>
    cases foundB : s.lookup b58 b p with
    | none => rfl
    | some rB =>
      obtain ⟨r, found, -⟩ := atB.le_of_heard atA (fun m isSender => (heard m isSender).mpr) foundB
      cases foundA.symm.trans found
  | some rA =>
    obtain ⟨rB, foundB, le⟩ := atA.le_of_heard atB (fun m isSender => (heard m isSender).mp) foundA
    obtain ⟨r, found, ge⟩ := atB.le_of_heard atA (fun m isSender => (heard m isSender).mpr) foundB
    cases foundA.symm.trans found
    rw [foundB]
    obtain ⟨m, h, -, isPublished, isSender, decoded, isRecord⟩ := atA.heard rA foundA
    obtain ⟨m', h', -, isPublished', isSender', decoded', isRecord'⟩ := atB.heard rB foundB
    rw [mem_published_run reached] at isPublished isPublished'
    rw [isRecord, isRecord'] at le ge
    have conforms : (routingRecord b58 m h).Conforms b58 := Sound.conforms (admissible _ isPublished) decoded
    have conforms' : (routingRecord b58 m' h').Conforms b58 := Sound.conforms (admissible _ isPublished') decoded'
    have same : m = m' := by
      refine numbered m m' isPublished isPublished' isSender isSender' ?_
      exact conforms.seq_eq.trans (UInt64.le_antisymm le ge ▸ conforms'.seq_eq.symm)
    subst same
    cases decoded.symm.trans decoded'
    rw [Option.map_some, Option.map_some, isRecord, isRecord']

theorem uninterrupted_of_quiet {events : List Event} (quiet : ∀ e ∈ events, ∀ r, ¬ Ends n e r) :
    Uninterrupted decode b58 E n p events :=
  fun _ e _ _ isBefore _ _ r _ => quiet e (isBefore.subset List.mem_concat_self) r

def twoOrders : List Event :=
  [.start 0 0, .start 1 5, .publish (beat 1), .publish (beat 2), .deliver 0 (beat 1), .deliver 1 (beat 2),
    .deliver 1 (beat 1), .deliver 0 (beat 2)]

theorem routers_agree_twoOrders : ∃ s : State (sortedEngine schema), (machine decodePlain id _).run twoOrders = some s ∧
    (s.lookup id 0 [1]).map DeadlineRecord.record = (s.lookup id 1 [1]).map DeadlineRecord.record := by
  have reached : (machine decodePlain id (sortedEngine schema)).run twoOrders = some _ := rfl
  have inst (m : Message) (_ : .publish m ∈ twoOrders) : FromInstance decodePlain [1] 1 m :=
    fun _ _ decoded => Except.ok.inj decoded ▸ rfl
  refine ⟨_, reached, routers_agree idKeys_id (List.cons_ne_nil _ _) ?_ reached inst ?_ ?_ (uninterrupted_of_quiet ?_)
    (uninterrupted_of_quiet ?_)⟩
  · simp [twoOrders, Admissible, sound_beat, Epoch]
  · simp only [twoOrders, List.mem_cons, Event.publish.injEq, reduceCtorEq, List.not_mem_nil, false_or, or_false]
    rintro m m' (rfl | rfl) (rfl | rfl) - - same
    · rfl
    · cases same
    · cases same
    · rfl
  · simp [twoOrders, or_comm]
  · simp [twoOrders, Ends]
  · simp [twoOrders, Ends]

end Agreement

end Cluster

end Casm.Cluster.Membership
