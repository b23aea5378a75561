import Casm.Cluster.Membership
import Casm.Cluster.Records
import Casm.Cluster.Remote

namespace Casm.Cluster.Service
open MultiIndex Routing Pulse
open Casm.Cluster.Membership hiding Event State machine

section Stream

variable {b58 : Bytes → Bytes} {E : Engine schema} {r : DeadlineRecord}

/-- A validated record reaches the client as it is. -/
theorem received_of_conforms (conforms : r.record.Conforms b58) {h : Heartbeat} (isTTL : r.record.ttl = h.duration) :
    Received r := by
  obtain ⟨name, isName⟩ := conforms.hostIndex
  obtain ⟨fields, isMeta, _⟩ := conforms.metadata
  refine received_iff.mpr ⟨conforms.seq, isTTL ▸ duration_whole h, ⟨name, ?_⟩, ⟨fields, isMeta⟩⟩
  rw [Query.host, DeadlineRecord.hostBytes, isName]
  rfl

/-- When `Next` has returned nil, it has returned all the records. -/
theorem results_of_inOrder {views : List ViewRecord} {results : List (Option ViewRecord)}
    (inOrder : Handler.InOrder views results) (ended : none ∈ results) : results.reduceOption = views := by
  obtain ⟨i, inside, isNone⟩ := List.mem_iff_getElem.mp ended
  have past : views.length ≤ i := by
    have entry := inOrder i inside
    rw [List.getElem?_eq_getElem inside, isNone] at entry
    exact List.getElem?_eq_none_iff.mp (Option.some.inj entry).symm
  have whole : results = views.map some ++ List.replicate (results.length - views.length) none := by
    apply List.ext_getElem?
    intro j
    by_cases isResult : j < results.length
    · rw [inOrder j isResult]
      by_cases isView : j < views.length
      · rw [List.getElem?_append_left (by simpa using isView)]
        simp [isView]
      · rw [List.getElem?_append_right (by simpa using isView), List.getElem?_replicate]
        simp [show j - views.length < results.length - views.length by omega, not_lt.mp isView]
    · simp only [List.getElem?_eq_none_iff.mpr (not_lt.mp isResult)]
      rw [List.getElem?_eq_none_iff.mpr]
      simp
      omega
  rw [whole, List.reduceOption_append, List.reduceOption_replicate_none, List.append_nil]
  simp [List.reduceOption]

end Stream

section Members

variable {decode : Bytes → Except String Heartbeat} {b58 : Bytes → Bytes} {E : Engine schema}
  {s : Membership.State E} {n : Nat} {events : List Membership.Event} {table : Table E} {r : DeadlineRecord}

variable (decode b58 E) in
/-- After the events the router knows the peer by this record: that of the last heartbeat
of the peer that it has accepted, and it has neither crashed since nor passed the deadline. -/
def Member (n : Nat) (events : List Membership.Event) (p : Bytes) (r : DeadlineRecord) : Prop :=
  (Membership.machine decode b58 E).Last (Accepts decode b58 n p) (Ends n) events r

theorem good_run (keys : IdKeys b58) (admissible : ∀ e ∈ events, Admissible decode e)
    (reached : (Membership.machine decode b58 E).run events = some s) : Good decode b58 s :=
  Machine.run_of_admissible good_start (fun _ _ _ good allowed step => good.step keys allowed step) admissible reached

/-- What a router has accepted is the record of a sound heartbeat. -/
theorem record_of_member (keys : IdKeys b58) (admissible : ∀ e ∈ events, Admissible decode e)
    (reached : (Membership.machine decode b58 E).run events = some s) {p : Bytes}
    (member : Member decode b58 E n events p r) :
    ∃ m h, decode m.data = .ok h ∧ Sound decode m ∧ m.sender = p ∧ r.record = Pulse.routingRecord b58 m h := by
  obtain ⟨before, e, after, s₀, rfl, isBefore, ⟨m, table, rec, rfl, _, isSender, reads, _, rfl⟩, _⟩ := member
  have good := good_run keys (fun e' member => admissible e' (List.mem_append_left _ member)) isBefore
  obtain ⟨s₁, step⟩ := Machine.step_of_run reached isBefore
  have isPublished : m ∈ s₀.published := published_of_deliver step
  cases decoded : decode m.data with
  | error text =>
    rw [readRecord_of_error decode b58 decoded] at reads
    cases reads
  | ok h =>
    rw [readRecord_of_decode decode b58 decoded] at reads
    cases reads
    exact ⟨m, h, decoded, good.sound m isPublished, isSender, rfl⟩

/-- The records of the table are the members that the router knows. -/
theorem holds_iff (keys : IdKeys b58) (admissible : ∀ e ∈ events, Admissible decode e)
    (reached : (Membership.machine decode b58 E).run events = some s) (isTable : s.table n = some table) :
    E.Holds table.records r ↔ Member decode b58 E n events r.record.peer r := by
  obtain ⟨map, current⟩ := (good_run keys admissible reached).current n table isTable
  have isRead (named : r.record.peer ≠ []) : map.entries r.record.peer = some r ↔
      Member decode b58 E n events r.record.peer r := by
    rw [← current.lookup keys isTable named]
    refine (register keys named).read_iff (Machine.throughout_of_admissible good_start ?_ admissible) reached
    exact fun _ _ _ good allowed step => good.step keys allowed step
  rw [current.represents.holds]
  constructor
  · intro stored
    exact (isRead (current.represents.conforms _ _ stored).named).mp stored
  · intro member
    obtain ⟨m, h, decoded, sound, isSender, _⟩ := record_of_member keys admissible reached member
    exact (isRead (isSender ▸ (sound h decoded).1)).mpr member

/-- Every member can be streamed. -/
theorem received_member (keys : IdKeys b58) (admissible : ∀ e ∈ events, Admissible decode e)
    (reached : (Membership.machine decode b58 E).run events = some s) (isTable : s.table n = some table)
    (held : E.Holds table.records r) : Received r := by
  have member := (holds_iff keys admissible reached isTable).mp held
  obtain ⟨m, h, decoded, sound, _, isRecord⟩ := record_of_member keys admissible reached member
  have conforms : r.record.Conforms b58 := isRecord ▸ sound.conforms decoded
  have isTTL : r.record.ttl = h.duration := by rw [isRecord]; rfl
  exact received_of_conforms conforms isTTL

/-- What `Get` finds in the table for the start of an ID. -/
theorem mem_rows {map : ExpiringMap} (represents : Represents b58 table map) {v : Bytes} :
    r ∈ E.get table.records .id v ↔ E.Holds table.records r ∧ v <+: b58 r.record.peer := by
  refine (Engine.mem_get_primary represents.consistent).trans (and_congr_right fun held => ?_)
  have isKey := represents.primaryKey held
  refine ⟨?_, fun starts => ⟨_, isKey, starts⟩⟩
  rintro ⟨key, isKey', starts⟩
  exact Except.ok.inj (isKey.symm.trans isKey') ▸ starts

/-- A client of the view of a router sees the members: when its iterator over all records
has come to nil, it has returned, once each and in the order of their IDs, the peers whose
heartbeats the router has accepted and not dropped since, each as its last heartbeat says. -/
theorem client_sees_members (keys : IdKeys b58) (admissible : ∀ e ∈ events, Admissible decode e)
    (reached : (Membership.machine decode b58 E).run events = some s) (isTable : s.table n = some table)
    (constraints : List WireConstraint) :
    ∃ (q : TableQuery E) (views : List ViewRecord), q.tx = table.records ∧
      serverIter (q.snapshot b58) ⟨.all, constraints⟩ = .ok (views.map .ok) ∧
      ∀ calls h, .cancel ∉ calls → (Handler.machine views).run calls = some h → none ∈ h.results →
        (h.results.reduceOption.map fun v => b58 v.clientMethods.peer).Pairwise (· < ·) ∧
        ∀ seen, (∃ v, some v ∈ h.results ∧ v.clientMethods = seen) ↔ ∃ r, (tableRecord r).methods = seen ∧
          Member decode b58 E n events seen.peer r := by
  obtain ⟨map, current⟩ := (good_run keys admissible reached).current n table isTable
  have consistent := current.represents.consistent
  let rows := E.get table.records .id []
  have members {r : DeadlineRecord} : r ∈ rows ↔ E.Holds table.records r :=
    (mem_rows current.represents).trans (and_iff_left List.nil_prefix)
  obtain ⟨views, isViews, wellFormed, areMethods⟩ := views_of_received fun r (member : r ∈ rows) =>
    received_member keys admissible reached isTable (members.mp member)
  refine ⟨⟨table.records, consistent⟩, views, rfl, serverIter_of_ok rfl isViews, ?_⟩
  intro calls h uncancelled isRun ended
  have handshake := Handler.always_handshake (P := fun _ _ => True) (C := fun _ _ _ => True) wellFormed uncancelled
    (fun _ _ _ _ _ _ _ => trivial) trivial (fun _ _ _ _ _ _ _ _ _ => trivial) calls h List.prefix_rfl isRun
  have isAll : h.results.reduceOption = views := results_of_inOrder handshake.1.results ended
  constructor
  · have peers : views.map (fun v => b58 v.clientMethods.peer) = rows.map fun r => b58 r.record.peer := by
      have mapped := congrArg (List.map fun methods : Methods => b58 methods.peer) areMethods
      rwa [List.map_map, List.map_map] at mapped
    rw [isAll, peers, List.pairwise_map]
    refine (Engine.get_primary_sorted consistent).imp_of_mem ?_
    intro a b memberA memberB less
    have isKeyA := current.represents.primaryKey (members.mp memberA)
    exact less _ _ isKeyA (current.represents.primaryKey (members.mp memberB))
  · intro seen
    have shown : (∃ v, some v ∈ h.results ∧ v.clientMethods = seen) ↔ seen ∈ views.map (·.clientMethods) := by
      simp only [← isAll, List.mem_map, List.reduceOption_mem_iff]
    rw [shown, areMethods, List.mem_map]
    constructor
    · rintro ⟨r, member, rfl⟩
      exact ⟨r, rfl, (holds_iff keys admissible reached isTable).mp (members.mp member)⟩
    · rintro ⟨r, rfl, member⟩
      exact ⟨r, members.mpr ((holds_iff keys admissible reached isTable).mpr member), rfl⟩

theorem oneBeat_admissible : ∀ e ∈ oneBeat, Admissible decodePlain e := by
  simp [oneBeat, Admissible, sound_beat, Epoch]

theorem client_sees_members_oneBeat :
    ∃ (s : Membership.State (sortedEngine schema)) (table : Table (sortedEngine schema)),
      (Membership.machine decodePlain id _).run oneBeat = some s ∧ s.table 0 = some table ∧
    ∃ (q : TableQuery (sortedEngine schema)) (views : List ViewRecord),
      q.tx = table.records ∧ serverIter (q.snapshot id) ⟨.all, []⟩ = .ok (views.map .ok) ∧
      ∀ calls h, .cancel ∉ calls → (Handler.machine views).run calls = some h → none ∈ h.results →
        (h.results.reduceOption.map fun v => v.clientMethods.peer).Pairwise (· < ·) ∧
        ∀ seen, (∃ v, some v ∈ h.results ∧ v.clientMethods = seen) ↔ ∃ r, (tableRecord r).methods = seen ∧
          Member decodePlain id (sortedEngine schema) 0 oneBeat seen.peer r := by
  have reached : (Membership.machine decodePlain id (sortedEngine schema)).run oneBeat = some _ := rfl
  exact ⟨_, _, reached, rfl, client_sees_members idKeys_id oneBeat_admissible reached rfl []⟩

/-- A client that looks a peer up by its ID gets the record of the peer if it is a member.
Otherwise it gets the first member whose ID, as a text, extends the one it asks for, and
nothing only if there is none. -/
theorem client_finds_member (keys : IdKeys b58) (admissible : ∀ e ∈ events, Admissible decode e)
    (reached : (Membership.machine decode b58 E).run events = some s) (isTable : s.table n = some table)
    (constraints : List WireConstraint) (p : Bytes) (byPrefix : Bool) :
    ∃ (q : TableQuery E) (answer : Option Methods), q.tx = table.records ∧
      clientLookup (q.snapshot b58) ⟨.matching ⟨byPrefix, .peer (b58 p)⟩, constraints⟩ = .ok answer ∧
      (∀ r, Member decode b58 E n events p r →
        answer = some (tableRecord r).methods) ∧
      (∀ seen, answer = some seen → b58 p <+: b58 seen.peer ∧
        (∃ r, (tableRecord r).methods = seen ∧ Member decode b58 E n events seen.peer r) ∧
        ∀ p' r, b58 p <+: b58 p' → Member decode b58 E n events p' r → b58 seen.peer ≤ b58 p') ∧
      (answer = none → ∀ p' r, b58 p <+: b58 p' →
        ¬ Member decode b58 E n events p' r) := by
  obtain ⟨map, current⟩ := (good_run keys admissible reached).current n table isTable
  have consistent := current.represents.consistent
  have isMember {p : Bytes} {r : DeadlineRecord}
      (member : Member decode b58 E n events p r) :
      r.record.peer = p ∧ E.Holds table.records r := by
    obtain ⟨m, h, _, _, isSender, isRecord⟩ := record_of_member keys admissible reached member
    have isPeer : r.record.peer = p := by rw [isRecord]; exact isSender
    subst isPeer
    exact ⟨rfl, (holds_iff keys admissible reached isTable).mpr member⟩
  let rows := E.get table.records .id (b58 p)
  have members {r : DeadlineRecord} : r ∈ rows ↔ E.Holds table.records r ∧ b58 p <+: b58 r.record.peer :=
    mem_rows current.represents
  have answered : clientLookup (TableQuery.snapshot b58 ⟨table.records, consistent⟩)
      ⟨.matching ⟨byPrefix, .peer (b58 p)⟩, constraints⟩ = .ok (rows.head?.map fun r => (tableRecord r).methods) :=
    clientLookup_eq (congrArg (Except.map Query.Iter.result) (iterate_wire (E.get table.records) _)) fun r isHead =>
      received_member keys admissible reached isTable (members.mp (List.mem_of_mem_head? isHead)).1
  refine ⟨⟨table.records, consistent⟩, _, rfl, answered, ?_, ?_, ?_⟩
  · intro r member
    obtain ⟨rfl, held⟩ := isMember member
    have isHead : rows.head? = some r :=
      Engine.head_get_primary consistent held (current.represents.primaryKey held)
    rw [isHead, Option.map_some]
  · intro seen isAnswer
    obtain ⟨r, isHead, rfl⟩ := Option.map_eq_some_iff.mp isAnswer
    obtain ⟨held, starts⟩ := members.mp (List.mem_of_mem_head? isHead)
    refine ⟨starts, ⟨r, rfl, (holds_iff keys admissible reached isTable).mp held⟩, fun p' r' starts' known => ?_⟩
    obtain ⟨rfl, held'⟩ := isMember known
    exact Engine.head_get_primary_le consistent isHead (members.mpr ⟨held', starts'⟩)
      (current.represents.primaryKey held) (current.represents.primaryKey held')
  · intro isNone p' r starts known
    obtain ⟨rfl, held⟩ := isMember known
    have isNil : rows = [] := List.head?_eq_none_iff.mp (Option.map_eq_none_iff.mp isNone)
    have member : r ∈ rows := members.mpr ⟨held, starts⟩
    rw [isNil] at member
    cases member

theorem client_finds_member_oneBeat :
    ∃ (s : Membership.State (sortedEngine schema)) (table : Table (sortedEngine schema)),
      (Membership.machine decodePlain id _).run oneBeat = some s ∧ s.table 0 = some table ∧
    ∃ (q : TableQuery (sortedEngine schema)) (answer : Option Methods), q.tx = table.records ∧
      clientLookup (q.snapshot id) ⟨.matching ⟨false, .peer [1]⟩, []⟩ = .ok answer ∧
      (∀ r, Member decodePlain id (sortedEngine schema) 0 oneBeat [1] r → answer = some (tableRecord r).methods) ∧
      (∀ seen, answer = some seen → [1] <+: seen.peer ∧
        (∃ r, (tableRecord r).methods = seen ∧ Member decodePlain id (sortedEngine schema) 0 oneBeat seen.peer r) ∧
        ∀ p r, [1] <+: p → Member decodePlain id (sortedEngine schema) 0 oneBeat p r → seen.peer ≤ p) ∧
      (answer = none → ∀ p r, [1] <+: p → ¬ Member decodePlain id (sortedEngine schema) 0 oneBeat p r) := by
  have reached : (Membership.machine decodePlain id (sortedEngine schema)).run oneBeat = some _ := rfl
  exact ⟨_, _, reached, rfl, client_finds_member (n := 0) idKeys_id oneBeat_admissible reached rfl [] [1] false⟩

end Members

end Casm.Cluster.Service
