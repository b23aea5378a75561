import Casm.Boot.Distance
import Casm.Boot.Gradual

namespace Casm.Boot.Gradual

/-- The conversion of a float to `uint8`. It is exact for the numbers of the type; what
it makes of others is left to the platform. -/
structure Conversion where
  uint8 : Nat → UInt8
  exact : ∀ n < 256, (uint8 n).toNat = n

/-- What is assumed of the backoff, which another package provides: a new one has counted
no attempt, and each call of `Duration` counts one. -/
structure Backoff where
  Counter : Type
  new : Counter
  duration : Counter → Counter
  attempt : Counter → Nat
  attempt_new : attempt new = 0
  attempt_duration : ∀ b, attempt (duration b) = attempt b + 1

/-- The loop with its backoff, the distance of the survey that it makes, and the distances
of the surveys that were sent. -/
structure Survey (B : Backoff) where
  loop : State
  backoff : B.Counter
  distance : UInt8
  asked : List UInt8

/-- The loop comes to its select, where it calls `Duration`, whichever case of the select
is taken then. -/
def selects (e : Event) (after : Phase) : Bool :=
  match e with
  | .receive => true
  | .reject | .request _ | .giveUp => after = .selecting
  | _ => false

/-- The surveyor has sent the request of its survey. -/
def Event.isSurvey : Event → Bool
  | .request ok => ok
  | _ => false

def Survey.step {B : Backoff} (conv : Conversion) (w : Survey B) (ns : Namespace) (limit : Int) (e : Event) :
    Option (Survey B) :=
  (w.loop.step ns limit e).map fun s =>
    { loop := s
      backoff := if selects e s.phase then B.duration w.backoff else w.backoff
      distance := match e with
        | .timer => conv.uint8 (B.attempt w.backoff)
        | _ => w.distance
      asked := if e.isSurvey then w.asked ++ [w.distance] else w.asked }

/-- The first survey has the distance zero. -/
def surveying (B : Backoff) (conv : Conversion) (ns : Namespace) (limit : Int) : Machine (Survey B) Event where
  start := ⟨.new, B.new, 0, []⟩
  step w e := w.step conv ns limit e

/-- A case of the select that makes the loop go round. -/
def Event.isTurn : Event → Bool
  | .timer | .receive => true
  | _ => false

/-- For each survey that is sent, the turns before it. -/
def turnsBefore (turns : Nat) : List Event → List Nat
  | [] => []
  | e :: rest => (if e.isSurvey then [turns] else []) ++ turnsBefore (turns + if e.isTurn then 1 else 0) rest

/-- How a step of the loop leads from one place of it to another. -/
inductive Moves : Event → Phase → Phase → Prop
  | socket {e : Subscriptions.Event} {p : Phase} : Moves (.socket e) p p
  | consume {p : Phase} : Moves .consume p p
  | cancel {p : Phase} : Moves .cancel p p
  | timer : Moves .timer .selecting .attempting
  | reject {p : Phase} : p = .selecting ∨ p = .returned → Moves .reject .attempting p
  | subscribe {i fresh : Nat} {ch : Inner} : Moves (.subscribe i fresh) .attempting (.requesting ch)
  | sent {ch : Inner} : Moves (.request true) (.requesting ch) .selecting
  | unsent {ch : Inner} : Moves (.request false) (.requesting ch) (.failing ch)
  | giveUp {ch : Inner} {p : Phase} : p = .selecting ∨ p = .returned → Moves .giveUp (.failing ch) p
  | receive : Moves .receive .selecting .selecting
  | finish : Moves .finish .selecting .returned

section Moves

variable {s s' : State} {ns : Namespace} {limit : Int} {e : Event}

theorem phase_fail (s : State) : s.fail.phase = .selecting ∨ s.fail.phase = .returned := by
  rw [State.fail]
  split
  · exact .inl rfl
  · exact .inr rfl

theorem phase_forward (s : State) (info : Subscriptions.AddrInfo) : (s.forward info).phase = s.phase := by
  rw [State.forward]
  split
  · rfl
  · rfl

theorem phase_receive (step : s.receive = some s') : s'.phase = s.phase := by
  rw [State.receive] at step
  split at step
  · cases step
  · cases step
    exact phase_forward ..
  · split at step
    · cases step
    · split at step
      · obtain ⟨sock, _, rfl⟩ := Option.map_eq_some_iff.mp step
        exact phase_forward ..
      · obtain ⟨_, isNext⟩ := Option.ite_none_right_eq_some.mp step
        cases isNext
        exact phase_forward ..

theorem moves_of_step (step : s.step ns limit e = some s') : Moves e s.phase s'.phase := by
  have step := act_of_step step
  cases e with
  | socket e =>
    obtain ⟨_, isNext⟩ := Option.ite_none_right_eq_some.mp step
    obtain ⟨sock, _, rfl⟩ := Option.map_eq_some_iff.mp isNext
    exact .socket
  | timer =>
    obtain ⟨phase, isNext⟩ := Option.ite_none_right_eq_some.mp step
    cases isNext
    rw [phase]
    exact .timer
  | reject =>
    obtain ⟨phase, isNext⟩ := Option.ite_none_right_eq_some.mp step
    cases isNext
    rw [phase]
    exact .reject (phase_fail s)
  | subscribe i fresh =>
    obtain ⟨phase, isNext⟩ := Option.ite_none_right_eq_some.mp step
    obtain ⟨sock, _, rfl⟩ := Option.map_eq_some_iff.mp isNext
    rw [phase]
    split
    · exact .subscribe
    · exact .subscribe
  | request ok =>
    rw [State.act] at step
    split at step
    · rename_i ch phase
      rw [phase]
      cases step
      cases ok
      · exact .unsent
      · exact .sent
    · cases step
  | giveUp =>
    rw [State.act] at step
    split at step
    · rename_i ch phase
      obtain ⟨_, isNext⟩ := Option.ite_none_right_eq_some.mp step
      cases isNext
      rw [phase]
      exact .giveUp (phase_fail s)
    · cases step
  | receive =>
    obtain ⟨phase, isNext⟩ := Option.ite_none_right_eq_some.mp step
    rw [phase_receive isNext, phase]
    exact .receive
  | consume =>
    rw [State.act] at step
    split at step
    · cases step
    · cases step
      exact .consume
  | cancel =>
    cases step
    exact .cancel
  | finish =>
    obtain ⟨⟨phase, _⟩, isNext⟩ := Option.ite_none_right_eq_some.mp step
    cases isNext
    rw [phase]
    exact .finish

end Moves

section Runs

variable {B : Backoff} {conv : Conversion} {ns : Namespace} {limit : Int} {w w' : Survey B} {e : Event}
  {events : List Event}

/-- The turns of the loop in a run. -/
def turns (events : List Event) : Nat :=
  events.countP Event.isTurn

theorem turns_concat (events : List Event) (e : Event) :
    turns (events ++ [e]) = turns events + if e.isTurn then 1 else 0 := by
  rw [turns, List.countP_append, List.countP_singleton, turns]

theorem turnsBefore_concat (start : Nat) (events : List Event) (e : Event) :
    turnsBefore start (events ++ [e]) =
      turnsBefore start events ++ if e.isSurvey then [start + turns events] else [] := by
  induction events generalizing start with
  | nil => simp [turnsBefore, turns]
  | cons first events ih =>
    have count : turns (first :: events) = turns events + if first.isTurn then 1 else 0 := List.countP_cons ..
    rw [List.cons_append, turnsBefore, turnsBefore, ih, List.append_assoc, count, Nat.add_assoc, Nat.add_comm (turns _)]

/-- At the select the loop has counted the attempt that its next turn makes. -/
def Phase.lead : Phase → Nat
  | .selecting | .returned => 1
  | _ => 0

/-- The attempts of the backoff are the turns of the loop, and so are the distances. -/
structure Counted (events : List Event) (p : Phase) (w : Survey B) : Prop where
  attempt : p ≠ .returned → B.attempt w.backoff = turns events + p.lead
  distance : p.lead = 0 → turns events < 256 → w.distance.toNat = turns events
  asked : turns events < 256 → w.asked.map UInt8.toNat = turnsBefore 0 events
  increasing : (turnsBefore 0 events).Pairwise (· < ·)
  bound : ∀ n ∈ turnsBefore 0 events, n < turns events + p.lead

section Steps

variable {p p' : Phase}

/-- A step that neither goes round nor sends a survey. -/
theorem Counted.quiet (counted : Counted events p w) (notTurn : e.isTurn = false) (notSurvey : e.isSurvey = false)
    (lead : p.lead ≤ p'.lead) (attempt : p' ≠ .returned → B.attempt w'.backoff = turns events + p'.lead)
    (distance : w'.distance = w.distance) (asked : w'.asked = w.asked) : Counted (events ++ [e]) p' w' := by
  have sameTurns : turns (events ++ [e]) = turns events := by
    rw [turns_concat, notTurn]
    rfl
  have sameBefore : turnsBefore 0 (events ++ [e]) = turnsBefore 0 events := by
    rw [turnsBefore_concat, notSurvey]
    exact List.append_nil _
  refine ⟨?_, ?_, ?_, ?_, ?_⟩
  · rw [sameTurns]
    exact attempt
  · rw [sameTurns, distance]
    exact fun busy => counted.distance (Nat.le_zero.mp (busy ▸ lead))
  · rw [sameTurns, sameBefore, asked]
    exact counted.asked
  · rw [sameBefore]
    exact counted.increasing
  · rw [sameTurns, sameBefore]
    intro n member
    have earlier := counted.bound n member
    omega

/-- The loop goes round, and makes a survey or comes back to its select. -/
theorem Counted.turn (conv : Conversion) (counted : Counted events .selecting w) (isTurn : e.isTurn = true)
    (notSurvey : e.isSurvey = false) (attempt : B.attempt w'.backoff = B.attempt w.backoff + p'.lead)
    (distance : p'.lead = 0 → w'.distance = conv.uint8 (B.attempt w.backoff)) (asked : w'.asked = w.asked) :
    Counted (events ++ [e]) p' w' := by
  have more : turns (events ++ [e]) = turns events + 1 := by
    rw [turns_concat, isTurn]
    rfl
  have sameBefore : turnsBefore 0 (events ++ [e]) = turnsBefore 0 events := by
    rw [turnsBefore_concat, notSurvey]
    exact List.append_nil _
  have before : B.attempt w.backoff = turns events + 1 := counted.attempt nofun
  refine ⟨fun _ => ?_, fun busy few => ?_, fun few => ?_, ?_, ?_⟩
  · rw [more, attempt, before]
  · rw [more] at few ⊢
    rw [distance busy, before, conv.exact _ few]
  · rw [sameBefore, asked]
    exact counted.asked (by omega)
  · rw [sameBefore]
    exact counted.increasing
  · rw [more, sameBefore]
    intro n member
    have earlier : n < turns events + 1 := counted.bound n member
    omega

/-- A survey is sent, and the loop comes back to its select. -/
theorem Counted.survey (counted : Counted events p w) (busy : p.lead = 0) (running : p ≠ .returned)
    (attempt : B.attempt w'.backoff = B.attempt w.backoff + 1) (asked : w'.asked = w.asked ++ [w.distance]) :
    Counted (events ++ [.request true]) .selecting w' := by
  have sameTurns : turns (events ++ [.request true]) = turns events := turns_concat ..
  have before : turnsBefore 0 (events ++ [.request true]) = turnsBefore 0 events ++ [turns events] := by
    rw [turnsBefore_concat, Nat.zero_add]
    rfl
  have count := counted.attempt running
  have bound := counted.bound
  rw [busy, Nat.add_zero] at count bound
  refine ⟨fun _ => ?_, nofun, fun few => ?_, ?_, ?_⟩
  · rw [sameTurns, attempt, count]
    rfl
  · rw [sameTurns] at few
    rw [before, asked, List.map_append, counted.asked few, List.map_singleton, counted.distance busy few]
  · rw [before, List.pairwise_append]
    refine ⟨counted.increasing, List.pairwise_singleton .., fun n member m isLast => ?_⟩
    rw [List.mem_singleton.mp isLast]
    exact bound n member
  · rw [sameTurns, before]
    intro n member
    rcases List.mem_append.mp member with earlier | isLast
    · exact (bound n earlier).trans (Nat.lt_succ_self _)
    · rw [List.mem_singleton.mp isLast]
      exact Nat.lt_succ_self _

theorem Counted.step (counted : Counted events w.loop.phase w) (step : w.step conv ns limit e = some w') :
    Counted (events ++ [e]) w'.loop.phase w' := by
  obtain ⟨s, isStep, rfl⟩ := Option.map_eq_some_iff.mp step
  have moves := moves_of_step isStep
  simp only
  generalize s.phase = after at moves ⊢
  generalize w.loop.phase = before at counted moves
  cases moves with
  | socket => exact counted.quiet rfl rfl le_rfl counted.attempt rfl rfl
  | consume => exact counted.quiet rfl rfl le_rfl counted.attempt rfl rfl
  | cancel => exact counted.quiet rfl rfl le_rfl counted.attempt rfl rfl
  | subscribe => exact counted.quiet rfl rfl le_rfl (fun _ => counted.attempt nofun) rfl rfl
  | unsent => exact counted.quiet rfl rfl le_rfl (fun _ => counted.attempt nofun) rfl rfl
  | finish => exact counted.quiet rfl rfl le_rfl (fun running => absurd rfl running) rfl rfl
  | reject next =>
    have count := (B.attempt_duration _).trans (congrArg Nat.succ (counted.attempt nofun))
    rcases next with rfl | rfl
    · exact counted.quiet rfl rfl (Nat.zero_le 1) (fun _ => count) rfl rfl
    · exact counted.quiet rfl rfl (Nat.zero_le 1) (fun running => absurd rfl running) rfl rfl
  | giveUp next =>
    have count := (B.attempt_duration _).trans (congrArg Nat.succ (counted.attempt nofun))
    rcases next with rfl | rfl
    · exact counted.quiet rfl rfl (Nat.zero_le 1) (fun _ => count) rfl rfl
    · exact counted.quiet rfl rfl (Nat.zero_le 1) (fun running => absurd rfl running) rfl rfl
  | timer => exact counted.turn conv rfl rfl rfl (fun _ => rfl) rfl
  | receive => exact counted.turn conv rfl rfl (B.attempt_duration _) nofun rfl
  | sent => exact counted.survey rfl nofun (B.attempt_duration _) rfl

end Steps

theorem counted_run (reached : (surveying B conv ns limit).run events = some w) : Counted events w.loop.phase w := by
  induction events using List.reverseRecOn generalizing w with
  | nil =>
    cases reached
    exact ⟨fun _ => B.attempt_new, fun _ _ => rfl, fun _ => rfl, .nil, nofun⟩
  | append_singleton events e ih =>
    obtain ⟨w₀, isBefore, step⟩ := Machine.run_concat.mp reached
    exact (ih isBefore).step step

end Runs

theorem answers_mono {a b : PeerID} {d d' : UInt8} (longA : 4 ≤ a.length) (longB : 4 ≤ b.length) (less : d < d')
    (answers : ignored b a d = .ok false) : ignored b a d' = .ok false := by
  rw [answers_iff longA longB] at answers ⊢
  exact answers.trans_le (Nat.pow_le_pow_right (by decide) (UInt8.lt_iff_toNat_lt.mp less).le)

/-- Each survey has the number of turns before it as its distance, and a turn is a
response as well as a timeout. So for 255 turns every survey reaches further than
those before it, and every peer that answers one of them answers the later ones. -/
theorem survey_widens {B : Backoff} {conv : Conversion} {ns : Namespace} {limit : Int} {events : List Event}
    {w : Survey B} (reached : (surveying B conv ns limit).run events = some w) (few : turns events < 256) :
    w.asked.map UInt8.toNat = turnsBefore 0 events ∧ w.asked.Pairwise (· < ·) ∧
      ∀ a b, 4 ≤ a.length → 4 ≤ b.length →
        w.asked.Pairwise fun d d' => ignored b a d = .ok false → ignored b a d' = .ok false := by
  have counted := counted_run reached
  have isAsked := counted.asked few
  have increasing : w.asked.Pairwise (· < ·) := by
    have onTurns := counted.increasing
    rw [← isAsked, List.pairwise_map] at onTurns
    exact onTurns.imp UInt8.lt_iff_toNat_lt.mpr
  refine ⟨isAsked, increasing, fun a b longA longB => ?_⟩
  exact increasing.imp fun less answers => answers_mono longA longB less answers

/-- The conversion that takes the low byte. -/
def lowByte : Conversion where
  uint8 := UInt8.ofNat
  exact n small := by
    rw [UInt8.toNat_ofNat']
    exact Nat.mod_eq_of_lt small

/-- The backoff that is a number. -/
def counting : Backoff where
  Counter := Nat
  new := 0
  duration n := n + 1
  attempt n := n
  attempt_new := rfl
  attempt_duration _ := rfl

def surveyedTwice : List Event :=
  [.subscribe 0 0, .request true, .timer, .subscribe 1 1, .request true]

theorem survey_widens_twice : ∃ w, (surveying counting lowByte [1] 0).run surveyedTwice = some w ∧ w.asked = [0, 1] ∧
    w.asked.Pairwise (· < ·) := by
  have asked : ((surveying counting lowByte [1] 0).run surveyedTwice).map Survey.asked = some [0, 1] := rfl
  obtain ⟨w, reached, isAsked⟩ := Option.map_eq_some_iff.mp asked
  exact ⟨w, reached, isAsked, (survey_widens reached (by decide)).2.1⟩

end Casm.Boot.Gradual
