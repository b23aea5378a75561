import Casm.Cluster.Silence

namespace Casm.Cluster.Detector
open MultiIndex Routing Pulse Casm.Cluster.Membership

/-- A router that announces itself and one that observes it, with the bounds on what takes
time: the ticks of both clocks come within a period of each other, a heartbeat takes at
most `emission` to be published, and at most `delay` until the observer validates it. Of
the heartbeats of the announcer the first `limit` are numbered without a wrap. -/
structure Scenario where
  decode : Bytes → Except String Heartbeat
  b58 : Bytes → Bytes
  announcer : Nat
  observer : Nat
  peer : Bytes
  server : UInt64
  beat : Nat → Message
  limit : Nat
  begins : Int
  ttl : Int
  period : Int
  emission : Int
  delay : Int

/-- Where the `heartbeat` goroutine is: at the receive from `announce`, in `emit`, or
backing off after a failure. -/
inductive Heart where
  | receiving
  | emitting (since : Int)
  | resting
  deriving DecidableEq

/-- The cluster at a time. `next` is the variable of the `advance` loop. The heartbeats of
the announcer are counted, with the time at which each was published and whether the
observer has heard it. -/
structure State (E : Engine schema) where
  now : Int
  cluster : Membership.State E
  ticked : Int
  next : Int
  heart : Heart
  count : Nat
  published : Nat → Int
  observed : Int
  heard : Nat → Bool

inductive Event where
  | wait (t : Int)
  | tick (draw : Int)
  | bootstrap
  | emit
  | fail
  | resume
  | observe
  | deliver (k : Nat)
  | other (e : Membership.Event)

/-- A send on `announce`, which has no buffer, in a select with a default case. -/
def Heart.announce (now : Int) : Heart → Heart
  | .receiving => .emitting now
  | heart => heart

/-- The time has not come by which the heartbeat must have been published. -/
def Heart.mayWait (emission t : Int) : Heart → Bool
  | .emitting since => t ≤ since + emission
  | _ => true

variable {E : Engine schema}

namespace State

variable (X : Scenario)

/-- Nothing that must happen by then is left out. -/
def mayWait (s : State E) (t : Int) : Bool :=
  s.now ≤ t && t ≤ s.ticked + X.period && t ≤ s.observed + X.period && s.heart.mayWait X.emission t &&
    decide (∀ k < s.count, s.heard k = false → t ≤ s.published k + X.delay)

/-- What the `advance` loop does on a tick after it has advanced the table. -/
def advance (s : State E) (draw : Int) : State E :=
  if s.next < s.now then { s with ticked := s.now, heart := s.heart.announce s.now, next := s.now + draw }
  else { s with ticked := s.now }

def setCluster (s : State E) (cluster : Membership.State E) : State E :=
  { s with cluster := cluster }

/-- The heartbeat is out, and the goroutine receives the next announcement. -/
def publish (s : State E) (cluster : Membership.State E) : State E :=
  { s with
    cluster := cluster
    heart := .receiving
    count := s.count + 1
    published := Function.update s.published s.count s.now }

/-- Other routers do as they like, but neither take the two down nor speak for the announcer. -/
def permits : Membership.Event → Bool
  | .publish m => m.sender ≠ X.peer
  | .start n _ | .crash n | .tick n _ => n ≠ X.announcer && n ≠ X.observer
  | .deliver _ _ => true

/-- The jitter of `advance` draws between half the lifetime, less one, and the lifetime. -/
def step (s : State E) : Event → Option (State E)
  | .wait t => if s.mayWait X t then some { s with now := t } else none
  | .tick draw =>
    if X.ttl / 2 - 1 ≤ draw ∧ draw ≤ X.ttl then
      (s.cluster.step X.decode X.b58 (.tick X.announcer s.now)).map fun cluster => (s.setCluster cluster).advance draw
    else none
  | .bootstrap => if s.heart = .receiving then some { s with heart := .emitting s.now } else none
  | .emit =>
    match s.heart with
    | .emitting _ =>
      if s.count < X.limit then
        (s.cluster.step X.decode X.b58 (.publish (X.beat s.count))).map s.publish
      else none
    | _ => none
  | .fail =>
    match s.heart with
    | .emitting _ => some { s with heart := .resting }
    | _ => none
  | .resume => if s.heart = .resting then some { s with heart := .receiving } else none
  | .observe =>
    (s.cluster.step X.decode X.b58 (.tick X.observer s.now)).map fun cluster =>
      { s with cluster := cluster, observed := s.now }
  | .deliver k =>
    if k < s.count then
      (s.cluster.step X.decode X.b58 (.deliver X.observer (X.beat k))).map fun cluster =>
        { s with cluster := cluster, heard := Function.update s.heard k true }
    else none
  | .other e => if permits X e then (s.cluster.step X.decode X.b58 e).map s.setCluster else none

end State

/-- Both routers have just started. -/
def machine (X : Scenario) (E : Engine schema) : Machine (State E) Event where
  start :=
    { now := X.begins
      cluster := ⟨[], fun n => if n = X.announcer ∨ n = X.observer then some (.new X.begins) else none⟩
      ticked := X.begins
      next := X.begins
      heart := .receiving
      count := 0
      published := fun _ => X.begins
      observed := X.begins
      heard := fun _ => false }
  step := State.step X

namespace Scenario

variable (X : Scenario)

/-- The longest time between two heartbeats. -/
def gap : Int :=
  X.ttl + X.period + X.emission

/-- The number of a heartbeat, as the observer reads it. -/
def seqNo (k : Nat) : UInt64 :=
  match bigEndianUint64 (X.beat k).seqno with
  | .ok n => n
  | .error _ => 0

/-- What is assumed of the announcer: its messages are heartbeats of one instance, with
the lifetime that it announces, and each has a greater number than those before it. -/
structure Regular : Prop where
  keys : IdKeys X.b58
  named : X.peer ≠ []
  ttl : 2 ≤ X.ttl
  begins : Epoch X.begins
  period : 0 ≤ X.period
  emission : 0 ≤ X.emission
  delay : 0 ≤ X.delay
  sender : ∀ k, (X.beat k).sender = X.peer
  heartbeat : ∀ k, ∃ h, X.decode (X.beat k).data = .ok h ∧ h.duration = X.ttl ∧ h.server = X.server
  sound : ∀ k, Sound X.decode (X.beat k)
  numbered : ∀ j k, j < k → k < X.limit → X.seqNo j < X.seqNo k

end Scenario

section Pace

variable {X : Scenario} {s : State E} {t draw : Int}

/-- When the heartbeat before the `k`th was published. The start counts as if there had
been one that made the first tick due. -/
def State.before (X : Scenario) (s : State E) : Nat → Int
  | 0 => X.begins - X.ttl
  | k + 1 => s.published k

/-- The goroutine gets a heartbeat out soon after it is announced, which is soon after the
last one was published. -/
def Heart.OnTime (X : Scenario) (now next last : Int) : Heart → Prop
  | .receiving => next ≤ last + X.ttl
  | .emitting since => since ≤ now ∧ now ≤ since + X.emission ∧ since ≤ last + X.ttl + X.period
  | .resting => False

/-- How the announcer keeps time. -/
structure Paced (X : Scenario) (s : State E) : Prop where
  begun : X.begins ≤ s.now
  ticked : s.ticked ≤ s.now ∧ s.now ≤ s.ticked + X.period
  next : s.ticked ≤ s.next ∧ s.next ≤ s.now + X.ttl
  heart : s.heart.OnTime X s.now s.next (s.before X s.count)
  past : ∀ k < s.count, s.published k ≤ s.now
  order : ∀ k < s.count, ∀ j ≤ k, s.published j ≤ s.published k
  gaps : ∀ k < s.count, s.published k ≤ s.before X k + X.gap

theorem Paced.start (regular : X.Regular) : Paced X (machine X E).start where
  begun := le_rfl
  ticked := ⟨le_rfl, Int.le_add_of_nonneg_right regular.period⟩
  next := ⟨le_rfl, Int.le_add_of_nonneg_right (by have := regular.ttl; omega)⟩
  heart := by simp [machine, Heart.OnTime, State.before]
  past k inside := absurd inside k.not_lt_zero
  order k inside := absurd inside k.not_lt_zero
  gaps k inside := absurd inside k.not_lt_zero

theorem Paced.now_le (regular : X.Regular) (paced : Paced X s) : s.now ≤ s.before X s.count + X.gap := by
  obtain ⟨_, late⟩ := paced.ticked
  obtain ⟨early, _⟩ := paced.next
  have heart := paced.heart
  have emission := regular.emission
  unfold Scenario.gap
  cases phase : s.heart with
  | receiving =>
    rw [phase, Heart.OnTime] at heart
    omega
  | emitting since =>
    rw [phase, Heart.OnTime] at heart
    omega
  | resting =>
    rw [phase] at heart
    exact heart.elim

theorem Paced.wait (paced : Paced X s) (may : s.mayWait X t) : Paced X { s with now := t } := by
  simp only [State.mayWait, Bool.and_eq_true, decide_eq_true_eq] at may
  obtain ⟨⟨⟨⟨later, tick⟩, _⟩, beat⟩, _⟩ := may
  have heart : s.heart.OnTime X t s.next (s.before X s.count) := by
    have before := paced.heart
    cases phase : s.heart with
    | receiving =>
      rw [phase] at before
      exact before
    | emitting since =>
      rw [phase] at before beat
      exact ⟨before.1.trans later, of_decide_eq_true beat, before.2.2⟩
    | resting =>
      rw [phase] at before
      exact before
  exact
    { paced with
      begun := paced.begun.trans later
      ticked := ⟨paced.ticked.1.trans later, tick⟩
      next := ⟨paced.next.1, paced.next.2.trans (Int.add_le_add_right later X.ttl)⟩
      heart := heart
      past := fun k inside => (paced.past k inside).trans later }

/-- A heartbeat that is announced now is announced soon after the last one. -/
theorem Paced.announce (regular : X.Regular) (paced : Paced X s) (next : Int) :
    (s.heart.announce s.now).OnTime X s.now next (s.before X s.count) := by
  obtain ⟨_, late⟩ := paced.ticked
  obtain ⟨early, _⟩ := paced.next
  have before := paced.heart
  have emission := regular.emission
  cases phase : s.heart with
  | receiving =>
    rw [phase, Heart.OnTime] at before
    refine ⟨le_rfl, ?_, ?_⟩
    · omega
    · omega
  | emitting since =>
    rw [phase] at before
    exact before
  | resting =>
    rw [phase] at before
    exact before

theorem Paced.advance (regular : X.Regular) (paced : Paced X s) (draws : X.ttl / 2 - 1 ≤ draw ∧ draw ≤ X.ttl) :
    Paced X (s.advance draw) := by
  have ttl := regular.ttl
  have now : s.now ≤ s.now + X.period := Int.le_add_of_nonneg_right regular.period
  unfold State.advance
  split
  next due =>
    exact
      { paced with
        ticked := ⟨le_rfl, now⟩
        next := ⟨Int.le_add_of_nonneg_right (by omega), Int.add_le_add_left draws.2 s.now⟩
        heart := paced.announce regular _ }
  next early =>
    exact { paced with ticked := ⟨le_rfl, now⟩, next := ⟨not_lt.mp early, paced.next.2⟩ }

theorem Paced.bootstrap (regular : X.Regular) (paced : Paced X s) (idle : s.heart = .receiving) :
    Paced X { s with heart := .emitting s.now } := by
  have announced := paced.announce regular s.next
  rw [idle] at announced
  exact { paced with heart := announced }

theorem State.published_publish_of_lt {cluster : Membership.State E} {k : Nat} (inside : k < s.count) :
    (s.publish cluster).published k = s.published k :=
  Function.update_of_ne inside.ne ..

theorem State.published_publish_count {cluster : Membership.State E} :
    (s.publish cluster).published s.count = s.now :=
  Function.update_self ..

theorem State.before_publish {cluster : Membership.State E} {k : Nat} (inside : k ≤ s.count) :
    (s.publish cluster).before X k = s.before X k := by
  cases k with
  | zero => rfl
  | succ k => exact published_publish_of_lt inside

theorem Paced.publish (regular : X.Regular) (paced : Paced X s) (cluster : Membership.State E) :
    Paced X (s.publish cluster) := by
  have heart : s.next ≤ (s.publish cluster).before X (s.count + 1) + X.ttl := by
    rw [State.before, State.published_publish_count]
    exact paced.next.2
  refine ⟨paced.begun, paced.ticked, paced.next, heart, fun k inside => ?_, fun k inside j earlier => ?_,
    fun k inside => ?_⟩
  · rcases Nat.lt_succ_iff_lt_or_eq.mp inside with old | rfl
    · rw [State.published_publish_of_lt old]
      exact paced.past k old
    · exact State.published_publish_count.le
  · rcases Nat.lt_succ_iff_lt_or_eq.mp inside with old | rfl
    · rw [State.published_publish_of_lt old, State.published_publish_of_lt (earlier.trans_lt old)]
      exact paced.order k old j earlier
    · rw [State.published_publish_count]
      rcases earlier.lt_or_eq with before | rfl
      · rw [State.published_publish_of_lt before]
        exact paced.past j before
      · exact State.published_publish_count.le
  · rcases Nat.lt_succ_iff_lt_or_eq.mp inside with old | rfl
    · rw [State.published_publish_of_lt old, State.before_publish old.le]
      exact paced.gaps k old
    · rw [State.published_publish_count, State.before_publish le_rfl]
      exact paced.now_le regular

end Pace

section View

variable {X : Scenario} {s : State E} {c : Membership.State E} {e : Membership.Event} {r : DeadlineRecord} {k : Nat}
  {h : Heartbeat}

theorem Scenario.Regular.decoded (regular : X.Regular) (decoded : X.decode (X.beat k).data = .ok h) :
    h.duration = X.ttl ∧ h.server = X.server := by
  obtain ⟨h', decoded', rest⟩ := regular.heartbeat k
  cases decoded.symm.trans decoded'
  exact rest

theorem Scenario.Regular.seqNo_inj (regular : X.Regular) {j : Nat} (small : j < X.limit)
    (le : X.seqNo j ≤ X.seqNo k) : j ≤ k := by
  by_contra late
  exact absurd (regular.numbered k j (not_le.mp late) small) (UInt64.not_lt.mpr le)

/-- What the observer knows of the announcer. -/
def State.view (X : Scenario) (s : State E) : Option DeadlineRecord :=
  s.cluster.lookup X.b58 X.observer X.peer

/-- What the observer has is a heartbeat that it has heard, with a deadline that is counted
from a tick soon before. It has the newest that it has heard, or that one has expired. -/
structure Seen (X : Scenario) (s : State E) : Prop where
  good : Good X.decode X.b58 s.cluster
  epoch : Epoch s.now
  observed : s.observed ≤ s.now ∧ s.now ≤ s.observed + X.period
  clock : ∃ table, s.cluster.table X.observer = some table ∧ s.observed ≤ table.clock
  due : ∀ k < s.count, s.heard k = false → s.now ≤ s.published k + X.delay
  heard : ∀ k, s.heard k = true → k < s.count
  limit : s.count ≤ X.limit
  beats : ∀ m ∈ s.cluster.published, m.sender = X.peer → ∃ k < s.count, m = X.beat k
  record : ∀ r, s.view X = some r → ∃ k h, k < s.count ∧ X.decode (X.beat k).data = .ok h ∧
    r.record = routingRecord X.b58 (X.beat k) h ∧ s.published k + X.ttl ≤ r.deadline + X.period
  newest : ∀ k, s.heard k = true →
    (∃ r, s.view X = some r ∧ X.seqNo k ≤ r.record.seqNo) ∨ s.published k + X.ttl < s.now + X.period

/-- A heartbeat that no later one was heard after is not long ago. -/
theorem Seen.recent (regular : X.Regular) (paced : Paced X s) (seen : Seen X s) (inside : k < s.count)
    (last : ∀ j, s.heard j = true → j ≤ k) : s.now ≤ s.published k + X.gap + X.delay := by
  have delay := regular.delay
  rcases Nat.lt_or_ge (k + 1) s.count with more | isLast
  · have gap : s.published (k + 1) ≤ s.published k + X.gap := paced.gaps (k + 1) more
    have unheard : s.heard (k + 1) = false := by
      by_contra isHeard
      have order := last (k + 1) (Bool.eq_true_of_not_eq_false isHeard)
      omega
    have due := seen.due (k + 1) more unheard
    omega
  · have isLast : s.count = k + 1 := by omega
    have now := paced.now_le regular
    rw [isLast, State.before] at now
    omega

/-- The first heartbeat is heard soon after the start. -/
theorem Seen.early (regular : X.Regular) (paced : Paced X s) (seen : Seen X s) (unheard : s.heard 0 = false) :
    s.now ≤ X.begins + X.period + X.emission + X.delay := by
  have delay := regular.delay
  rcases Nat.eq_zero_or_pos s.count with none | some
  · have now := paced.now_le regular
    rw [none, State.before, Scenario.gap] at now
    omega
  · have due := seen.due 0 some unheard
    have first := paced.gaps 0 some
    rw [State.before, Scenario.gap] at first
    omega

/-- The event neither restarts the observer nor speaks for the announcer. -/
def Harmless (X : Scenario) : Membership.Event → Prop
  | .start n _ | .crash n => n ≠ X.observer
  | .publish m => m.sender ≠ X.peer
  | _ => True

theorem not_accepts (other : ∀ m, e ≠ .deliver X.observer m) (r : DeadlineRecord) :
    ¬ Accepts X.decode X.b58 X.observer X.peer c e r := by
  rintro ⟨m, _, _, same, _⟩
  exact other m same

/-- A harmless step that the observer learns nothing from. If it drops the record, then
that has expired, and so have the heartbeats before it. -/
theorem Seen.quiet (regular : X.Regular) (paced : Paced X s) (seen : Seen X s) {c' : Membership.State E}
    (admissible : Admissible X.decode e) (step : s.cluster.step X.decode X.b58 e = some c') (harmless : Harmless X e)
    (refuses : ∀ r, ¬ Accepts X.decode X.b58 X.observer X.peer s.cluster e r)
    (expires : ∀ r, s.view X = some r → Ends X.observer e r → r.deadline < s.now) :
    Seen X (s.setCluster c') ∧ ∀ r, (s.setCluster c').view X = some r ↔ s.view X = some r ∧ ¬ Ends X.observer e r := by
  have same (r : DeadlineRecord) :
      (s.setCluster c').view X = some r ↔ s.view X = some r ∧ ¬ Ends X.observer e r :=
    (register (E := E) (n := X.observer) regular.keys regular.named).kept (v := r) ⟨seen.good, admissible⟩ step refuses
  obtain ⟨table, isTable, late⟩ := seen.clock
  obtain ⟨table', isTable', later, _⟩ := clock_step regular.keys seen.good admissible step
    (by rintro rfl; exact harmless rfl) (by rintro t rfl; exact harmless rfl) isTable
  have beats (m : Message) (isPublished : m ∈ c'.published) (isSender : m.sender = X.peer) :
      ∃ k < s.count, m = X.beat k := by
    rcases (mem_published_step step).mp isPublished with new | old
    · subst new
      exact absurd isSender harmless
    · exact seen.beats m old isSender
  refine ⟨?_, same⟩
  exact
    { seen with
      good := seen.good.step regular.keys admissible step
      clock := ⟨table', isTable', late.trans later⟩
      beats := beats
      record := fun r found => seen.record r ((same r).mp found).1
      newest := fun k isHeard => by
        rcases seen.newest k isHeard with ⟨r, found, le⟩ | expired
        · by_cases ends : Ends X.observer e r
          · obtain ⟨j, h, inside, _, isRecord, deadline⟩ := seen.record r found
            have dropped := expires r found ends
            rw [isRecord] at le
            have small : k < X.limit := (seen.heard k isHeard).trans_le seen.limit
            have earlier : s.published k ≤ s.published j := paced.order j inside k (regular.seqNo_inj small le)
            refine .inr (show s.published k + X.ttl < s.now + X.period from ?_)
            omega
          · exact .inl ⟨r, (same r).mpr ⟨found, ends⟩, le⟩
        · exact .inr expired }

/-- After a heartbeat of the announcer was delivered the observer has it, or a newer one. -/
theorem Seen.deliver (regular : X.Regular) (paced : Paced X s) (seen : Seen X s) {c' : Membership.State E} {m : Message}
    (step : s.cluster.step X.decode X.b58 (.deliver X.observer m) = some c') : Seen X (s.setCluster c') ∧
      ∀ k < s.count, m = X.beat k → ∃ r, (s.setCluster c').view X = some r ∧ X.seqNo k ≤ r.record.seqNo := by
  have admissible : Admissible X.decode (.deliver X.observer m) := trivial
  have sameServer (r : DeadlineRecord) (found : s.view X = some r) : r.record.server = X.server := by
    obtain ⟨k, h, _, decoded, isRecord, _⟩ := seen.record r found
    rw [isRecord]
    exact (regular.decoded decoded).2
  have rule {k : Nat} {h : Heartbeat} (isBeat : m = X.beat k) (decoded : X.decode (X.beat k).data = .ok h) :
      (∃ r, Accepts X.decode X.b58 X.observer X.peer s.cluster (.deliver X.observer m) r) ↔
        ∀ r, s.view X = some r → r.record.seqNo < X.seqNo k := by
    subst isBeat
    refine seen.good.accepts_iff regular.keys regular.named (regular.sender k) decoded step fun r found => ?_
    exact (sameServer r found).trans (regular.decoded decoded).2.symm
  by_cases accepts : ∃ r, Accepts X.decode X.b58 X.observer X.peer s.cluster (.deliver X.observer m) r
  · obtain ⟨r, accepted⟩ := accepts
    have stored : (s.setCluster c').view X = some r := seen.good.accepted regular.keys regular.named accepted step
    have isPublished := published_of_deliver step
    obtain ⟨m', table, rec, same, isTable, isSender, reads, _, rfl⟩ := id accepted
    cases same
    obtain ⟨k, inside, rfl⟩ := seen.beats m isPublished isSender
    obtain ⟨h, decoded, ttl, _⟩ := regular.heartbeat k
    rw [readRecord_of_decode X.decode X.b58 decoded] at reads
    cases reads
    have newer := (rule rfl decoded).mp ⟨_, accepted⟩
    obtain ⟨table₀, isTable₀, late⟩ := seen.clock
    cases isTable.symm.trans isTable₀
    obtain ⟨table', isTable', later, _⟩ :=
      clock_step regular.keys seen.good admissible step (fun same => by cases same) (fun _ same => by cases same) isTable
    have deadline : s.published k + X.ttl ≤ table.clock + h.duration + X.period := by
      have past := paced.past k inside
      have recent := seen.observed.2
      rw [ttl]
      omega
    refine ⟨?_, fun j _ isBeat => ⟨_, stored, ?_⟩⟩
    · exact
        { seen with
          good := seen.good.step regular.keys admissible step
          clock := ⟨table', isTable', late.trans later⟩
          beats := fun m isPublished' isSender' => by
            rcases (mem_published_step step).mp isPublished' with new | old
            · cases new
            · exact seen.beats m old isSender'
          record := fun r found => by
            cases stored.symm.trans found
            exact ⟨k, h, inside, decoded, rfl, deadline⟩
          newest := fun j isHeard => by
            rcases seen.newest j isHeard with ⟨old, found, le⟩ | expired
            · exact .inl ⟨_, stored, UInt64.le_trans le (UInt64.le_of_lt (newer old found))⟩
            · exact .inr expired }
    · have sameNumber : X.seqNo j = X.seqNo k := by rw [Scenario.seqNo, ← isBeat, Scenario.seqNo]
      rw [sameNumber]
      exact UInt64.le_refl _
  · have lasts (r : DeadlineRecord) : ¬ Ends X.observer (.deliver X.observer m) r := by simp [Ends]
    obtain ⟨quiet, same⟩ := seen.quiet regular paced admissible step trivial (not_exists.mp accepts)
      fun r _ ends => absurd ends (lasts r)
    refine ⟨quiet, fun k inside isBeat => ?_⟩
    obtain ⟨h, decoded, _⟩ := regular.heartbeat k
    have refused := (not_congr (rule isBeat decoded)).mp accepts
    push Not at refused
    obtain ⟨r, found, le⟩ := refused
    exact ⟨r, (same r).mpr ⟨found, lasts r⟩, UInt64.not_lt.mp le⟩

theorem Seen.wait (seen : Seen X s) {t : Int} (epoch : Epoch t) (may : s.mayWait X t) : Seen X { s with now := t } := by
  simp only [State.mayWait, Bool.and_eq_true, decide_eq_true_eq] at may
  obtain ⟨⟨⟨⟨later, _⟩, tick⟩, _⟩, due⟩ := may
  have newest (k : Nat) (isHeard : s.heard k = true) :
      (∃ r, s.view X = some r ∧ X.seqNo k ≤ r.record.seqNo) ∨ s.published k + X.ttl < t + X.period :=
    (seen.newest k isHeard).imp_right fun expired => expired.trans_le (Int.add_le_add_right later X.period)
  exact
    { seen with
      epoch := epoch
      observed := ⟨seen.observed.1.trans later, tick⟩
      due := due
      newest := newest }

theorem Seen.advance (seen : Seen X s) (draw : Int) : Seen X (s.advance draw) := by
  unfold State.advance
  split
  · exact { seen with }
  · exact { seen with }

theorem Seen.observe (regular : X.Regular) (paced : Paced X s) (seen : Seen X s) {c' : Membership.State E}
    (step : s.cluster.step X.decode X.b58 (.tick X.observer s.now) = some c') :
    Seen X { s with cluster := c', observed := s.now } := by
  have admissible : Admissible X.decode (.tick X.observer s.now) := seen.epoch
  obtain ⟨quiet, _⟩ := seen.quiet regular paced admissible step trivial (not_accepts fun _ same => by cases same)
    fun r _ ends => (ends_tick.mp ends).2
  obtain ⟨table, isTable, _⟩ := seen.clock
  obtain ⟨table', isTable', _, reached⟩ :=
    clock_step regular.keys seen.good admissible step (fun same => by cases same) (fun _ same => by cases same) isTable
  exact
    { quiet with
      observed := ⟨le_rfl, Int.le_add_of_nonneg_right regular.period⟩
      clock := ⟨table', isTable', reached s.now rfl⟩ }

theorem Seen.publish (regular : X.Regular) (seen : Seen X s) (below : s.count < X.limit) {c' : Membership.State E}
    (step : s.cluster.step X.decode X.b58 (.publish (X.beat s.count)) = some c') : Seen X (s.publish c') := by
  cases step
  exact
    { seen with
      good := ⟨List.forall_mem_cons.mpr ⟨regular.sound s.count, seen.good.sound⟩, seen.good.current⟩
      due := fun k inside unheard => by
        rcases Nat.lt_succ_iff_lt_or_eq.mp inside with old | rfl
        · rw [State.published_publish_of_lt old]
          exact seen.due k old unheard
        · rw [State.published_publish_count]
          exact Int.le_add_of_nonneg_right regular.delay
      heard := fun k isHeard => (seen.heard k isHeard).trans (Nat.lt_succ_self _)
      limit := below
      beats := fun m isPublished isSender => by
        rcases List.mem_cons.mp isPublished with rfl | old
        · exact ⟨s.count, Nat.lt_succ_self _, rfl⟩
        · obtain ⟨k, inside, isBeat⟩ := seen.beats m old isSender
          exact ⟨k, inside.trans (Nat.lt_succ_self _), isBeat⟩
      record := fun r found => by
        obtain ⟨k, h, inside, decoded, isRecord, deadline⟩ := seen.record r found
        refine ⟨k, h, inside.trans (Nat.lt_succ_self _), decoded, isRecord, ?_⟩
        rw [State.published_publish_of_lt inside]
        exact deadline
      newest := fun k isHeard => by
        rw [State.published_publish_of_lt (seen.heard k isHeard)]
        exact seen.newest k isHeard }

/-- What others do in the cluster leaves the observer as it is, or delivers it a heartbeat
of the announcer once more. -/
theorem Seen.other (regular : X.Regular) (paced : Paced X s) (seen : Seen X s) (permitted : State.permits X e)
    (admissible : Admissible X.decode e) {c' : Membership.State E}
    (step : s.cluster.step X.decode X.b58 e = some c') : Seen X (s.setCluster c') := by
  cases e with
  | start n t =>
    have other : n ≠ X.observer := by simp_all [State.permits]
    exact (seen.quiet regular paced admissible step other (not_accepts fun _ same => by cases same)
      fun r _ ends => by simp [Ends] at ends).1
  | crash n =>
    have other : n ≠ X.observer := by simp_all [State.permits]
    exact (seen.quiet regular paced admissible step other (not_accepts fun _ same => by cases same)
      fun r _ ends => absurd (ends_crash.mp ends) other).1
  | publish m =>
    have foreign : m.sender ≠ X.peer := by simpa [State.permits] using permitted
    exact (seen.quiet regular paced admissible step foreign (not_accepts fun _ same => by cases same)
      fun r _ ends => by simp [Ends] at ends).1
  | deliver n m =>
    by_cases here : n = X.observer
    · subst here
      exact (seen.deliver regular paced step).1
    · exact (seen.quiet regular paced admissible step trivial (not_accepts fun _ same => by cases same; exact here rfl)
        fun r _ ends => by simp [Ends] at ends).1
  | tick n t =>
    have other : n ≠ X.observer := by simp_all [State.permits]
    exact (seen.quiet regular paced admissible step trivial (not_accepts fun _ same => by cases same)
      fun r _ ends => absurd (ends_tick.mp ends).1 other).1

theorem Seen.start (regular : X.Regular) : Seen X (machine X E).start := by
  have isNone : (machine X E).start.view X = none := by
    have current : Current X.b58 (.new X.begins : Table E) (.new X.begins) := .new regular.begins
    have isTable : (machine X E).start.cluster.table X.observer = some (.new X.begins) := if_pos (.inr rfl)
    exact current.lookup regular.keys isTable regular.named
  refine ⟨⟨fun m isPublished => ?_, fun n table found => ?_⟩, regular.begins,
    ⟨le_rfl, Int.le_add_of_nonneg_right regular.period⟩, ⟨_, if_pos (.inr rfl), le_rfl⟩,
    fun k inside => absurd inside k.not_lt_zero, fun k isHeard => ?_, Nat.zero_le _, fun m isPublished => ?_,
    fun r found => ?_, fun k isHeard => ?_⟩
  · cases isPublished
  · have same : (if n = X.announcer ∨ n = X.observer then some (Table.new X.begins) else none) = some table := found
    split at same
    · cases same
      exact ⟨_, .new regular.begins⟩
    · cases same
  · cases isHeard
  · cases isPublished
  · cases isNone.symm.trans found
  · cases isHeard

end View

section Run

variable {X : Scenario} {s s' : State E} {events : List Event}

/-- The steps of the scenario, with the conditions under which they are taken. -/
inductive Turn (X : Scenario) (s : State E) : Event → State E → Prop
  | wait {t : Int} : s.mayWait X t → Turn X s (.wait t) { s with now := t }
  | tick {draw : Int} {c' : Membership.State E} : X.ttl / 2 - 1 ≤ draw ∧ draw ≤ X.ttl →
      s.cluster.step X.decode X.b58 (.tick X.announcer s.now) = some c' →
      Turn X s (.tick draw) ((s.setCluster c').advance draw)
  | bootstrap : s.heart = .receiving → Turn X s .bootstrap { s with heart := .emitting s.now }
  | emit {c' : Membership.State E} : s.count < X.limit →
      s.cluster.step X.decode X.b58 (.publish (X.beat s.count)) = some c' → Turn X s .emit (s.publish c')
  | fail : Turn X s .fail { s with heart := .resting }
  | resume : s.heart = .resting → Turn X s .resume { s with heart := .receiving }
  | observe {c' : Membership.State E} : s.cluster.step X.decode X.b58 (.tick X.observer s.now) = some c' →
      Turn X s .observe { s with cluster := c', observed := s.now }
  | deliver {k : Nat} {c' : Membership.State E} : k < s.count →
      s.cluster.step X.decode X.b58 (.deliver X.observer (X.beat k)) = some c' →
      Turn X s (.deliver k) { s with cluster := c', heard := Function.update s.heard k true }
  | other {e : Membership.Event} {c' : Membership.State E} : State.permits X e →
      s.cluster.step X.decode X.b58 e = some c' → Turn X s (.other e) (s.setCluster c')

theorem turn_of_step {e : Event} (step : s.step X e = some s') : Turn X s e s' := by
  cases e with
  | wait t =>
    obtain ⟨may, isNext⟩ := Option.ite_none_right_eq_some.mp step
    cases isNext
    exact .wait may
  | tick draw =>
    obtain ⟨draws, isNext⟩ := Option.ite_none_right_eq_some.mp step
    obtain ⟨c', isStep, rfl⟩ := Option.map_eq_some_iff.mp isNext
    exact .tick draws isStep
  | bootstrap =>
    obtain ⟨idle, isNext⟩ := Option.ite_none_right_eq_some.mp step
    cases isNext
    exact .bootstrap idle
  | emit =>
    rw [State.step] at step
    split at step
    · obtain ⟨below, isNext⟩ := Option.ite_none_right_eq_some.mp step
      obtain ⟨c', isStep, rfl⟩ := Option.map_eq_some_iff.mp isNext
      exact .emit below isStep
    · cases step
  | fail =>
    rw [State.step] at step
    split at step
    · cases step
      exact .fail
    · cases step
  | resume =>
    obtain ⟨resting, isNext⟩ := Option.ite_none_right_eq_some.mp step
    cases isNext
    exact .resume resting
  | observe =>
    obtain ⟨c', isStep, rfl⟩ := Option.map_eq_some_iff.mp step
    exact .observe isStep
  | deliver k =>
    obtain ⟨inside, isNext⟩ := Option.ite_none_right_eq_some.mp step
    obtain ⟨c', isStep, rfl⟩ := Option.map_eq_some_iff.mp isNext
    exact .deliver inside isStep
  | other e =>
    obtain ⟨permitted, isNext⟩ := Option.ite_none_right_eq_some.mp step
    obtain ⟨c', isStep, rfl⟩ := Option.map_eq_some_iff.mp isNext
    exact .other permitted isStep

end Run

end Casm.Cluster.Detector
