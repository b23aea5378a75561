import Casm.Cluster.Membership

namespace Casm.Cluster.Membership
open MultiIndex Routing Pulse

variable {E : Engine schema}

section Clock

variable {decode : Bytes → Except String Heartbeat} {b58 : Bytes → Bytes} {c c' : State E} {n : Nat}

theorem clock_deliver (keys : IdKeys b58) (good : Good decode b58 c) {m : Message}
    (step : c.step decode b58 (.deliver n m) = some c') : ∃ table table', c.table n = some table ∧
      c' = c.setTable n (some table') ∧ table'.clock = table.clock := by
  obtain ⟨table, map, table', map', isTable, current, current', result, cases⟩ := good.deliver_cases keys step
  refine ⟨table, table', isTable, result, ?_⟩
  rw [current.represents.clock, current'.represents.clock]
  rcases cases with ⟨_, _, _, rfl⟩ | ⟨_, rfl, _⟩
  · rfl
  · rfl

theorem clock_tick (keys : IdKeys b58) (good : Good decode b58 c) {t : Int} (epoch : Epoch t)
    (step : c.step decode b58 (.tick n t) = some c') : ∃ table table', c.table n = some table ∧
      c' = c.setTable n (some table') ∧ table'.clock = max table.clock t := by
  obtain ⟨table, map, table', isTable, current, current', result⟩ := good.tick_cases keys epoch step
  refine ⟨table, table', isTable, result, ?_⟩
  rw [current.represents.clock, current'.represents.clock, ExpiringMap.advance]
  split
  next early => exact (max_eq_left early).symm
  next later => exact (max_eq_right (not_le.mp later).le).symm

/-- What a step of the cluster can do to the clock of one router. -/
theorem clock_cases (keys : IdKeys b58) (good : Good decode b58 c) {e : Event}
    (admissible : Admissible decode e) (step : c.step decode b58 e = some c') (n : Nat) :
    (c'.table n = c.table n ∧ ∀ t, e ≠ .tick n t) ∨ (∃ t, e = .start n t ∧ c'.table n = some (.new t)) ∨
      (e = .crash n ∧ c'.table n = none) ∨ ∃ table table', c.table n = some table ∧ c'.table n = some table' ∧
        (((∀ t, e ≠ .tick n t) ∧ table'.clock = table.clock) ∨ ∃ t, e = .tick n t ∧ table'.clock = max table.clock t) := by
  have elsewhere {n' : Nat} (other : n ≠ n') (new : Option (Table E)) : (c.setTable n' new).table n = c.table n :=
    Function.update_of_ne other ..
  cases e with
  | start n' t =>
    rw [State.step] at step
    split at step
    next down =>
      cases step
      by_cases here : n = n'
      · subst here
        exact .inr (.inl ⟨t, rfl, Function.update_self ..⟩)
      · exact .inl ⟨elsewhere here _, fun _ same => by cases same⟩
    next => cases step
  | crash n' =>
    cases step
    by_cases here : n = n'
    · subst here
      exact .inr (.inr (.inl ⟨rfl, Function.update_self ..⟩))
    · exact .inl ⟨elsewhere here _, fun _ same => by cases same⟩
  | publish m =>
    cases step
    exact .inl ⟨rfl, fun _ same => by cases same⟩
  | deliver n' m =>
    obtain ⟨table, table', isTable, rfl, same⟩ := clock_deliver keys good step
    by_cases here : n = n'
    · subst here
      exact .inr (.inr (.inr ⟨table, table', isTable, Function.update_self .., .inl ⟨(fun _ isTick => by cases isTick), same⟩⟩))
    · exact .inl ⟨elsewhere here _, fun _ same => by cases same⟩
  | tick n' t =>
    obtain ⟨table, table', isTable, rfl, same⟩ := clock_tick keys good admissible step
    by_cases here : n = n'
    · subst here
      exact .inr (.inr (.inr ⟨table, table', isTable, Function.update_self .., .inr ⟨t, rfl, same⟩⟩))
    · exact .inl ⟨elsewhere here _, fun _ same => by cases same; exact here rfl⟩

/-- A tick of a router does not set its clock back, and nothing else changes it. -/
theorem clock_step (keys : IdKeys b58) (good : Good decode b58 c) {e : Event}
    (admissible : Admissible decode e) (step : c.step decode b58 e = some c') (up : e ≠ .crash n)
    (running : ∀ t, e ≠ .start n t) {table : Table E} (isTable : c.table n = some table) :
    ∃ table', c'.table n = some table' ∧ table.clock ≤ table'.clock ∧ ∀ t, e = .tick n t → t ≤ table'.clock := by
  rcases clock_cases keys good admissible step n with ⟨same, other⟩ | ⟨t, started, _⟩ | ⟨crashed, _⟩ |
    ⟨table₀, table', isTable₀, isTable', clock⟩
  · exact ⟨table, same.trans isTable, le_rfl, fun t isTick => absurd isTick (other t)⟩
  · exact absurd started (running t)
  · exact absurd crashed up
  · cases isTable.symm.trans isTable₀
    refine ⟨table', isTable', ?_⟩
    rcases clock with ⟨other, same⟩ | ⟨t, isTick, same⟩
    · exact ⟨same.ge, fun t isTick => absurd isTick (other t)⟩
    · refine ⟨same ▸ le_max_left _ _, fun t' isTick' => ?_⟩
      cases isTick.symm.trans isTick'
      exact same ▸ le_max_right _ _

end Clock

section Silence

variable {decode : Bytes → Except String Heartbeat} {b58 : Bytes → Bytes} {s : State E}
  {events before later : List Event} {n : Nat} {p : Bytes}

theorem clock_le (keys : IdKeys b58) {bound : Int} (admissible : ∀ e ∈ events, Admissible decode e)
    (times : ∀ t, .start n t ∈ events ∨ .tick n t ∈ events → t ≤ bound)
    (reached : (machine decode b58 E).run events = some s) {table : Table E}
    (isTable : s.table n = some table) : table.clock ≤ bound := by
  have good : (machine decode b58 E).Throughout (fun _ s e => Good decode b58 s ∧ Admissible decode e) events :=
    Machine.throughout_of_admissible good_start (fun _ _ _ good allowed step => good.step keys allowed step) admissible
  induction events using List.reverseRecOn generalizing s table with
  | nil =>
    cases reached
    cases isTable
  | append_singleton events e ih =>
    obtain ⟨good, last⟩ := Machine.throughout_concat.mp good
    obtain ⟨s₀, isBefore, step⟩ := Machine.run_concat.mp reached
    have earlier {table : Table E} (isTable : s₀.table n = some table) : table.clock ≤ bound := by
      refine ih (fun e member => admissible e (List.mem_append_left _ member)) (fun t member => times t ?_) isBefore
        isTable good
      exact member.imp (List.mem_append_left _) (List.mem_append_left _)
    have met := last s₀ s isBefore step
    rcases clock_cases keys met.1 met.2 step n with ⟨same, _⟩ | ⟨t, rfl, started⟩ | ⟨_, crashed⟩ |
      ⟨table₀, table', isTable₀, isTable', clock⟩
    · exact earlier (same.symm.trans isTable)
    · cases started.symm.trans isTable
      exact times t (.inl (by simp))
    · cases crashed.symm.trans isTable
    · cases isTable.symm.trans isTable'
      rcases clock with ⟨_, same⟩ | ⟨t, rfl, same⟩
      · exact same.le.trans (earlier isTable₀)
      · exact same.le.trans (max_le (earlier isTable₀) (times t (.inr (by simp))))

/-- A router that is not heard any more is dropped by the first tick of the clock that is
later than the last one before by more than the lifetime of its heartbeats. -/
theorem silent_router_dropped (keys : IdKeys b58) (named : p ≠ []) {last ttl t : Int}
    (admissible : ∀ e ∈ before ++ later, Admissible decode e)
    (reached : (machine decode b58 E).run (before ++ later) = some s)
    (times : ∀ t, .start n t ∈ before ∨ .tick n t ∈ before → t ≤ last)
    (lifetime : ∀ m h, .deliver n m ∈ before → m.sender = p → decode m.data = .ok h → h.duration ≤ ttl)
    (silent : ∀ m, m.sender = p → .deliver n m ∉ later) (ticks : .tick n t ∈ later) (passed : last + ttl < t) :
    s.lookup b58 n p = none := by
  have met := Machine.throughout_of_admissible (M := machine decode b58 E) good_start
    (fun _ _ _ good allowed step => good.step keys allowed step) admissible
  by_contra known
  obtain ⟨r, found⟩ := Option.ne_none_iff_exists'.mp known
  obtain ⟨front, e, rest, s₀, split, isFront, accepts, since⟩ := ((register keys named).read_iff met reached).mp found
  obtain ⟨m, table, rec, rfl, isTable, isSender, reads, _, rfl⟩ := accepts
  -- the last heartbeat was heard before the silence
  obtain ⟨between, rfl, rfl⟩ : ∃ between, before = front ++ .deliver n m :: between ∧ rest = between ++ later := by
    rcases List.append_eq_append_iff.mp split with ⟨more, _, isLater⟩ | ⟨more, isBefore, isRest⟩
    · exact absurd (isLater ▸ by simp) (silent m isSender)
    · rcases List.cons_eq_append_iff.mp isRest with ⟨_, isLater⟩ | ⟨between, rfl, isTail⟩
      · exact absurd (isLater ▸ by simp) (silent m isSender)
      · exact ⟨between, isBefore, isTail⟩
  obtain ⟨h, decoded, same⟩ := Except.bind_eq_ok.mp reads
  cases same
  have clock : table.clock ≤ last := by
    refine clock_le keys (fun e member => admissible e (by simp [member])) (fun t member => times t ?_) isFront isTable
    exact member.imp (List.mem_append_left _) (List.mem_append_left _)
  have short := lifetime m h (by simp) isSender decoded
  obtain ⟨early, late, rfl⟩ := List.append_of_mem ticks
  have whole : (machine decode b58 E).run
      ((front ++ .deliver n m :: (between ++ early)) ++ .tick n t :: late) = some s := by
    simpa using reached
  obtain ⟨s₁, isRun⟩ := Machine.run_front whole
  have passes := (since (between ++ early) (.tick n t) late s₁ (by simp) isRun).2
  refine passes (ends_tick.mpr ⟨rfl, ?_⟩)
  show table.clock + h.duration < t
  omega

def heardOnce : List Event :=
  [.start 0 0, .publish (beat 1), .deliver 0 (beat 1)]

theorem silent_router_dropped_heardOnce : ∃ s₀ s : State (sortedEngine schema),
    (machine decodePlain id _).run heardOnce = some s₀ ∧ s₀.lookup id 0 [1] ≠ none ∧
      (machine decodePlain id _).run (heardOnce ++ [.tick 0 (defaultTTL + 1)]) = some s ∧
      s.lookup id 0 [1] = none := by
  have before : (machine decodePlain id (sortedEngine schema)).run heardOnce = some _ := rfl
  have reached : (machine decodePlain id (sortedEngine schema)).run
      (heardOnce ++ [.tick 0 (defaultTTL + 1)]) = some _ := rfl
  have admissible : ∀ e ∈ heardOnce ++ [.tick 0 (defaultTTL + 1)], Admissible decodePlain e := by
    simp [heardOnce, Admissible, sound_beat, Epoch, defaultTTL]
  have times : ∀ t, .start 0 t ∈ heardOnce ∨ .tick 0 t ∈ heardOnce → t ≤ 0 := by simp [heardOnce]
  have lifetime : ∀ m h, .deliver 0 m ∈ heardOnce → m.sender = [1] → decodePlain m.data = .ok h →
      h.duration ≤ defaultTTL := by
    rintro m h _ _ ⟨⟩
    exact le_rfl
  exact ⟨_, _, before, by decide, reached, silent_router_dropped idKeys_id (List.cons_ne_nil _ _) admissible reached
    times lifetime (by simp) List.mem_cons_self (by decide)⟩

end Silence

end Casm.Cluster.Membership
