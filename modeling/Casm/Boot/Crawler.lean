import Casm.Boot.Ports
import Casm.Lib.Machine

namespace Casm.Boot.Crawler
open GoNet

/-- `Range`, with the types that implement it. -/
inductive Range where
  | ports (p : PortRange)
  | cidr (c : CIDR)

/-- `Next`. The fuel is for the loop of a CIDR. -/
def Range.next (fuel : Nat) : Range → Addr → Option (Range × Addr × Bool)
  | .ports p, addr => some (.ports (p.next addr).1, (p.next addr).2)
  | .cidr c, addr => (c.next fuel addr).map fun (c', result) => (.cidr c', result)

/-- `Strategy`, as `NewPortRange` and `NewCIDR` return it. -/
inductive Strategy where
  | ports (ip : Buffer) (low high : Int)
  | cidr (b : Block) (port : Int)

/-- Every call makes a range of its own. -/
def Strategy.iter (random : Nat → UInt8) : Strategy → Range
  | .ports ip low high => .ports (newPortRange ip low high)
  | .cidr b port => .cidr (newCIDR b port random)

inductive Phase where
  | crawling
  | sending
  | waiting
  | returned
  deriving DecidableEq

/-- The goroutine of `FindPeers`, with the addresses that it has sent requests to. -/
structure State where
  iter : Range
  addr : Addr
  phase : Phase
  asked : List (IP × Int)
  ctxDone : Bool
  sockDone : Bool

/-- The first two are not the goroutine's own. -/
inductive Event where
  | cancel
  | close
  | next (fuel : Nat)
  | sent
  | failed
  | wake

def Event.own : Event → Bool
  | .cancel | .close => false
  | _ => true

/-- Where a packet for the address goes. -/
def dialed : Addr → List (IP × Int)
  | .host _ a => [(a.ip.bytes, a.port)]
  | .other => []

namespace State

def active (s : State) : Bool :=
  !s.ctxDone && !s.sockDone

/-- The condition of the loop. -/
def advance (s : State) (fuel : Nat) : Option State :=
  if s.active then
    (s.iter.next fuel s.addr).map fun (iter, addr, more) =>
      { s with iter := iter, addr := addr, phase := if more then .sending else .waiting }
  else some { s with phase := .waiting }

def step (s : State) : Event → Option State
  | .cancel => some { s with ctxDone := true }
  | .close => some { s with sockDone := true }
  | .next fuel => if s.phase = .crawling then s.advance fuel else none
  | .sent => if s.phase = .sending then some { s with phase := .crawling, asked := s.asked ++ dialed s.addr } else none
  -- whatever the error is, the goroutine logs it and returns
  | .failed => if s.phase = .sending then some { s with phase := .returned } else none
  | .wake => if s.phase = .waiting ∧ s.active = false then some { s with phase := .returned } else none

end State

/-- The zero value of `net.UDPAddr`. -/
def noAddr : Addr :=
  .host .udp ⟨⟨[], 0, le_rfl⟩, 0, []⟩

def machine (iter : Range) : Machine State Event where
  start := ⟨iter, noAddr, .crawling, [], false, false⟩
  step := State.step

/-- What a strategy is to ask: the ports between the bounds, or the hosts of the block. -/
def Strategy.Target : Strategy → IP × Int → Prop
  | .ports ip low high, (x, port) =>
    x = (hostOf ip).bytes ∧ ∃ n ∈ portsOf (UInt16.ofInt low) (UInt16.ofInt high), port = (n : Int)
  | .cidr b port, (x, port') => port' = port ∧ b.Mem x ∧ x ≠ b.network ∧ x ≠ b.broadcast

/-- A range of ports that begins at port zero, which its `Next` takes for the end. With both
bounds zero it is the default range, which begins elsewhere. -/
def Strategy.BeginsAtZero : Strategy → Prop
  | .ports _ low high => UInt16.ofInt low = 0 ∧ UInt16.ofInt high ≠ 0
  | .cidr .. => False

/-- `Next` names the targets one after the other and then returns false, whatever
UDP address it is called with. -/
def Lists : List (IP × Int) → Range → Prop
  | [], r => ∀ a, ∃ fuel r' a', r.next fuel (.host .udp a) = some (r', .host .udp a', false)
  | t :: rest, r => ∀ a, ∃ fuel r' a', r.next fuel (.host .udp a) = some (r', .host .udp a', true) ∧
      (a'.ip.bytes, a'.port) = t ∧ Lists rest r'

section Ranges

theorem skipLoop_more {fuel : Nat} {c : CIDR} {ip : Buffer} {found : CIDR × Buffer}
    (run : c.skipLoop fuel ip = some found) (more : Nat) : c.skipLoop (fuel + more) ip = some found := by
  induction fuel generalizing c ip with
  | zero => cases run
  | succ fuel ih =>
    rw [Nat.add_right_comm]
    rw [CIDR.skipLoop] at run ⊢
    split at run
    next skip => exact (if_pos skip).trans (ih run)
    next keep => exact (if_neg keep).trans run

theorem next_more {fuel : Nat} {r : Range} {addr : Addr} {result : Range × Addr × Bool}
    (run : r.next fuel addr = some result) (more : Nat) : r.next (fuel + more) addr = some result := by
  cases r with
  | ports p => exact run
  | cidr c =>
    obtain ⟨returned, isNext, rfl⟩ := Option.map_eq_some_iff.mp run
    refine Option.map_eq_some_iff.mpr ⟨returned, ?_, rfl⟩
    cases addr with
    | host network a =>
      obtain ⟨bound, isBind, rfl⟩ := Option.map_eq_some_iff.mp isNext
      obtain ⟨found, loop, rfl⟩ := Option.map_eq_some_iff.mp isBind
      rw [CIDR.next, CIDR.bind, CIDR.nextIP, skipLoop_more loop more]
      rfl
    | other => exact isNext

/-- The fuel does not matter for what a call returns. -/
theorem next_unique {fuel fuel' : Nat} {r : Range} {addr : Addr} {result result' : Range × Addr × Bool}
    (run : r.next fuel addr = some result) (run' : r.next fuel' addr = some result') : result = result' := by
  have one := next_more run fuel'
  rw [Nat.add_comm, next_more run' fuel] at one
  exact (Option.some.inj one).symm

/-- The calls that are left of a CIDR name the places that remain. -/
theorem lists_crawler {b : Block} {random : Nat → UInt8} (port : Int) {places : List Nat} {j : Nat} {ip : IP}
    (isPlaces : b.remaining random j = places) (upcoming : Upcoming b j ip) (inside : j ≤ b.size) :
    Lists (places.map fun i => (b.shuffled random i, port)) (.cidr (crawler b port random ip)) := by
  induction places generalizing j ip with
  | nil =>
    intro a
    obtain ⟨k, a', run, _, _, _, rest, goesOn⟩ := next_crawler port .udp a upcoming inside (Nat.lt_succ_self _)
    have last : ¬ k < b.size := by
      intro short
      rw [isPlaces, goesOn short] at rest
      cases rest
    refine ⟨b.size - j + 1, .cidr (crawler b port random (b.nth k)), a', ?_⟩
    rw [Range.next, run, decide_eq_false last]
    rfl
  | cons i places ih =>
    intro a
    obtain ⟨k, a', run, isPort, bytes, bound, rest, goesOn⟩ :=
      next_crawler port .udp a upcoming inside (Nat.lt_succ_self _)
    have short : k < b.size := by
      refine lt_of_le_of_ne bound ?_
      rintro rfl
      rw [isPlaces, b.remaining_size] at rest
      cases rest
    rw [isPlaces, goesOn short] at rest
    obtain ⟨rfl, isRest⟩ := List.cons.inj rest
    refine ⟨b.size - j + 1, .cidr (crawler b port random (b.nth i)), a', ?_, ?_,
      ih isRest.symm (.inr ⟨i, rfl, rfl⟩) short⟩
    · rw [Range.next, run, decide_eq_true short]
      rfl
    · rw [bytes, isPort]

/-- One call leaves the ports after the first. -/
theorem enumerates_tail {p : PortRange} {ip : Buffer} {ports : List Nat} (enumerates : p.Enumerates ip ports)
    (a : AddrKind) : (p.next (.host .udp a)).2 = dialing ip ports.head? (.udp, a) ∧
      (p.next (.host .udp a)).1.Enumerates ip ports.tail := by
  have first (addrs : List (Network × AddrKind)) := enumerates ((.udp, a) :: addrs)
  simp only [List.map_cons, PortRange.nexts, List.mapIdx_cons, List.cons.injEq] at first
  refine ⟨(first []).1.trans (by rw [List.head?_eq_getElem?]), fun addrs => (first addrs).2.trans ?_⟩
  simp only [List.getElem?_tail]

theorem lists_ports {p : PortRange} {ip : Buffer} {ports : List Nat} (enumerates : p.Enumerates ip ports) :
    Lists (ports.map fun port : Nat => (ip.bytes, (port : Int))) (.ports p) := by
  induction ports generalizing p with
  | nil =>
    intro a
    exact ⟨0, .ports (p.next (.host .udp a)).1, _, congrArg some (congrArg _ (enumerates_tail enumerates a).1)⟩
  | cons port ports ih =>
    intro a
    obtain ⟨isNext, rest⟩ := enumerates_tail enumerates a
    exact ⟨0, .ports (p.next (.host .udp a)).1, _, congrArg some (congrArg _ isNext), rfl, ih rest⟩

/-- The ports between the bounds, unless the range has ended before its first port. -/
theorem newPortRange_enumerates (ip : Buffer) (low high : UInt16) :
    (newPortRange ip low.toNat high.toNat).Enumerates (hostOf ip)
      (if low = 0 ∧ high ≠ 0 then [] else portsOf low high) := by
  rw [newPortRange_eq, portsOf]
  by_cases default : low = 0 ∧ high = 0
  · rw [if_pos default, if_pos default, if_neg fun begins => begins.2 default.2]
    exact PortRange.enumerates_from _ ⟨_, 1024, 65535, 1024⟩ rfl (show (1024 : UInt16) ≠ 0 by decide)
  · rw [if_neg default, if_neg default]
    by_cases zero : low = 0
    · rw [if_pos ⟨zero, fun none => default ⟨zero, none⟩⟩]
      exact PortRange.Enumerates.nil (p := ⟨hostOf ip, low, high, low⟩) (PortRange.nextPort_ended (.inl zero))
    · rw [if_neg fun begins => zero begins.1]
      exact PortRange.enumerates_from _ ⟨_, low, high, low⟩ rfl zero

theorem portsFrom_nodup (low high : Nat) : (portsFrom low high).Nodup :=
  List.Nodup.filter _ List.nodup_range'

theorem portsOf_nodup (low high : UInt16) : (portsOf low high).Nodup := by
  rw [portsOf]
  split
  · exact portsFrom_nodup 1024 65535
  · exact portsFrom_nodup low.toNat high.toNat

theorem newPortRange_toNat (ip : Buffer) (low high : Int) :
    newPortRange ip low high = newPortRange ip (UInt16.ofInt low).toNat (UInt16.ofInt high).toNat := by
  rw [newPortRange, newPortRange, ofInt_toNat, ofInt_toNat]

/-- The range of a strategy names its targets, in some order, each of them once, and none
of them if it begins at port zero. -/
theorem iter_lists (strategy : Strategy) (random : Nat → UInt8) :
    ∃ targets, targets.Nodup ∧ (∀ t, t ∈ targets ↔ ¬ strategy.BeginsAtZero ∧ strategy.Target t) ∧
      Lists targets (strategy.iter random) := by
  cases strategy with
  | ports ip low high =>
    have enumerates := newPortRange_enumerates ip (UInt16.ofInt low) (UInt16.ofInt high)
    rw [← newPortRange_toNat] at enumerates
    refine ⟨_, ?_, fun t => ?_, lists_ports enumerates⟩
    · refine List.Nodup.map (fun i j same => Int.ofNat_inj.mp (Prod.mk.inj same).2) ?_
      split
      · exact List.nodup_nil
      · exact portsOf_nodup ..
    · obtain ⟨x, port⟩ := t
      rw [List.mem_map, Strategy.BeginsAtZero, Strategy.Target]
      constructor
      · rintro ⟨n, member, same⟩
        obtain ⟨rfl, rfl⟩ := Prod.mk.inj same
        split at member
        next => cases member
        next proper => exact ⟨proper, rfl, n, member, rfl⟩
      · rintro ⟨proper, rfl, n, member, rfl⟩
        rw [if_neg proper]
        exact ⟨n, member, rfl⟩
  | cidr b port =>
    have isIter : newCIDR b port random = crawler b port random [] := reset_eq b random rfl
    refine ⟨_, ?_, fun t => ?_, isIter ▸ lists_crawler port rfl (.inl ⟨rfl, rfl⟩) b.size.zero_le⟩
    · have dialed := b.dialed_nodup random
      refine List.Nodup.map_on ?_ (List.Nodup.of_map _ dialed)
      intro i memI j memJ same
      exact List.inj_on_of_nodup_map dialed memI memJ (Prod.mk.inj same).1
    · obtain ⟨x, port'⟩ := t
      rw [List.mem_map, Strategy.BeginsAtZero, and_iff_right not_false, Strategy.Target, ← b.mem_dialed_iff random,
        List.mem_map]
      constructor
      · rintro ⟨i, member, same⟩
        obtain ⟨rfl, rfl⟩ := Prod.mk.inj same
        exact ⟨rfl, i, member, rfl⟩
      · rintro ⟨rfl, i, member, rfl⟩
        exact ⟨i, member, rfl⟩

end Ranges

section Runs

variable {iter : Range} {targets : List (IP × Int)} {s s' : State} {e : Event} {events : List Event}

/-- How far the goroutine has come with the targets of its range. -/
inductive Progress (targets : List (IP × Int)) (s : State) : Prop where
  | crawling (rest : List (IP × Int)) : s.phase = .crawling → targets = s.asked ++ rest → Lists rest s.iter →
      (∃ a, s.addr = .host .udp a) → Progress targets s
  | sending (t : IP × Int) (rest : List (IP × Int)) : s.phase = .sending → targets = s.asked ++ t :: rest →
      Lists rest s.iter → (∃ a, s.addr = .host .udp a ∧ (a.ip.bytes, a.port) = t) → Progress targets s
  | waiting : s.phase = .waiting → s.asked <+: targets → (s.active = true → s.asked = targets) → Progress targets s
  | returned : s.phase = .returned → s.asked <+: targets → Progress targets s

/-- The calls of `Next` and the results of sending that are still to come, at most. -/
def State.left (s : State) (count : Nat) : Nat :=
  match s.phase with
  | .crawling => 2 * (count - s.asked.length) + 2
  | .sending => 2 * (count - s.asked.length) + 1
  | .waiting => 1
  | .returned => 0

theorem Progress.asked (progress : Progress targets s) : s.asked <+: targets := by
  rcases progress with ⟨rest, _, isRest, _⟩ | ⟨t, rest, _, isRest, _⟩ | ⟨_, asked, _⟩ | ⟨_, asked⟩
  · exact ⟨rest, isRest.symm⟩
  · exact ⟨t :: rest, isRest.symm⟩
  · exact asked
  · exact asked

theorem Progress.of_crawling (progress : Progress targets s) (phase : s.phase = .crawling) :
    ∃ rest a, targets = s.asked ++ rest ∧ Lists rest s.iter ∧ s.addr = .host .udp a := by
  rcases progress with ⟨rest, _, isRest, lists, a, isAddr⟩ | ⟨_, _, other, _⟩ | ⟨other, _⟩ | ⟨other, _⟩
  · exact ⟨rest, a, isRest, lists, isAddr⟩
  all_goals
    rw [phase] at other
    cases other

theorem Progress.of_sending (progress : Progress targets s) (phase : s.phase = .sending) :
    ∃ t rest a, targets = s.asked ++ t :: rest ∧ Lists rest s.iter ∧ s.addr = .host .udp a ∧ dialed s.addr = [t] := by
  rcases progress with ⟨_, other, _⟩ | ⟨t, rest, _, isRest, lists, a, isAddr, isTarget⟩ | ⟨other, _⟩ | ⟨other, _⟩
  rotate_left
  · refine ⟨t, rest, a, isRest, lists, isAddr, ?_⟩
    rw [isAddr, dialed, isTarget]
  all_goals
    rw [phase] at other
    cases other

/-- A cancelled context or a closed socket does not change how far the crawl is. -/
theorem Progress.interrupt {ctxDone sockDone : Bool} (progress : Progress targets s)
    (ended : (!ctxDone && !sockDone) = false) :
    Progress targets { s with ctxDone := ctxDone, sockDone := sockDone } := by
  rcases progress with ⟨rest, phase, isRest, lists, addr⟩ | ⟨t, rest, phase, isRest, lists, addr⟩ |
    ⟨phase, asked, _⟩ | ⟨phase, asked⟩
  · exact .crawling rest phase isRest lists addr
  · exact .sending t rest phase isRest lists addr
  · refine .waiting phase asked fun active => ?_
    rw [State.active, ended] at active
    cases active
  · exact .returned phase asked

/-- The condition of the loop names the next target, or all were asked. -/
theorem Progress.advance (progress : Progress targets s) (phase : s.phase = .crawling) {fuel : Nat}
    (step : s.advance fuel = some s') :
    Progress targets s' ∧ s'.asked = s.asked ∧ (s'.phase = .sending ∨ s'.phase = .waiting) := by
  obtain ⟨rest, a, isRest, lists, isAddr⟩ := progress.of_crawling phase
  rw [State.advance] at step
  split at step
  next active =>
    obtain ⟨result, isNext, rfl⟩ := Option.map_eq_some_iff.mp step
    rw [isAddr] at isNext
    cases rest with
    | nil =>
      obtain ⟨_, r', a', isLast⟩ := lists a
      cases next_unique isNext isLast
      rw [List.append_nil] at isRest
      exact ⟨.waiting rfl (isRest ▸ List.prefix_rfl) fun _ => isRest.symm, rfl, .inr rfl⟩
    | cons t rest =>
      obtain ⟨_, r', a', isTarget, named, lists⟩ := lists a
      cases next_unique isNext isTarget
      exact ⟨.sending t rest rfl isRest lists ⟨a', rfl, named⟩, rfl, .inl rfl⟩
  next inactive =>
    cases step
    exact ⟨.waiting rfl ⟨rest, isRest.symm⟩ fun active => absurd active inactive, rfl, .inr rfl⟩

theorem Progress.step (progress : Progress targets s) (step : s.step e = some s') :
    Progress targets s' ∧ s'.left targets.length + e.own.toNat ≤ s.left targets.length := by
  cases e with
  | cancel =>
    cases step
    exact ⟨progress.interrupt rfl, le_rfl⟩
  | close =>
    cases step
    exact ⟨progress.interrupt (Bool.and_false _), le_rfl⟩
  | next fuel =>
    obtain ⟨phase, step⟩ := Option.ite_none_right_eq_some.mp step
    obtain ⟨after, same, isPhase⟩ := progress.advance phase step
    refine ⟨after, ?_⟩
    rcases isPhase with isPhase | isPhase
    · simp only [State.left, phase, isPhase, same, Event.own, Bool.toNat_true]
      omega
    · simp only [State.left, phase, isPhase, Event.own, Bool.toNat_true]
      omega
  | sent =>
    obtain ⟨phase, step⟩ := Option.ite_none_right_eq_some.mp step
    obtain ⟨t, rest, a, isRest, lists, isAddr, isTarget⟩ := progress.of_sending phase
    cases step
    refine ⟨.crawling rest rfl ?_ lists ⟨a, isAddr⟩, ?_⟩
    · simp only [isTarget, isRest, List.append_assoc, List.singleton_append]
    · have count := congrArg List.length isRest
      rw [List.length_append, List.length_cons] at count
      simp only [State.left, phase, isTarget, List.length_append, List.length_singleton, Event.own, Bool.toNat_true]
      omega
  | failed =>
    obtain ⟨phase, step⟩ := Option.ite_none_right_eq_some.mp step
    cases step
    refine ⟨.returned rfl progress.asked, ?_⟩
    simp only [State.left, phase, Event.own, Bool.toNat_true]
    omega
  | wake =>
    obtain ⟨⟨phase, _⟩, step⟩ := Option.ite_none_right_eq_some.mp step
    cases step
    refine ⟨.returned rfl progress.asked, ?_⟩
    simp only [State.left, phase, Event.own, Bool.toNat_true]
    omega

theorem progress_run (lists : Lists targets iter) (reached : (machine iter).run events = some s) :
    Progress targets s ∧ (events.filter Event.own).length + s.left targets.length ≤ 2 * targets.length + 2 := by
  induction events using List.reverseRecOn generalizing s with
  | nil =>
    cases reached
    exact ⟨.crawling targets rfl rfl lists ⟨_, rfl⟩, Nat.zero_add _ ▸ le_rfl⟩
  | append_singleton events e ih =>
    obtain ⟨s₀, isBefore, step⟩ := Machine.run_concat.mp reached
    obtain ⟨progress, bound⟩ := ih isBefore
    obtain ⟨progress, less⟩ := progress.step step
    refine ⟨progress, ?_⟩
    rw [List.filter_append, List.length_append, List.filter_singleton]
    cases own : e.own with
    | false => simpa [own] using le_trans (Nat.add_le_add_left less _) bound
    | true =>
      rw [own, Bool.toNat_true] at less
      simp only [cond_true, List.length_singleton]
      omega

/-- The goroutine gives up its subscription for one of three reasons. -/
theorem returned_run (reached : (machine iter).run events = some s) (returned : s.phase = .returned) :
    s.active = false ∨ .failed ∈ events := by
  induction events using List.reverseRecOn generalizing s with
  | nil =>
    cases reached
    cases returned
  | append_singleton events e ih =>
    obtain ⟨s₀, isBefore, step⟩ := Machine.run_concat.mp reached
    cases e with
    | cancel =>
      cases step
      exact .inl rfl
    | close =>
      cases step
      exact .inl (Bool.and_false _)
    | next fuel =>
      obtain ⟨_, step⟩ := Option.ite_none_right_eq_some.mp step
      rw [State.advance] at step
      split at step
      · obtain ⟨⟨_, _, more⟩, _, rfl⟩ := Option.map_eq_some_iff.mp step
        cases more
        · cases returned
        · cases returned
      · cases step
        cases returned
    | sent =>
      obtain ⟨_, step⟩ := Option.ite_none_right_eq_some.mp step
      cases step
      cases returned
    | failed => exact .inr (List.mem_append_right _ (List.mem_singleton_self _))
    | wake =>
      obtain ⟨⟨_, inactive⟩, step⟩ := Option.ite_none_right_eq_some.mp step
      cases step
      exact .inl inactive

theorem advance_returns (progress : Progress targets s) (phase : s.phase = .crawling) :
    ∃ fuel s', s.step (.next fuel) = some s' := by
  obtain ⟨rest, a, _, lists, isAddr⟩ := progress.of_crawling phase
  have called : ∃ fuel result, s.iter.next fuel s.addr = some result := by
    rw [isAddr]
    cases rest with
    | nil =>
      obtain ⟨fuel, _, _, isNext⟩ := lists a
      exact ⟨fuel, _, isNext⟩
    | cons t rest =>
      obtain ⟨fuel, _, _, isNext, _⟩ := lists a
      exact ⟨fuel, _, isNext⟩
  obtain ⟨fuel, result, isNext⟩ := called
  refine ⟨fuel, ?_⟩
  rw [State.step, if_pos phase, State.advance, isNext]
  split
  · exact ⟨_, rfl⟩
  · exact ⟨_, rfl⟩

/-- Whenever the context is cancelled, the socket closed or a request not sent, the
goroutine of `FindPeers` has asked each of its targets at most once, and nobody else.
If nothing of that happens it asks all of them, in finitely many steps, and then waits
for the responses. Over ports that begin at port zero it asks nobody. -/
theorem crawl_asks_each (strategy : Strategy) (random : Nat → UInt8) :
    ∃ targets, targets.Nodup ∧ (∀ t, t ∈ targets ↔ ¬ strategy.BeginsAtZero ∧ strategy.Target t) ∧
      ∀ events s, (machine (strategy.iter random)).run events = some s →
        s.asked <+: targets ∧ (events.filter Event.own).length ≤ 2 * targets.length + 2 ∧
        (s.phase = .crawling → ∃ fuel s', s.step (.next fuel) = some s') ∧
        (s.phase = .waiting → s.active = true → s.asked = targets) ∧
        (s.phase = .returned → s.active = false ∨ .failed ∈ events) := by
  obtain ⟨targets, nodup, isTarget, lists⟩ := iter_lists strategy random
  refine ⟨targets, nodup, isTarget, fun events s reached => ?_⟩
  obtain ⟨progress, bound⟩ := progress_run lists reached
  refine ⟨progress.asked, le_trans (Nat.le_add_right _ _) bound, advance_returns progress, ?_, returned_run reached⟩
  intro phase active
  rcases progress with ⟨_, other, _⟩ | ⟨_, _, other, _⟩ | ⟨_, _, all⟩ | ⟨other, _⟩
  rotate_left 2
  · exact all active
  all_goals
    rw [phase] at other
    cases other

/-- A crawl of four addresses, two of them hosts. -/
theorem crawl_asks_each_small :
    let strategy : Strategy := .cidr ⟨[10, 0, 0, 1], 30, by decide⟩ 8822
    ∃ s, (machine (strategy.iter fun _ => 1)).run [.next 5, .sent, .next 5, .sent, .next 5] = some s ∧
      s.phase = .waiting ∧ s.active = true ∧ ∀ t, t ∈ s.asked ↔ strategy.Target t := by
  intro strategy
  obtain ⟨targets, _, isTarget, ran⟩ := crawl_asks_each strategy fun _ => 1
  have ends : ((machine (strategy.iter fun _ => 1)).run [.next 5, .sent, .next 5, .sent, .next 5]).map
      (fun s => (s.phase, s.active)) = some (.waiting, true) := by
    decide +kernel
  obtain ⟨s, reached, same⟩ := Option.map_eq_some_iff.mp ends
  obtain ⟨phase, active⟩ := Prod.mk.inj same
  obtain ⟨_, _, _, all, _⟩ := ran _ s reached
  refine ⟨s, reached, phase, active, fun t => ?_⟩
  rw [all phase active]
  exact (isTarget t).trans (and_iff_right not_false)

end Runs

end Casm.Boot.Crawler
