import Casm.Boot.Crawl

namespace Casm.Boot
open GoNet

/-- The addresses that `Next` fills share the array of `ip`. -/
structure PortRange where
  ip : Buffer
  low : UInt16
  high : UInt16
  index : UInt16

/-- `net.IPv4`, which writes its bytes at the end of a 16 byte slice. -/
def ipv4 (a b c d : UInt8) : Buffer :=
  ⟨v4InV6 ++ [a, b, c, d], 16, le_refl 16⟩

namespace PortRange

def reset (p : PortRange) : PortRange :=
  let p := if p.ip.len = 0 then { p with ip := ipv4 127 0 0 1 } else p
  let p := if p.low = 0 ∧ p.high = 0 then { p with low := 1024, high := 65535 } else p
  { p with index := p.low }

/-- The range, the port and whether there was one. -/
def nextPort (p : PortRange) : PortRange × Int × Bool :=
  if p.index ≠ 0 ∧ p.index ≤ p.high then ({ p with index := p.index + 1 }, p.index.toNat, true) else (p, 0, false)

def next (p : PortRange) (addr : Addr) : PortRange × Addr × Bool :=
  match addr with
  | .host network a =>
    (p.nextPort.1, .host network { a with ip := p.ip, port := p.nextPort.2.1 }, p.nextPort.2.2)
  | .other => (p, .other, false)

/-- What a caller gets who calls `Next` once with each of the addresses. -/
def nexts (p : PortRange) : List Addr → List (Addr × Bool)
  | [] => []
  | addr :: rest => (p.next addr).2 :: (p.next addr).1.nexts rest

end PortRange

/-- `NewPortRange`, for the strategy that is called. -/
def newPortRange (ip : Buffer) (low high : Int) : PortRange :=
  PortRange.reset { ip := ip, low := UInt16.ofInt low, high := UInt16.ofInt high, index := 0 }

/-- What `Next` leaves in an address, and what it returns, when this port is next. -/
def dialing (ip : Buffer) (port : Option Nat) (a : Network × AddrKind) : Addr × Bool :=
  (.host a.1 { a.2 with ip := ip, port := (port.getD 0 : Nat) }, port.isSome)

/-- `Next` yields the ports, and returns false from then on, whatever UDP and TCP
addresses it is called with. -/
def PortRange.Enumerates (p : PortRange) (ip : Buffer) (ports : List Nat) : Prop :=
  ∀ addrs : List (Network × AddrKind),
    p.nexts (addrs.map fun a => .host a.1 a.2) = addrs.mapIdx fun i a => dialing ip ports[i]? a

/-- The ports from one to another. Port zero is none. -/
def portsFrom (low high : Nat) : List Nat :=
  (List.range' low (high + 1 - low)).filter (· ≠ 0)

/-- The ports that a pair of bounds stands for. -/
def portsOf (low high : UInt16) : List Nat :=
  if low = 0 ∧ high = 0 then portsFrom 1024 65535 else portsFrom low.toNat high.toNat

def hostOf (ip : Buffer) : Buffer :=
  if ip.len = 0 then ipv4 127 0 0 1 else ip

theorem portsFrom_of_gt {low high : Nat} (past : high < low) : portsFrom low high = [] := by
  rw [portsFrom, Nat.sub_eq_zero_of_le past, List.range'_zero, List.filter_nil]

theorem portsFrom_of_le {low high : Nat} (isPort : low ≠ 0) (inside : low ≤ high) :
    portsFrom low high = low :: portsFrom (low + 1) high := by
  have count : high + 1 - low = high + 1 - (low + 1) + 1 := by omega
  rw [portsFrom, count, List.range'_succ, List.filter_cons_of_pos (by simpa using isPort)]
  rfl

namespace PortRange

variable {p : PortRange} {ports : List Nat}

/-- One call takes the first port. -/
theorem Enumerates.step {q : PortRange} {first : Nat} (taken : p.nextPort = (q, (first : Int), true))
    (rest : q.Enumerates p.ip ports) : p.Enumerates p.ip (first :: ports) := by
  intro addrs
  cases addrs with
  | nil => rfl
  | cons a addrs =>
    have now : p.next (.host a.1 a.2) = (q, dialing p.ip (some first) a) := by
      rw [next, taken]
      rfl
    rw [List.map_cons, nexts, now, rest addrs, List.mapIdx_cons]
    rfl

/-- A range that has no port left never has one again. -/
theorem Enumerates.nil (ended : p.nextPort = (p, 0, false)) : p.Enumerates p.ip [] := by
  intro addrs
  induction addrs with
  | nil => rfl
  | cons a addrs ih =>
    have now : p.next (.host a.1 a.2) = (p, dialing p.ip none a) := by
      rw [next, ended]
      rfl
    rw [List.map_cons, nexts, now, ih, List.mapIdx_cons]
    rfl

theorem nextPort_ended (ended : p.index = 0 ∨ p.high < p.index) : p.nextPort = (p, 0, false) := by
  refine if_neg ?_
  rintro ⟨nonzero, inside⟩
  rcases ended with zero | past
  · exact nonzero zero
  · exact absurd inside (UInt16.not_le.mpr past)

/-- The range yields what lies between its index and its end. The index after the
highest port is zero, where the range has ended as well. -/
theorem enumerates_from (count : Nat) (p : PortRange) (left : p.high.toNat + 1 - p.index.toNat = count)
    (nonzero : p.index ≠ 0) : p.Enumerates p.ip (portsFrom p.index.toNat p.high.toNat) := by
  induction count generalizing p with
  | zero =>
    have past : p.high.toNat < p.index.toNat := by omega
    rw [portsFrom_of_gt past]
    exact .nil (nextPort_ended (.inr (UInt16.lt_iff_toNat_lt.mpr past)))
  | succ count ih =>
    have inside : p.index.toNat ≤ p.high.toNat := by omega
    have isPort : p.index.toNat ≠ 0 := fun zero => nonzero (UInt16.toNat_inj.mp zero)
    have taken : p.nextPort = ({ p with index := p.index + 1 }, (p.index.toNat : Int), true) :=
      if_pos ⟨nonzero, UInt16.le_iff_toNat_le.mpr inside⟩
    have small := p.index.toNat_lt
    have next : (p.index + 1).toNat = (p.index.toNat + 1) % 65536 := UInt16.toNat_add p.index 1
    rw [portsFrom_of_le isPort inside]
    refine .step taken ?_
    by_cases wraps : p.index + 1 = 0
    · have highest := p.high.toNat_lt
      have last : p.high.toNat < p.index.toNat + 1 := by
        rw [wraps, UInt16.toNat_zero] at next
        omega
      rw [portsFrom_of_gt last]
      exact Enumerates.nil (p := { p with index := p.index + 1 }) (nextPort_ended (.inl wraps))
    · have noWrap : (p.index + 1).toNat = p.index.toNat + 1 := by
        have positive : (p.index + 1).toNat ≠ 0 := fun zero => wraps (UInt16.toNat_inj.mp zero)
        omega
      have rest := ih { p with index := p.index + 1 } (by simp only [noWrap]; omega) wraps
      simp only [noWrap] at rest
      exact rest

end PortRange

theorem ofInt_toNat (port : UInt16) : UInt16.ofInt port.toNat = port := by
  have small := port.toNat_lt
  refine UInt16.toNat_inj.mp ?_
  rw [UInt16.ofInt, UInt16.toNat_ofNat']
  omega

theorem newPortRange_eq (ip : Buffer) (low high : UInt16) :
    newPortRange ip low.toNat high.toNat =
      if low = 0 ∧ high = 0 then ⟨hostOf ip, 1024, 65535, 1024⟩ else ⟨hostOf ip, low, high, low⟩ := by
  rw [newPortRange, ofInt_toNat, ofInt_toNat, PortRange.reset, hostOf]
  by_cases empty : ip.len = 0
  · by_cases default : low = 0 ∧ high = 0
    · simp only [empty, default, if_true, and_self]
    · simp only [empty, default, if_true, if_false]
  · by_cases default : low = 0 ∧ high = 0
    · simp only [empty, default, if_true, if_false, and_self]
    · simp only [empty, default, if_false]

/-- A range of ports that is given by its bounds is enumerated exactly when it
does not start with port zero, or is the default range: the index zero stands
for the end of a range, so a range from port zero has ended before its first port. -/
theorem portRange_exact_iff (ip : Buffer) (low high : UInt16) :
    (newPortRange ip low.toNat high.toNat).Enumerates (hostOf ip) (portsOf low high) ↔ low ≠ 0 ∨ high = 0 := by
  rw [newPortRange_eq, portsOf]
  by_cases default : low = 0 ∧ high = 0
  · rw [if_pos default, if_pos default]
    exact iff_of_true (PortRange.enumerates_from _ ⟨_, 1024, 65535, 1024⟩ rfl nofun) (.inr default.2)
  · rw [if_neg default, if_neg default]
    by_cases zero : low = 0
    · have notDefault : high ≠ 0 := fun none => default ⟨zero, none⟩
      refine iff_of_false ?_ (by rintro (nonzero | none); exacts [nonzero zero, notDefault none])
      intro enumerates
      -- the first call returns false, and there is a port that it should have returned
      have first := enumerates [(.udp, ⟨ip, 0, []⟩)]
      have ended : (PortRange.mk (hostOf ip) low high low).nextPort = (⟨hostOf ip, low, high, low⟩, 0, false) :=
        PortRange.nextPort_ended (.inl zero)
      have positive : 1 ≤ high.toNat := Nat.one_le_iff_ne_zero.mpr fun none => notDefault (UInt16.toNat_inj.mp none)
      have some : (portsFrom low.toNat high.toNat)[0]? = some 1 := by
        have count : high.toNat + 1 = (high.toNat - 1) + 1 + 1 := by omega
        rw [zero, UInt16.toNat_zero, portsFrom, Nat.sub_zero, count, List.range'_succ, List.range'_succ]
        rfl
      simp only [List.map_cons, List.map_nil, PortRange.nexts, PortRange.next, ended, List.mapIdx_cons, some, dialing,
        List.cons.injEq, Prod.mk.injEq, Option.isSome_some, Bool.false_eq_true, and_false, false_and] at first
    · exact iff_of_true (PortRange.enumerates_from _ ⟨_, low, high, low⟩ rfl zero) (.inl zero)

/-- From port zero on no port is dialed. -/
theorem portRange_from_zero :
    ¬ (newPortRange ⟨[], 0, le_rfl⟩ 0 1).Enumerates (ipv4 127 0 0 1) (portsOf 0 1) := by
  intro enumerates
  have first := enumerates [(.udp, ⟨⟨[], 0, le_rfl⟩, 0, []⟩)]
  have ended := congrArg (fun results => results.map Prod.snd) first
  exact absurd ended (by decide)

end Casm.Boot
