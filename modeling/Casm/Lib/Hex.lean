import Casm.Lib.Bytes
import Casm.Lib.Fault
import Casm.Lib.Slice

namespace Hex
open GoSlice (overwrite overwrite_nil overwrite_set)

/-- The value of a hexadecimal digit of either case. -/
def digitValue (c : UInt8) : Option Nat :=
  if 48 ≤ c ∧ c ≤ 57 then some (c.toNat - 48)
  else if 97 ≤ c ∧ c ≤ 102 then some (c.toNat - 87)
  else if 65 ≤ c ∧ c ≤ 70 then some (c.toNat - 55)
  else none

def isDigit (c : UInt8) : Bool :=
  (digitValue c).isSome

/-- The number that digits stand for, the first of them the highest. -/
def value : List UInt8 → Nat
  | [] => 0
  | c :: rest => (digitValue c).getD 0 * 16 ^ rest.length + value rest

inductive DecodeError where
  | invalidByte (b : UInt8)
  | length
  deriving DecidableEq, Repr

/-- The destination as `hex.Decode` leaves it, the number of bytes that it has
written, and its error. -/
structure Decoding where
  dst : List UInt8
  n : Nat
  err : Option DecodeError
  deriving DecidableEq, Repr

/-- The loop of `hex.Decode` from a place in the destination on. A digit without a
second one is looked at before the length is reported. -/
def decodeFrom (dst : List UInt8) (i : Nat) : List UInt8 → Except Fault Decoding
  | [] => .ok ⟨dst, i, none⟩
  | [p] =>
    match digitValue p with
    | none => .ok ⟨dst, i, some (.invalidByte p)⟩
    | some _ => .ok ⟨dst, i, some .length⟩
  | p :: q :: rest =>
    match digitValue p, digitValue q with
    | none, _ => .ok ⟨dst, i, some (.invalidByte p)⟩
    | some _, none => .ok ⟨dst, i, some (.invalidByte q)⟩
    | some a, some b =>
      if i < dst.length then decodeFrom (dst.set i (UInt8.ofNat (16 * a + b))) (i + 1) rest
      else .error (.panic "index out of range")

/-- `hex.Decode`. -/
def decode (dst src : List UInt8) : Except Fault Decoding :=
  decodeFrom dst 0 src

/-- The bytes that pairs of digits stand for. -/
def octets : List UInt8 → List UInt8
  | [] => []
  | [_] => []
  | p :: q :: rest => UInt8.ofNat (16 * (digitValue p).getD 0 + (digitValue q).getD 0) :: octets rest

/-- Digits in pairs, and nothing else. -/
def Paired (src : List UInt8) : Prop :=
  src.length % 2 = 0 ∧ ∀ c ∈ src, isDigit c = true

/-- There is a pair of digits for every byte of the destination, and then one more. -/
def Overruns (src : List UInt8) (room : Nat) : Prop :=
  2 * room + 2 ≤ src.length ∧ ∀ c ∈ src.take (2 * room + 2), isDigit c = true

instance (src : List UInt8) : Decidable (Paired src) :=
  inferInstanceAs (Decidable (_ ∧ _))

instance (src : List UInt8) (room : Nat) : Decidable (Overruns src room) :=
  inferInstanceAs (Decidable (_ ∧ _))

theorem digitValue_lt {c : UInt8} {n : Nat} (known : digitValue c = some n) : n < 16 := by
  unfold digitValue at known
  simp only [UInt8.le_iff_toNat_le, UInt8.reduceToNat] at known
  split_ifs at known with decimal lower upper
  · cases known
    omega
  · cases known
    omega
  · cases known
    omega

theorem exists_digitValue {c : UInt8} (digit : isDigit c = true) : ∃ n, digitValue c = some n :=
  Option.isSome_iff_exists.mp digit

section Pairs

variable {p q : UInt8} {rest : List UInt8} {room : Nat}

theorem paired_cons_cons :
    Paired (p :: q :: rest) ↔ isDigit p = true ∧ isDigit q = true ∧ Paired rest := by
  unfold Paired
  simp only [List.length_cons, List.forall_mem_cons]
  have parity : (rest.length + 1 + 1) % 2 = 0 ↔ rest.length % 2 = 0 := by omega
  rw [parity]
  tauto

theorem Overruns.shape {src : List UInt8} (overruns : Overruns src room) : ∃ p q rest, src = p :: q :: rest := by
  rcases src with _ | ⟨p, _ | ⟨q, rest⟩⟩
  · exact absurd overruns.1 (by simp)
  · exact absurd overruns.1 (by simp)
  · exact ⟨p, q, rest, rfl⟩

theorem overruns_zero : Overruns (p :: q :: rest) 0 ↔ isDigit p = true ∧ isDigit q = true := by
  simp [Overruns]

theorem overruns_cons_cons :
    Overruns (p :: q :: rest) (room + 1) ↔ isDigit p = true ∧ isDigit q = true ∧ Overruns rest room := by
  unfold Overruns
  have width : 2 * (room + 1) + 2 = 2 * room + 2 + 1 + 1 := by ring
  rw [width, List.take_succ_cons, List.take_succ_cons, List.length_cons, List.length_cons, List.forall_mem_cons,
    List.forall_mem_cons, Nat.add_le_add_iff_right, Nat.add_le_add_iff_right]
  tauto

end Pairs

section Decode

variable {dst : List UInt8} {i room : Nat}

theorem decodeFrom_digits {p q : UInt8} {a b : Nat} (first : digitValue p = some a) (second : digitValue q = some b)
    (inside : i < dst.length) (rest : List UInt8) :
    decodeFrom dst i (p :: q :: rest) = decodeFrom (dst.set i (UInt8.ofNat (16 * a + b))) (i + 1) rest := by
  rw [decodeFrom, first, second]
  exact if_pos inside

/-- Pairs of digits that fit are written, and what is behind them stays. -/
theorem decodeFrom_paired {src : List UInt8} (paired : Paired src) (fits : i + src.length / 2 ≤ dst.length) :
    decodeFrom dst i src = .ok ⟨overwrite dst i (octets src), i + src.length / 2, none⟩ := by
  fun_induction octets src generalizing dst i with
  | case1 =>
    rw [overwrite_nil]
    rfl
  | case2 p => exact absurd paired.1 (by simp)
  | case3 p q rest ih =>
    obtain ⟨isFirst, isSecond, others⟩ := paired_cons_cons.mp paired
    obtain ⟨a, first⟩ := exists_digitValue isFirst
    obtain ⟨b, second⟩ := exists_digitValue isSecond
    have half : (p :: q :: rest).length / 2 = rest.length / 2 + 1 := by
      simp only [List.length_cons]
      omega
    rw [half] at fits ⊢
    have inside : i < dst.length := by omega
    have room : i + 1 + rest.length / 2 ≤ (dst.set i (UInt8.ofNat (16 * a + b))).length := by
      rw [List.length_set]
      omega
    have place : i + 1 + rest.length / 2 = i + (rest.length / 2 + 1) := by omega
    rw [decodeFrom_digits first second inside, ih others room, overwrite_set inside, place, first, second]
    rfl

/-- The pair of digits behind the last place is written out of range. -/
theorem decodeFrom_overruns {src : List UInt8} (overruns : Overruns src room) (ends : i + room = dst.length) :
    decodeFrom dst i src = .error (.panic "index out of range") := by
  induction room generalizing dst i src with
  | zero =>
    obtain ⟨p, q, rest, rfl⟩ := overruns.shape
    obtain ⟨isFirst, isSecond⟩ := overruns_zero.mp overruns
    obtain ⟨a, first⟩ := exists_digitValue isFirst
    obtain ⟨b, second⟩ := exists_digitValue isSecond
    rw [decodeFrom, first, second]
    exact if_neg (by omega)
  | succ room ih =>
    obtain ⟨p, q, rest, rfl⟩ := overruns.shape
    obtain ⟨isFirst, isSecond, others⟩ := overruns_cons_cons.mp overruns
    obtain ⟨a, first⟩ := exists_digitValue isFirst
    obtain ⟨b, second⟩ := exists_digitValue isSecond
    rw [decodeFrom_digits first second (by omega)]
    exact ih others (by rw [List.length_set]; omega)

/-- Everything else ends with an error, at a byte that is no digit or at the end. -/
theorem decodeFrom_rejects {src : List UInt8} (unpaired : ¬ Paired src) (within : ¬ Overruns src room)
    (ends : i + room = dst.length) : ∃ d err, decodeFrom dst i src = .ok d ∧ d.err = some err := by
  fun_induction decodeFrom dst i src generalizing room with
  | case1 => exact absurd ⟨rfl, by simp⟩ unpaired
  | case2 dst i p isNone => exact ⟨_, _, rfl, rfl⟩
  | case3 dst i p a isSome => exact ⟨_, _, rfl, rfl⟩
  | case4 => exact ⟨_, _, rfl, rfl⟩
  | case5 => exact ⟨_, _, rfl, rfl⟩
  | case6 dst i p q rest a b second first inside ih =>
    have isFirst : isDigit p = true := Option.isSome_iff_exists.mpr ⟨a, first⟩
    have isSecond : isDigit q = true := Option.isSome_iff_exists.mpr ⟨b, second⟩
    obtain ⟨room, rfl⟩ := Nat.exists_eq_succ_of_ne_zero (show room ≠ 0 by omega)
    have ends' : i + 1 + room = (dst.set i (UInt8.ofNat (16 * a + b))).length := by
      rw [List.length_set]
      omega
    refine ih (fun paired => unpaired ?_) (fun overruns => within ?_) ends'
    · exact paired_cons_cons.mpr ⟨isFirst, isSecond, paired⟩
    · exact overruns_cons_cons.mpr ⟨isFirst, isSecond, overruns⟩
  | case7 dst i p q rest a b second first outside =>
    have isFirst : isDigit p = true := Option.isSome_iff_exists.mpr ⟨a, first⟩
    have isSecond : isDigit q = true := Option.isSome_iff_exists.mpr ⟨b, second⟩
    obtain rfl : room = 0 := by omega
    exact absurd (overruns_zero.mpr ⟨isFirst, isSecond⟩) within

theorem octets_length (src : List UInt8) : (octets src).length = src.length / 2 := by
  fun_induction octets src with
  | case1 => rfl
  | case2 p => simp
  | case3 p q rest ih =>
    simp only [List.length_cons, ih]
    omega

/-- Pairs of digits stand for the same number as the bytes that they are decoded to. -/
theorem value_octets {src : List UInt8} (paired : Paired src) : Bytes.value (octets src) = value src := by
  fun_induction octets src with
  | case1 => rfl
  | case2 p => exact absurd paired.1 (by simp)
  | case3 p q rest ih =>
    obtain ⟨isFirst, isSecond, others⟩ := paired_cons_cons.mp paired
    obtain ⟨a, first⟩ := exists_digitValue isFirst
    obtain ⟨b, second⟩ := exists_digitValue isSecond
    have small : 16 * a + b < 256 := by
      have := digitValue_lt first
      have := digitValue_lt second
      omega
    have width : 256 ^ (rest.length / 2) = 16 ^ rest.length := by
      have whole : 2 * (rest.length / 2) = rest.length := by
        have := others.1
        omega
      rw [show 256 = 16 ^ 2 from rfl, ← pow_mul, whole]
    rw [Bytes.value, ih others, octets_length, value, value, first, second, Option.getD_some, Option.getD_some,
      UInt8.toNat_ofNat_of_lt' small, List.length_cons, pow_succ, width]
    ring

end Decode

end Hex
