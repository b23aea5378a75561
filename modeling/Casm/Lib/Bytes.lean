import Mathlib

namespace Bytes

/-- Fixed-width big-endian digits in base 256. Bits above the width are
dropped, as a conversion to the machine word of that width drops them. -/
def bigEndian : Nat → Nat → List UInt8
  | 0, _ => []
  | w + 1, x => UInt8.ofNat (x / 256 ^ w) :: bigEndian w (x % 256 ^ w)

theorem bigEndian_length (w x : Nat) : (bigEndian w x).length = w := by
  induction w generalizing x with
  | zero => rfl
  | succ w ih => simp only [bigEndian, List.length_cons, ih]

/-- Fixed-width digits followed by any suffix compare as the numbers do; on
equal numbers the longer string is the greater one. -/
theorem bigEndian_append_le_iff {w x y : Nat} (hx : x < 256 ^ w) (hy : y < 256 ^ w)
    (suffix : List UInt8) :
    bigEndian w x ++ suffix ≤ bigEndian w y ↔ x < y ∨ x = y ∧ suffix = [] := by
  induction w generalizing x y with
  | zero =>
    simp only [pow_zero, Nat.lt_one_iff] at hx hy
    subst hx hy
    cases suffix <;> simp [bigEndian]
  | succ w ih =>
    have base : 0 < 256 ^ w := by positivity
    have highX : x / 256 ^ w < 256 := by
      rw [Nat.div_lt_iff_lt_mul base, mul_comm]; simpa only [pow_succ] using hx
    have highY : y / 256 ^ w < 256 := by
      rw [Nat.div_lt_iff_lt_mul base, mul_comm]; simpa only [pow_succ] using hy
    have low := ih (Nat.mod_lt x base) (Nat.mod_lt y base)
    have splitX := Nat.div_add_mod x (256 ^ w)
    have splitY := Nat.div_add_mod y (256 ^ w)
    have first : UInt8.ofNat (x / 256 ^ w) < UInt8.ofNat (y / 256 ^ w) ↔ x / 256 ^ w < y / 256 ^ w :=
      UInt8.ofNat_lt_iff_lt highX highY
    have swapped : UInt8.ofNat (y / 256 ^ w) < UInt8.ofNat (x / 256 ^ w) ↔ y / 256 ^ w < x / 256 ^ w :=
      UInt8.ofNat_lt_iff_lt highY highX
    simp only [bigEndian, List.cons_append]
    rw [List.cons_le_cons_iff, first, low]
    rcases lt_trichotomy (x / 256 ^ w) (y / 256 ^ w) with less | equal | greater
    · have below : x < y := by
        by_contra above
        exact absurd (Nat.div_le_div_right (not_lt.mp above)) (not_le.mpr less)
      simp only [less, below, true_or]
    · rw [equal] at splitX
      simp only [equal, lt_irrefl, true_and, false_or]
      have lessIff : x % 256 ^ w < y % 256 ^ w ↔ x < y := by
        rw [← Nat.add_lt_add_iff_left (k := 256 ^ w * (y / 256 ^ w)), splitX, splitY]
      have sameIff : x % 256 ^ w = y % 256 ^ w ↔ x = y := by
        rw [← Nat.add_right_inj (n := 256 ^ w * (y / 256 ^ w)), splitX, splitY]
      rw [lessIff, sameIff]
    · have above : y < x := by
        by_contra below
        exact absurd (Nat.div_le_div_right (not_lt.mp below)) (not_le.mpr greater)
      have distinct : UInt8.ofNat (x / 256 ^ w) ≠ UInt8.ofNat (y / 256 ^ w) :=
        fun same => absurd (swapped.mpr greater) (by rw [same]; exact UInt8.lt_irrefl _)
      simp only [distinct, false_and, or_false]
      omega

/-- The number that big-endian digits stand for. -/
def value : List UInt8 → Nat
  | [] => 0
  | b :: rest => b.toNat * 256 ^ rest.length + value rest

theorem value_lt (s : List UInt8) : value s < 256 ^ s.length := by
  induction s with
  | nil => exact Nat.one_pos
  | cons b rest ih =>
    have digit : b.toNat + 1 ≤ 256 := b.toNat_lt
    have scaled := Nat.mul_le_mul_right (256 ^ rest.length) digit
    rw [value, List.length_cons, pow_succ]
    rw [Nat.add_mul] at scaled
    omega

theorem bigEndian_value (s : List UInt8) : bigEndian s.length (value s) = s := by
  induction s with
  | nil => rfl
  | cons b rest ih =>
    have positive : 0 < 256 ^ rest.length := by positivity
    have high : (b.toNat * 256 ^ rest.length + value rest) / 256 ^ rest.length = b.toNat := by
      rw [Nat.mul_comm, Nat.mul_add_div positive, Nat.div_eq_of_lt (value_lt rest), Nat.add_zero]
    have low : (b.toNat * 256 ^ rest.length + value rest) % 256 ^ rest.length = value rest := by
      rw [Nat.mul_comm, Nat.mul_add_mod, Nat.mod_eq_of_lt (value_lt rest)]
    rw [List.length_cons, value, bigEndian, high, low, ih, UInt8.ofNat_toNat]

theorem value_bigEndian (w x : Nat) : value (bigEndian w x) = x % 256 ^ w := by
  induction w generalizing x with
  | zero => simp [bigEndian, value, Nat.mod_one]
  | succ w ih =>
    have parts : x % 256 ^ (w + 1) = x / 256 ^ w % 256 * 256 ^ w + x % 256 ^ w := by
      rw [pow_succ, Nat.mod_mul, Nat.add_comm, Nat.mul_comm]
    rw [bigEndian, value, bigEndian_length, ih, UInt8.toNat_ofNat', Nat.mod_mod, parts]

/-- The number of bits from the highest that is set on. -/
def bitLength : List UInt8 → Nat
  | [] => 0
  | b :: rest => if b = 0 then bitLength rest else 8 * rest.length + (b.toNat.log2 + 1)

theorem value_lt_two_pow_iff (s : List UInt8) {d : Nat} : value s < 2 ^ d ↔ bitLength s ≤ d := by
  induction s with
  | nil => exact iff_of_true (Nat.two_pow_pos d) (Nat.zero_le d)
  | cons b rest ih =>
    rw [value, bitLength]
    by_cases isZero : b = 0
    · simpa [isZero] using ih
    · have nonzero : b.toNat ≠ 0 := fun same => isZero (UInt8.toNat_inj.mp same)
      have width : 256 ^ rest.length = 2 ^ (8 * rest.length) := by
        rw [show 256 = 2 ^ 8 from rfl, ← pow_mul]
      rw [if_neg isZero]
      constructor
      · intro below
        by_contra long
        have low : 2 ^ d ≤ b.toNat * 256 ^ rest.length := by
          calc 2 ^ d ≤ 2 ^ (b.toNat.log2 + 8 * rest.length) := Nat.pow_le_pow_right (by decide) (by omega)
            _ = 2 ^ b.toNat.log2 * 256 ^ rest.length := by rw [pow_add, width]
            _ ≤ b.toNat * 256 ^ rest.length := Nat.mul_le_mul_right _ (Nat.log2_self_le nonzero)
        omega
      · intro short
        have digits := value_lt rest
        have digit : b.toNat + 1 ≤ 2 ^ (b.toNat.log2 + 1) := Nat.lt_log2_self
        calc b.toNat * 256 ^ rest.length + value rest < (b.toNat + 1) * 256 ^ rest.length := by
              rw [Nat.add_mul]
              omega
          _ ≤ 2 ^ (b.toNat.log2 + 1) * 256 ^ rest.length := Nat.mul_le_mul_right _ digit
          _ = 2 ^ (8 * rest.length + (b.toNat.log2 + 1)) := by rw [width, ← pow_add, Nat.add_comm]
          _ ≤ 2 ^ d := Nat.pow_le_pow_right (by decide) short

/-- Digits of one width are determined by their number. -/
theorem value_injective {s t : List UInt8} (width : s.length = t.length) (same : value s = value t) : s = t := by
  rw [← bigEndian_value s, ← bigEndian_value t, width, same]

end Bytes
