import Casm.Boot.Serve

namespace Casm.Boot
open Bytes GoNet

/-- The last four bytes of an ID, in the order in which they appear. -/
def lastFour (id : PeerID) : List UInt8 :=
  id.drop (id.length - 4)

/-- The logical distance of the specification. -/
def logicalDistance (a b : PeerID) : Nat :=
  value (lastFour a) ^^^ value (lastFour b)

/-- Where the last four bytes of two IDs differ. -/
def differing (a b : PeerID) : List UInt8 :=
  xorBytes (lastFour a) (lastFour b)

section Distance

variable {a b : PeerID} {d : Nat}

theorem shiftRight_eq_zero_iff {n d : Nat} : n >>> d = 0 ↔ n < 2 ^ d := by
  rw [Nat.shiftRight_eq_div_pow, Nat.div_eq_zero_iff_lt (Nat.two_pow_pos d)]

theorem length_lastFour (long : 4 ≤ a.length) : (lastFour a).length = 4 := by
  rw [lastFour, List.length_drop]
  omega

theorem length_differing (longA : 4 ≤ a.length) (longB : 4 ≤ b.length) : (differing a b).length = 4 := by
  rw [differing, length_xorBytes ((length_lastFour longB).trans (length_lastFour longA).symm), length_lastFour longA]

theorem logicalDistance_eq (longA : 4 ≤ a.length) (longB : 4 ≤ b.length) :
    logicalDistance a b = value (differing a b) :=
  (value_xorBytes ((length_lastFour longB).trans (length_lastFour longA).symm)).symm

/-- The function of the source takes the same bytes the other way round. -/
theorem xor_eq (longA : 4 ≤ a.length) (longB : 4 ≤ b.length) : xor b a = .ok (value (differing a b).reverse) := by
  have width : (lastFour a).length = (lastFour b).length := (length_lastFour longA).trans (length_lastFour longB).symm
  have commuted : xorBytes (lastFour b) (lastFour a) = differing a b := by
    rw [differing, xorBytes, xorBytes, List.zipWith_comm]
    simp only [UInt8.xor_comm]
  rw [xor, if_pos ⟨longB, longA⟩, List.take_reverse, List.take_reverse, ← commuted, xorBytes, xorBytes,
    List.reverse_zipWith width.symm]
  rfl

theorem answers_iff (longA : 4 ≤ a.length) (longB : 4 ≤ b.length) (d : UInt8) :
    ignored b a d = .ok false ↔ value (differing a b).reverse < 2 ^ d.toNat := by
  rw [ignored, xor_eq longA longB, Except.map, Except.ok.injEq, decide_eq_false_iff_not, not_not,
    shiftRight_eq_zero_iff]

theorem bitLength_le {x : List UInt8} (width : x.length = 4) : bitLength x ≤ 32 := by
  have bound := value_lt x
  rw [width] at bound
  exact (value_lt_two_pow_iff x).mp bound

/-- The byte order of the source agrees with that of the specification for two peers
exactly at the distances that do not lie between the lengths of their difference, read
one way and the other. Whatever the order, more peers answer at a greater distance, and
all of them from 32 on. -/
theorem survey_answers_iff (longA : 4 ≤ a.length) (longB : 4 ≤ b.length) (d : UInt8) :
    ((ignored b a d = .ok false ↔ logicalDistance a b >>> d.toNat = 0) ↔
      d.toNat < min (bitLength (differing a b)) (bitLength (differing a b).reverse) ∨
        max (bitLength (differing a b)) (bitLength (differing a b).reverse) ≤ d.toNat) ∧
    (∀ d', d ≤ d' → ignored b a d = .ok false → ignored b a d' = .ok false) ∧
    (32 ≤ d.toNat → ignored b a d = .ok false) := by
  have width : (differing a b).reverse.length = 4 := by rw [List.length_reverse, length_differing longA longB]
  have bound := bitLength_le width
  simp only [answers_iff longA longB, shiftRight_eq_zero_iff, logicalDistance_eq longA longB, value_lt_two_pow_iff]
  refine ⟨?_, fun d' further near => ?_, fun far => ?_⟩
  · omega
  · exact near.trans (UInt8.le_iff_toNat_le.mp further)
  · exact bound.trans far

end Distance

/-- At a distance of 25 both orders count one bit of difference as near. -/
theorem survey_answers_far : logicalDistance [0, 0, 0, 1] [0, 0, 0, 0] = 1 ∧
    (ignored [0, 0, 0, 0] [0, 0, 0, 1] 25 = .ok false ↔
      logicalDistance [0, 0, 0, 1] [0, 0, 0, 0] >>> (25 : UInt8).toNat = 0) :=
  ⟨by decide, (survey_answers_iff (a := [0, 0, 0, 1]) (b := [0, 0, 0, 0]) (by decide) (by decide) 25).1.mpr
    (by decide)⟩

/-- Two IDs that differ in the lowest bit of their last byte are at distance one. The
source has that bit in the highest byte, and ignores the request. -/
theorem nearby_peer_ignored :
    ¬ (ignored [0, 0, 0, 0] [0, 0, 0, 1] 1 = .ok false ↔ logicalDistance [0, 0, 0, 1] [0, 0, 0, 0] >>> 1 = 0) := by
  decide +kernel

end Casm.Boot
