import Casm.Lib.Bytes

namespace GoNet
open Bytes

abbrev IP := List UInt8

abbrev IPMask := List UInt8

/-- What an IPv4 address starts with when it is written in 16 bytes. -/
def v4InV6 : List UInt8 :=
  [0, 0, 0, 0, 0, 0, 0, 0, 0, 0, 255, 255]

/-- `IP.To4`. -/
def to4 (ip : IP) : Option IP :=
  if ip.length = 4 then some ip
  else if ip.length = 16 ∧ ip.take 12 = v4InV6 then some (ip.drop 12)
  else none

/-- `CIDRMask`, for a mask of so many bytes. -/
def cidrMask : Nat → Nat → IPMask
  | 0, _ => []
  | l + 1, ones =>
    if 8 ≤ ones then 255 :: cidrMask l (ones - 8) else ~~~(255 >>> UInt8.ofNat ones) :: cidrMask l 0

def andBytes (s t : List UInt8) : List UInt8 :=
  List.zipWith (· &&& ·) s t

def xorBytes (s t : List UInt8) : List UInt8 :=
  List.zipWith (· ^^^ ·) s t

def complement (s : List UInt8) : List UInt8 :=
  s.map (· ^^^ 255)

/-- `IP.Mask`. The two may be written in different lengths. -/
def applyMask (ip : IP) (mask : IPMask) : IP :=
  let mask := if mask.length = 16 ∧ ip.length = 4 ∧ (mask.take 12).all (· = 255) then mask.drop 12 else mask
  let ip := if mask.length = 4 ∧ ip.length = 16 ∧ ip.take 12 = v4InV6 then ip.drop 12 else ip
  if ip.length ≠ mask.length then [] else andBytes ip mask

structure IPNet where
  ip : IP
  mask : IPMask
  deriving DecidableEq, Repr

def networkNumberAndMask (n : IPNet) : Option (IP × IPMask) :=
  let ip := (to4 n.ip).getD n.ip
  if ip.length ≠ 4 ∧ ip.length ≠ 16 then none
  else if n.mask.length = 4 then
    if ip.length = 4 then some (ip, n.mask) else none
  else if n.mask.length = 16 then
    if ip.length = 4 then some (ip, n.mask.drop 12) else some (ip, n.mask)
  else none

/-- `IPNet.Contains`. -/
def contains (n : IPNet) (ip : IP) : Bool :=
  match networkNumberAndMask n with
  | none => ip = []
  | some (number, mask) =>
    let ip := (to4 ip).getD ip
    ip.length = number.length && andBytes number mask = andBytes ip mask

/-- `ParseCIDR`, for an address that has been parsed. -/
def parseCIDR (addr : List UInt8) (ones : Nat) : IPNet where
  ip := applyMask (if addr.length = 4 then v4InV6 ++ addr else addr) (cidrMask addr.length ones)
  mask := cidrMask addr.length ones

theorem length_cidrMask (l ones : Nat) : (cidrMask l ones).length = l := by
  induction l generalizing ones with
  | zero => rfl
  | succ l ih =>
    rw [cidrMask]
    split
    · rw [List.length_cons, ih]
    · rw [List.length_cons, ih]

theorem length_andBytes {s t : List UInt8} (width : t.length = s.length) : (andBytes s t).length = s.length := by
  rw [andBytes, List.length_zipWith, width, Nat.min_self]

theorem length_xorBytes {s t : List UInt8} (width : t.length = s.length) : (xorBytes s t).length = s.length := by
  rw [xorBytes, List.length_zipWith, width, Nat.min_self]

theorem complement_complement (s : List UInt8) : complement (complement s) = s := by
  induction s with
  | nil => rfl
  | cons b rest ih =>
    have same : b ^^^ 255 ^^^ 255 = b := by rw [UInt8.xor_assoc, UInt8.xor_self, UInt8.xor_zero]
    simp only [complement, List.map_cons, List.cons.injEq] at ih ⊢
    exact ⟨same, ih⟩

theorem xorBytes_xorBytes {s pad : List UInt8} (width : pad.length = s.length) :
    xorBytes (xorBytes s pad) pad = s := by
  induction s generalizing pad with
  | nil => rfl
  | cons b rest ih =>
    cases pad with
    | nil => cases width
    | cons m pad =>
      have same : b ^^^ m ^^^ m = b := by rw [UInt8.xor_assoc, UInt8.xor_self, UInt8.xor_zero]
      simp only [xorBytes, List.zipWith_cons_cons, List.cons.injEq] at ih ⊢
      exact ⟨same, ih (Nat.succ.inj width)⟩

/-- High and low parts of two numbers are combined apart. -/
theorem mul_pow_add_xor {k x y : Nat} (lowX : x < 2 ^ k) (lowY : y < 2 ^ k) (b c : Nat) :
    (b * 2 ^ k + x) ^^^ (c * 2 ^ k + y) = (b ^^^ c) * 2 ^ k + (x ^^^ y) := by
  have positive := Nat.two_pow_pos k
  have high : ((b * 2 ^ k + x) ^^^ (c * 2 ^ k + y)) / 2 ^ k = b ^^^ c := by
    rw [Nat.xor_div_two_pow, Nat.mul_comm b, Nat.mul_comm c, Nat.mul_add_div positive, Nat.mul_add_div positive,
      Nat.div_eq_of_lt lowX, Nat.div_eq_of_lt lowY, Nat.add_zero, Nat.add_zero]
  have low : ((b * 2 ^ k + x) ^^^ (c * 2 ^ k + y)) % 2 ^ k = x ^^^ y := by
    rw [Nat.xor_mod_two_pow, Nat.mul_comm b, Nat.mul_comm c, Nat.mul_add_mod, Nat.mul_add_mod,
      Nat.mod_eq_of_lt lowX, Nat.mod_eq_of_lt lowY]
  rw [← high, ← low, Nat.div_add_mod']

theorem value_xorBytes {s t : List UInt8} (width : t.length = s.length) :
    value (xorBytes s t) = value s ^^^ value t := by
  induction s generalizing t with
  | nil =>
    rw [List.eq_nil_of_length_eq_zero width]
    rfl
  | cons b s ih =>
    cases t with
    | nil => cases width
    | cons c t =>
      have same : t.length = s.length := Nat.succ.inj width
      have power : 256 ^ s.length = 2 ^ (8 * s.length) := (pow_mul 2 8 s.length).symm
      have lowS := value_lt s
      have lowT := value_lt t
      have step : xorBytes (b :: s) (c :: t) = (b ^^^ c) :: xorBytes s t := rfl
      rw [same, power] at lowT
      rw [power] at lowS
      rw [step, value, value, value, length_xorBytes same, same, ih same, UInt8.toNat_xor, power,
        mul_pow_add_xor lowS lowT]

theorem xor_pad_and (b r m : UInt8) : (b ^^^ r &&& (m ^^^ 255)) &&& m = b &&& m := by
  apply UInt8.toBitVec_inj.mp
  ext i bound
  simp
  interval_cases i <;> simp <;> grind

/-- A pad that is zero where the mask is not changes nothing that the mask looks at. -/
theorem andBytes_xorBytes {s random mask : List UInt8} (width : random.length = s.length)
    (width' : mask.length = s.length) :
    andBytes (xorBytes s (andBytes random (complement mask))) mask = andBytes s mask := by
  induction s generalizing random mask with
  | nil => rfl
  | cons b rest ih =>
    cases random with
    | nil => cases width
    | cons r random =>
      cases mask with
      | nil => cases width'
      | cons m mask =>
        have same : (b ^^^ r &&& (m ^^^ 255)) &&& m = b &&& m := xor_pad_and b r m
        simp only [andBytes, xorBytes, complement, List.map_cons, List.zipWith_cons_cons, List.cons.injEq] at ih ⊢
        exact ⟨same, ih (Nat.succ.inj width) (Nat.succ.inj width')⟩

section Block

theorem digit_interval {a b scale low start width : Nat} (small : low < scale) (fits : start + width ≤ scale) :
    a * scale + start ≤ b * scale + low ∧ b * scale + low < a * scale + start + width ↔
      b = a ∧ start ≤ low ∧ low < start + width := by
  rcases lt_trichotomy b a with less | equal | greater
  · have step := Nat.mul_le_mul_right scale less
    rw [Nat.succ_mul] at step
    omega
  · subst equal
    omega
  · have step := Nat.mul_le_mul_right scale greater
    rw [Nat.succ_mul] at step
    omega

theorem block_interval {a b scale low width : Nat} (small : low < scale) :
    a * scale ≤ b * scale + low ∧ b * scale + low < a * scale + width * scale ↔ a ≤ b ∧ b < a + width := by
  rw [← Nat.add_mul]
  constructor
  · rintro ⟨lower, upper⟩
    constructor
    · by_contra less
      have step := Nat.mul_le_mul_right scale (not_le.mp less)
      rw [Nat.succ_mul] at step
      omega
    · by_contra above
      have step := Nat.mul_le_mul_right scale (not_lt.mp above)
      omega
  · rintro ⟨lower, upper⟩
    have low' := Nat.mul_le_mul_right scale lower
    have high := Nat.mul_le_mul_right scale upper
    rw [Nat.succ_mul] at high
    omega

/-- The byte in which the mask ends cuts a number down to a multiple. -/
theorem and_lastByte {ones : Nat} (small : ones < 8) (b : UInt8) :
    (b &&& ~~~(255 >>> UInt8.ofNat ones)).toNat = 2 ^ (8 - ones) * (b.toNat / 2 ^ (8 - ones)) := by
  have each : ∀ n : Fin 8, ∀ b : Fin 256, (UInt8.ofFin b &&& ~~~(255 >>> UInt8.ofNat n)).toNat =
      2 ^ (8 - n.val) * (b.val / 2 ^ (8 - n.val)) := by
    decide +kernel
  exact each ⟨ones, small⟩ b.toFin

theorem or_lastByte {ones : Nat} (small : ones < 8) (b : UInt8) :
    (b &&& ~~~(255 >>> UInt8.ofNat ones) ||| ~~~ ~~~(255 >>> UInt8.ofNat ones)).toNat + 1 =
      2 ^ (8 - ones) * (b.toNat / 2 ^ (8 - ones)) + 2 ^ (8 - ones) := by
  have each : ∀ n : Fin 8, ∀ b : Fin 256,
      (UInt8.ofFin b &&& ~~~(255 >>> UInt8.ofNat n) ||| ~~~ ~~~(255 >>> UInt8.ofNat n)).toNat + 1 =
        2 ^ (8 - n.val) * (b.val / 2 ^ (8 - n.val)) + 2 ^ (8 - n.val) := by
    decide +kernel
  exact each ⟨ones, small⟩ b.toFin

theorem cidrMask_zero (l : Nat) : cidrMask l 0 = List.replicate l 0 := by
  induction l with
  | zero => rfl
  | succ l ih =>
    rw [cidrMask, if_neg (by decide), ih, List.replicate_succ]
    rfl

theorem andBytes_zero {s : List UInt8} {l : Nat} (width : s.length = l) :
    andBytes s (List.replicate l 0) = List.replicate l 0 := by
  subst width
  induction s with
  | nil => rfl
  | cons b rest ih =>
    simp only [andBytes, List.length_cons, List.replicate_succ, List.zipWith_cons_cons, UInt8.and_zero] at ih ⊢
    rw [ih]

theorem value_replicate_zero (l : Nat) : value (List.replicate l 0) = 0 := by
  induction l with
  | zero => rfl
  | succ l ih =>
    rw [List.replicate_succ, value, ih]
    simp

theorem two_pow_bits {l ones : Nat} (small : ones < 8) : 2 ^ (8 * (l + 1) - ones) = 2 ^ (8 - ones) * 256 ^ l := by
  have split : 8 * (l + 1) - ones = (8 - ones) + 8 * l := by omega
  rw [split, pow_add, pow_mul]
  norm_num

theorem andBytes_cons_whole {l ones : Nat} (whole : 8 ≤ ones) (b : UInt8) (s : List UInt8) :
    andBytes (b :: s) (cidrMask (l + 1) ones) = b :: andBytes s (cidrMask l (ones - 8)) := by
  have kept : b &&& 255 = b := UInt8.and_neg_one
  rw [cidrMask, if_pos whole, andBytes, List.zipWith_cons_cons, kept]
  rfl

theorem andBytes_cons_last {l ones : Nat} (last : ¬ 8 ≤ ones) (b : UInt8) {s : List UInt8} (width : s.length = l) :
    andBytes (b :: s) (cidrMask (l + 1) ones) = (b &&& ~~~(255 >>> UInt8.ofNat ones)) :: List.replicate l 0 := by
  have cleared := andBytes_zero width
  rw [cidrMask, if_neg last, cidrMask_zero, andBytes, List.zipWith_cons_cons]
  rw [andBytes] at cleared
  rw [cleared]

theorem value_cons_last {l ones : Nat} (last : ¬ 8 ≤ ones) (b : UInt8) :
    value ((b &&& ~~~(255 >>> UInt8.ofNat ones)) :: List.replicate l 0) =
      2 ^ (8 - ones) * (b.toNat / 2 ^ (8 - ones)) * 256 ^ l := by
  rw [value, value_replicate_zero, List.length_replicate, and_lastByte (not_le.mp last), Nat.add_zero]

theorem value_block_le {addr : List UInt8} {ones : Nat} (bits : ones ≤ 8 * addr.length) :
    value (andBytes addr (cidrMask addr.length ones)) + 2 ^ (8 * addr.length - ones) ≤ 256 ^ addr.length := by
  induction addr generalizing ones with
  | nil =>
    obtain rfl := Nat.le_zero.mp bits
    exact Nat.le_refl 1
  | cons a addr ih =>
    rw [List.length_cons] at bits ⊢
    by_cases whole : 8 ≤ ones
    · have bound := ih (by omega : ones - 8 ≤ 8 * addr.length)
      have same : 8 * (addr.length + 1) - ones = 8 * addr.length - (ones - 8) := by omega
      have digit := Nat.mul_le_mul_right (256 ^ addr.length) a.toNat_lt
      rw [andBytes_cons_whole whole, value, length_andBytes (length_cidrMask ..), same, pow_succ]
      rw [Nat.succ_mul] at digit
      omega
    · rw [andBytes_cons_last whole a rfl, value_cons_last whole, two_pow_bits (not_le.mp whole), ← Nat.add_mul, pow_succ,
        Nat.mul_comm (256 ^ addr.length)]
      refine Nat.mul_le_mul_right _ ?_
      have small : a.toNat / 2 ^ (8 - ones) < 2 ^ ones := by
        refine Nat.div_lt_of_lt_mul ?_
        rw [← pow_add, Nat.sub_add_cancel (by omega)]
        exact a.toNat_lt
      calc 2 ^ (8 - ones) * (a.toNat / 2 ^ (8 - ones)) + 2 ^ (8 - ones)
          = 2 ^ (8 - ones) * (a.toNat / 2 ^ (8 - ones) + 1) := by rw [Nat.mul_succ]
        _ ≤ 2 ^ (8 - ones) * 2 ^ ones := Nat.mul_le_mul_left _ small
        _ = 256 := by
          rw [← pow_add, Nat.sub_add_cancel (by omega)]
          norm_num

/-- What is left under the mask has no other bits. -/
theorem dvd_value_block {addr : List UInt8} {ones : Nat} (bits : ones ≤ 8 * addr.length) :
    2 ^ (8 * addr.length - ones) ∣ value (andBytes addr (cidrMask addr.length ones)) := by
  induction addr generalizing ones with
  | nil => exact dvd_zero _
  | cons a addr ih =>
    rw [List.length_cons] at bits ⊢
    by_cases whole : 8 ≤ ones
    · have same : 8 * (addr.length + 1) - ones = 8 * addr.length - (ones - 8) := by omega
      have scale : 2 ^ (8 * addr.length - (ones - 8)) ∣ 256 ^ addr.length := by
        have bytes : 256 ^ addr.length = 2 ^ (8 * addr.length) := by rw [pow_mul]; norm_num
        rw [bytes]
        exact pow_dvd_pow 2 (Nat.sub_le ..)
      rw [andBytes_cons_whole whole, value, length_andBytes (length_cidrMask ..), same]
      exact dvd_add (scale.mul_left _) (ih (by omega))
    · rw [andBytes_cons_last whole a rfl, value_cons_last whole, two_pow_bits (not_le.mp whole)]
      exact mul_dvd_mul (dvd_mul_right _ _) dvd_rfl

/-- The addresses with the same front bits are consecutive, and there are as many
as the other bits can tell apart. -/
theorem andBytes_eq_iff {addr x : List UInt8} {ones : Nat} (width : x.length = addr.length)
    (bits : ones ≤ 8 * addr.length) :
    andBytes x (cidrMask addr.length ones) = andBytes addr (cidrMask addr.length ones) ↔
      value (andBytes addr (cidrMask addr.length ones)) ≤ value x ∧
        value x < value (andBytes addr (cidrMask addr.length ones)) + 2 ^ (8 * addr.length - ones) := by
  induction addr generalizing x ones with
  | nil =>
    obtain rfl := List.length_eq_zero_iff.mp width
    obtain rfl := Nat.le_zero.mp bits
    simp [cidrMask, andBytes, value]
  | cons a addr ih =>
    cases x with
    | nil => cases width
    | cons b x =>
      have width' : x.length = addr.length := Nat.succ.inj width
      have below := value_lt x
      rw [width'] at below
      rw [List.length_cons] at bits ⊢
      by_cases whole : 8 ≤ ones
      · have bits' : ones - 8 ≤ 8 * addr.length := by omega
        have same : 8 * (addr.length + 1) - ones = 8 * addr.length - (ones - 8) := by omega
        rw [andBytes_cons_whole whole, andBytes_cons_whole whole, List.cons.injEq, ih width' bits', value, value,
          length_andBytes (length_cidrMask ..), width', same, digit_interval below (value_block_le bits'),
          UInt8.toNat_inj]
      · rw [andBytes_cons_last whole b width', andBytes_cons_last whole a rfl, List.cons.injEq, and_iff_left rfl,
          value_cons_last whole, value, width', two_pow_bits (not_le.mp whole), block_interval below, ← UInt8.toNat_inj,
          and_lastByte (not_le.mp whole), and_lastByte (not_le.mp whole)]
        have positive : 0 < 2 ^ (8 - ones) := by positivity
        rw [Nat.mul_right_inj positive.ne', Nat.div_eq_iff positive, Nat.mul_comm (2 ^ (8 - ones))]
        omega

/-- The address after the last one with the same front bits has other front bits,
also where it is the lowest address again. -/
theorem andBytes_past {addr : List UInt8} {ones : Nat} (bits : ones ≤ 8 * addr.length) (some : 1 ≤ ones) :
    andBytes (bigEndian addr.length
        (value (andBytes addr (cidrMask addr.length ones)) + 2 ^ (8 * addr.length - ones)))
      (cidrMask addr.length ones) ≠ andBytes addr (cidrMask addr.length ones) := by
  rw [ne_eq, andBytes_eq_iff (bigEndian_length ..) bits, value_bigEndian]
  rintro ⟨lower, upper⟩
  rcases (value_block_le bits).lt_or_eq with inside | top
  · rw [Nat.mod_eq_of_lt inside] at upper
    exact Nat.lt_irrefl _ upper
  · rw [top, Nat.mod_self] at lower
    have fewer : 2 ^ (8 * addr.length - ones) < 2 ^ (8 * addr.length) :=
      Nat.pow_lt_pow_right (by norm_num) (by omega)
    rw [pow_mul 2 8] at fewer
    norm_num at fewer
    omega

/-- The bits that the mask does not look at, all set. -/
def orComplement (s mask : List UInt8) : List UInt8 :=
  List.zipWith (fun b m => b ||| ~~~m) s mask

theorem length_orComplement {s mask : List UInt8} (width : mask.length = s.length) :
    (orComplement s mask).length = s.length := by
  rw [orComplement, List.length_zipWith, width, Nat.min_self]

theorem value_replicate_ones (l : Nat) : value (List.replicate l 255) + 1 = 256 ^ l := by
  induction l with
  | zero => rfl
  | succ l ih =>
    have full : (255 : UInt8).toNat = 255 := rfl
    rw [List.replicate_succ, value, List.length_replicate, full, pow_succ]
    omega

theorem orComplement_zero (l : Nat) : orComplement (List.replicate l 0) (List.replicate l 0) = List.replicate l 255 := by
  induction l with
  | zero => rfl
  | succ l ih =>
    rw [orComplement] at ih
    rw [List.replicate_succ, orComplement, List.zipWith_cons_cons, ih, List.replicate_succ]
    rfl

/-- The broadcast address is the last address with the same front bits. -/
theorem value_orComplement {addr : List UInt8} {ones : Nat} (bits : ones ≤ 8 * addr.length) :
    value (orComplement (andBytes addr (cidrMask addr.length ones)) (cidrMask addr.length ones)) + 1 =
      value (andBytes addr (cidrMask addr.length ones)) + 2 ^ (8 * addr.length - ones) := by
  induction addr generalizing ones with
  | nil =>
    obtain rfl := Nat.le_zero.mp bits
    rfl
  | cons a addr ih =>
    rw [List.length_cons] at bits ⊢
    by_cases whole : 8 ≤ ones
    · have last := ih (by omega : ones - 8 ≤ 8 * addr.length)
      have same : 8 * (addr.length + 1) - ones = 8 * addr.length - (ones - 8) := by omega
      have kept : a ||| ~~~255 = a := UInt8.or_zero
      have width := length_andBytes (length_cidrMask addr.length (ones - 8))
      rw [orComplement] at last
      rw [andBytes_cons_whole whole, cidrMask, if_pos whole, orComplement, List.zipWith_cons_cons, kept, value, value,
        List.length_zipWith, width, length_cidrMask, Nat.min_self, same, Nat.add_assoc, last, Nat.add_assoc]
    · have rest := orComplement_zero addr.length
      rw [orComplement] at rest
      rw [andBytes_cons_last whole a rfl, value_cons_last whole, cidrMask, if_neg whole, cidrMask_zero, orComplement,
        List.zipWith_cons_cons, rest, value, List.length_replicate, Nat.add_assoc, value_replicate_ones,
        two_pow_bits (not_le.mp whole), ← Nat.succ_mul, ← Nat.add_mul, Nat.succ_eq_add_one, or_lastByte (not_le.mp whole)]

end Block

section Contains

variable {addr x : List UInt8} {ones : Nat}

theorem parseCIDR_ip (family : addr.length = 4 ∨ addr.length = 16) (ones : Nat) :
    (parseCIDR addr ones).ip = andBytes addr (cidrMask addr.length ones) := by
  rcases family with short | long
  · simp [parseCIDR, applyMask, length_cidrMask, short, v4InV6]
  · simp [parseCIDR, applyMask, length_cidrMask, long]

theorem cidrMask_add {k : Nat} (l : Nat) (front : 8 * k ≤ ones) :
    cidrMask (k + l) ones = List.replicate k 255 ++ cidrMask l (ones - 8 * k) := by
  induction k generalizing ones with
  | zero => rw [Nat.zero_add, Nat.mul_zero, Nat.sub_zero, List.replicate_zero, List.nil_append]
  | succ k ih =>
    have rest : ones - 8 - 8 * k = ones - 8 * (k + 1) := by omega
    rw [Nat.succ_add, cidrMask, if_pos (by omega), ih (by omega), rest, List.replicate_succ, List.cons_append]

theorem andBytes_ones {s : List UInt8} {l : Nat} (width : s.length = l) : andBytes s (List.replicate l 255) = s := by
  subst width
  induction s with
  | nil => rfl
  | cons b rest ih =>
    have kept : b &&& 255 = b := UInt8.and_neg_one
    rw [andBytes] at ih
    rw [List.length_cons, List.replicate_succ, andBytes, List.zipWith_cons_cons, kept, ih]

theorem andBytes_append {s t m m' : List UInt8} (width : s.length = m.length) :
    andBytes (s ++ t) (m ++ m') = andBytes s m ++ andBytes t m' :=
  List.zipWith_append width

theorem andBytes_idem {s m : List UInt8} (width : m.length = s.length) :
    andBytes (andBytes s m) m = andBytes s m := by
  induction s generalizing m with
  | nil => rfl
  | cons b rest ih =>
    cases m with
    | nil => cases width
    | cons c m =>
      have same : b &&& c &&& c = b &&& c := by rw [UInt8.and_assoc, UInt8.and_self]
      simp only [andBytes, List.zipWith_cons_cons, List.cons.injEq] at ih ⊢
      exact ⟨same, ih (Nat.succ.inj width)⟩

theorem to4_append {s t : List UInt8} (front : s.length = 12) (back : t.length = 4) :
    to4 (s ++ t) = if s = v4InV6 then some t else none := by
  have length : (s ++ t).length = 16 := by rw [List.length_append, front, back]
  have first : (s ++ t).take 12 = s := List.take_left' front
  have last : (s ++ t).drop 12 = t := List.drop_left' front
  rw [to4, length, first, last]
  simp

theorem contains_short {n : IPNet} (ip : n.ip.length = 4) (mask : n.mask.length = 4) (width : x.length = 4) :
    contains n x = true ↔ andBytes n.ip n.mask = andBytes x n.mask := by
  have number : networkNumberAndMask n = some (n.ip, n.mask) := by
    simp [networkNumberAndMask, to4, ip, mask]
  simp [contains, number, to4, ip, width]

/-- Addresses that can be read as short ones are compared as such. -/
theorem contains_long {f a g y m m' : List UInt8} (widthF : f.length = 12) (widthA : a.length = 4)
    (widthG : g.length = 12) (widthY : y.length = 4) (widthM : m.length = 12) (widthM' : m'.length = 4) :
    contains ⟨f ++ a, m ++ m'⟩ (g ++ y) = true ↔
      (f = v4InV6 ↔ g = v4InV6) ∧
        (f ≠ v4InV6 → andBytes (f ++ a) (m ++ m') = andBytes (g ++ y) (m ++ m')) ∧
        (f = v4InV6 → andBytes a m' = andBytes y m') := by
  have dropped : (m ++ m').drop 12 = m' := List.drop_left' widthM
  by_cases mapped : f = v4InV6
  · have short : to4 (f ++ a) = some a := (to4_append widthF widthA).trans (if_pos mapped)
    have number : networkNumberAndMask ⟨f ++ a, m ++ m'⟩ = some (a, m') := by
      simp [networkNumberAndMask, short, widthA, widthM, widthM', dropped]
    by_cases mapped' : g = v4InV6
    · have short' : to4 (g ++ y) = some y := (to4_append widthG widthY).trans (if_pos mapped')
      simp [contains, number, short', eq_true mapped, eq_true mapped', widthA, widthY]
    · have long' : to4 (g ++ y) = none := (to4_append widthG widthY).trans (if_neg mapped')
      simp [contains, number, long', eq_true mapped, mapped', widthA, widthY, widthG]
  · have long : to4 (f ++ a) = none := (to4_append widthF widthA).trans (if_neg mapped)
    have number : networkNumberAndMask ⟨f ++ a, m ++ m'⟩ = some (f ++ a, m ++ m') := by
      simp [networkNumberAndMask, long, widthF, widthA, widthM, widthM']
    by_cases mapped' : g = v4InV6
    · have short' : to4 (g ++ y) = some y := (to4_append widthG widthY).trans (if_pos mapped')
      simp [contains, number, short', mapped, eq_true mapped', widthF, widthA, widthY]
    · have long' : to4 (g ++ y) = none := (to4_append widthG widthY).trans (if_neg mapped')
      simp [contains, number, long', mapped, mapped', widthF, widthA, widthY, widthG]

/-- A block of long addresses is recognised although some of them are read as
short ones: the front of all addresses in it is the same. -/
theorem contains_iff (family : addr.length = 4 ∨ addr.length = 16 ∧ 96 ≤ ones) (width : x.length = addr.length) :
    contains (parseCIDR addr ones) x = true ↔
      andBytes x (cidrMask addr.length ones) = andBytes addr (cidrMask addr.length ones) := by
  have net : parseCIDR addr ones = ⟨andBytes addr (cidrMask addr.length ones), cidrMask addr.length ones⟩ :=
    congrArg (IPNet.mk · _) (parseCIDR_ip (family.imp_right And.left) ones)
  rw [net]
  have maskWidth := length_cidrMask addr.length ones
  rcases family with short | ⟨long, front⟩
  · rw [contains_short (by rw [length_andBytes maskWidth, short]) (by rw [maskWidth, short]) (by rw [width, short]),
      andBytes_idem maskWidth, eq_comm]
  · obtain ⟨f, a, rfl, widthF⟩ : ∃ f a, addr = f ++ a ∧ f.length = 12 :=
      ⟨_, _, (List.take_append_drop 12 addr).symm, by rw [List.length_take, long]; rfl⟩
    obtain ⟨g, y, rfl, widthG⟩ : ∃ g y, x = g ++ y ∧ g.length = 12 :=
      ⟨_, _, (List.take_append_drop 12 x).symm, by rw [List.length_take, width, long]; rfl⟩
    have widthA : a.length = 4 := by
      rw [List.length_append] at long
      omega
    have widthY : y.length = 4 := by
      rw [List.length_append, long] at width
      omega
    have mask : cidrMask 16 ones = List.replicate 12 255 ++ cidrMask 4 (ones - 96) := cidrMask_add 4 front
    have widthM : (List.replicate 12 (255 : UInt8)).length = 12 := List.length_replicate
    have widthM' := length_cidrMask 4 (ones - 96)
    have shortWidth : (cidrMask 4 (ones - 96)).length = a.length := by rw [widthM', widthA]
    rw [long, mask, andBytes_append (by rw [widthF, widthM]), andBytes_append (by rw [widthG, widthM]), andBytes_ones widthF,
      andBytes_ones widthG, contains_long widthF (by rw [length_andBytes shortWidth, widthA]) widthG widthY widthM widthM',
      andBytes_append (by rw [widthF, widthM]), andBytes_append (by rw [widthG, widthM]), andBytes_ones widthF,
      andBytes_ones widthG, andBytes_idem shortWidth]
    have parts : ∀ {u v : List UInt8}, f ++ u = g ++ v ↔ f = g ∧ u = v :=
      ⟨fun same => List.append_inj same (by rw [widthF, widthG]), fun ⟨first, second⟩ => by rw [first, second]⟩
    rw [eq_comm (a := g ++ _), parts]
    constructor
    · rintro ⟨both, asLong, asShort⟩
      by_cases mapped : f = v4InV6
      · exact ⟨mapped.trans (both.mp mapped).symm, asShort mapped⟩
      · exact asLong mapped
    · rintro ⟨rfl, rest⟩
      exact ⟨Iff.rfl, fun _ => ⟨rfl, rest⟩, fun _ => rest⟩

/-- A front that is cut before its last bit is not the one of a short address. -/
theorem front_ne_mapped (long : addr.length = 16) (wide : ones < 96) :
    (andBytes addr (cidrMask addr.length ones)).take 12 ≠ v4InV6 := by
  intro mapped
  have multiple := dvd_value_block (by omega : ones ≤ 8 * addr.length)
  have width : (andBytes addr (cidrMask addr.length ones)).length = 16 :=
    (length_andBytes (length_cidrMask ..)).trans long
  obtain ⟨low, isLow, widthLow⟩ : ∃ low, andBytes addr (cidrMask addr.length ones) = v4InV6 ++ low ∧ low.length = 4 :=
    ⟨_, by rw [← mapped, List.take_append_drop], by rw [List.length_drop, width]⟩
  have below := value_lt low
  have whole : value (v4InV6 ++ low) = 65535 * 256 ^ 4 + value low := by
    have top : (255 : UInt8).toNat = 255 := rfl
    simp only [v4InV6, List.cons_append, List.nil_append, value, List.length_cons, widthLow, UInt8.toNat_zero, top,
      Nat.zero_mul, Nat.zero_add]
    omega
  have even : 2 ^ 33 ∣ value (v4InV6 ++ low) := by
    rw [← isLow]
    exact (Nat.pow_dvd_pow 2 (by omega : 33 ≤ 8 * addr.length - ones)).trans multiple
  rw [whole] at even
  rw [widthLow] at below
  omega

/-- In a block that is wider than all short addresses together, those are missing. -/
theorem contains_wide (long : addr.length = 16) (wide : ones < 96) (width : x.length = addr.length) :
    contains (parseCIDR addr ones) x = true ↔
      x.take 12 ≠ v4InV6 ∧
        andBytes x (cidrMask addr.length ones) = andBytes addr (cidrMask addr.length ones) := by
  have net : parseCIDR addr ones = ⟨andBytes addr (cidrMask addr.length ones), cidrMask addr.length ones⟩ :=
    congrArg (IPNet.mk · _) (parseCIDR_ip (.inr long) ones)
  have maskWidth := length_cidrMask addr.length ones
  have netWidth := length_andBytes maskWidth
  have notMapped := front_ne_mapped long wide
  rw [net]
  have split : ∀ l : List UInt8, l.length = 16 → (l.take 12).length = 12 ∧ (l.drop 12).length = 4 := by
    intro l length
    rw [List.length_take, List.length_drop, length]
    exact ⟨rfl, rfl⟩
  have parts := split _ (netWidth.trans long)
  have partsX := split x (width.trans long)
  have partsM := split _ (maskWidth.trans long)
  have compared := contains_long parts.1 parts.2 partsX.1 partsX.2 partsM.1 partsM.2
  rw [List.take_append_drop, List.take_append_drop, List.take_append_drop, andBytes_idem maskWidth] at compared
  rw [compared, iff_false_left notMapped]
  refine and_congr_right fun _ => ⟨fun same => (same.1 notMapped).symm, fun same => ⟨fun _ => same.symm, ?_⟩⟩
  intro mapped
  exact absurd mapped notMapped

/-- Where a network is recognised, the front bits are the same. -/
theorem masked_of_contains (family : addr.length = 4 ∨ addr.length = 16) (width : x.length = addr.length)
    (inside : contains (parseCIDR addr ones) x = true) :
    andBytes x (cidrMask addr.length ones) = andBytes addr (cidrMask addr.length ones) := by
  rcases family with short | long
  · exact (contains_iff (.inl short) width).mp inside
  · rcases lt_or_ge ones 96 with wide | narrow
    · exact ((contains_wide long wide width).mp inside).2
    · exact (contains_iff (.inr ⟨long, narrow⟩) width).mp inside

end Contains

end GoNet
