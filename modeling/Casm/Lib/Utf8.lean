import Mathlib

namespace Utf8

/-- The bytes of a text. -/
def encode (text : List Char) : List UInt8 :=
  text.flatMap String.utf8EncodeChar

def runeError : Char :=
  Char.ofNat 0xFFFD

/-- The runes that `range` finds in a string of Go, after some bytes that belong to the
rune before. A byte that begins no encoded rune is an error by itself. -/
def runesFrom : Nat → List UInt8 → List Char
  | _, [] => []
  | skip + 1, _ :: rest => runesFrom skip rest
  | 0, b :: rest =>
    match (b :: rest).toByteArray.utf8DecodeChar? 0 with
    | some r => r :: runesFrom (r.utf8Size - 1) rest
    | none => runeError :: runesFrom 0 rest

def runes (s : List UInt8) : List Char :=
  runesFrom 0 s

/-- The text that a string is read as. -/
def repair (s : List UInt8) : List UInt8 :=
  encode (runes s)

section Encode

theorem encode_cons (r : Char) (text : List Char) : encode (r :: text) = String.utf8EncodeChar r ++ encode text :=
  rfl

theorem utf8EncodeChar_ne_nil (r : Char) : String.utf8EncodeChar r ≠ [] := by
  intro nothing
  have length := String.length_utf8EncodeChar r
  rw [nothing] at length
  exact absurd length.symm r.utf8Size_pos.ne'

theorem ofNat_toNat_of_ge {n : Nat} (least : 128 ≤ n) (most : n < 256) : 128 ≤ (UInt8.ofNat n).toNat := by
  rw [UInt8.toNat_ofNat_of_lt' most]
  exact least

/-- A rune is one byte below 128, or all of its bytes are from 128 on. -/
theorem utf8EncodeChar_cases (r : Char) :
    (∃ b : UInt8, b.toNat = r.toNat ∧ r.toNat < 128 ∧ String.utf8EncodeChar r = [b]) ∨
      ∀ b ∈ String.utf8EncodeChar r, 128 ≤ b.toNat := by
  unfold String.utf8EncodeChar
  dsimp only
  split
  · rename_i ascii
    refine .inl ⟨UInt8.ofNat r.val.toNat, ?_, Nat.lt_succ_of_le ascii, rfl⟩
    exact UInt8.toNat_ofNat_of_lt' (lt_of_le_of_lt ascii (by decide))
  · right
    split
    · simp only [List.forall_mem_cons]
      exact ⟨ofNat_toNat_of_ge (by omega) (by omega), ofNat_toNat_of_ge (by omega) (by omega), by simp⟩
    · split
      · simp only [List.forall_mem_cons]
        exact ⟨ofNat_toNat_of_ge (by omega) (by omega), ofNat_toNat_of_ge (by omega) (by omega),
          ofNat_toNat_of_ge (by omega) (by omega), by simp⟩
      · simp only [List.forall_mem_cons]
        exact ⟨ofNat_toNat_of_ge (by omega) (by omega), ofNat_toNat_of_ge (by omega) (by omega),
          ofNat_toNat_of_ge (by omega) (by omega), ofNat_toNat_of_ge (by omega) (by omega), by simp⟩

/-- A byte below 128 in the encoding of a rune is all of it. -/
theorem eq_singleton_of_mem {r : Char} {a : UInt8} (ascii : a.toNat < 128) (member : a ∈ String.utf8EncodeChar r) :
    String.utf8EncodeChar r = [a] := by
  rcases utf8EncodeChar_cases r with ⟨b, -, -, single⟩ | high
  · rw [single, List.mem_singleton] at member
    rw [single, member]
  · exact absurd (high a member) (by omega)

theorem exists_encode_ascii {a : UInt8} (ascii : a.toNat < 128) : ∃ r, String.utf8EncodeChar r = [a] := by
  have valid : a.toNat.isValidChar := .inl (by omega)
  have code : (Char.ofNat a.toNat).val.toNat = a.toNat := (Char.toNat_ofNat _).trans (if_pos valid)
  refine ⟨Char.ofNat a.toNat, ?_⟩
  unfold String.utf8EncodeChar
  dsimp only
  rw [code, if_pos (by omega), UInt8.ofNat_toNat]

end Encode

section Decode

variable {s t : List UInt8} {r : Char}

theorem decode_encode (r : Char) (t : List UInt8) :
    (String.utf8EncodeChar r ++ t).toByteArray.utf8DecodeChar? 0 = some r := by
  rw [List.toByteArray_append]
  exact ByteArray.utf8DecodeChar?_utf8EncodeChar_append

theorem utf8EncodeChar_injective {r r' : Char} (same : String.utf8EncodeChar r = String.utf8EncodeChar r') : r = r' := by
  have decoded := decode_encode r []
  rw [same, decode_encode] at decoded
  exact (Option.some.inj decoded).symm

theorem decode_eq_some (found : s.toByteArray.utf8DecodeChar? 0 = some r) : ∃ t, s = String.utf8EncodeChar r ++ t := by
  have whole := ByteArray.eq_of_utf8DecodeChar?_eq_some found
  refine ⟨(s.toByteArray.extract r.utf8Size s.toByteArray.size).data.toList, ?_⟩
  have data := congrArg (fun b : ByteArray => b.data.toList) whole
  simpa using data

theorem runesFrom_append (s t : List UInt8) : runesFrom s.length (s ++ t) = runes t := by
  induction s with
  | nil => rfl
  | cons b s ih => exact ih

theorem runes_encode_append (r : Char) (t : List UInt8) : runes (String.utf8EncodeChar r ++ t) = r :: runes t := by
  obtain ⟨b, rest, shape⟩ := List.exists_cons_of_ne_nil (utf8EncodeChar_ne_nil r)
  have decoded := decode_encode r t
  have size : r.utf8Size - 1 = rest.length := by
    rw [← String.length_utf8EncodeChar, shape, List.length_cons, Nat.add_sub_cancel]
  rw [shape, List.cons_append] at decoded ⊢
  rw [runes, runesFrom, decoded]
  dsimp only
  rw [size, runesFrom_append]

theorem runes_of_invalid {b : UInt8} {rest : List UInt8}
    (invalid : (b :: rest).toByteArray.utf8DecodeChar? 0 = none) : runes (b :: rest) = runeError :: runes rest := by
  rw [runes, runesFrom, invalid]
  rfl

theorem runes_encode (text : List Char) : runes (encode text) = text := by
  induction text with
  | nil => rfl
  | cons r text ih => rw [encode_cons, runes_encode_append, ih]

theorem repair_encode (text : List Char) : repair (encode text) = encode text := by
  rw [repair, runes_encode]

theorem repair_repair (s : List UInt8) : repair (repair s) = repair s :=
  repair_encode (runes s)

theorem repair_encode_append (r : Char) (t : List UInt8) :
    repair (String.utf8EncodeChar r ++ t) = String.utf8EncodeChar r ++ repair t := by
  rw [repair, runes_encode_append]
  rfl

/-- No rune begins the string. -/
def Invalid (s : List UInt8) : Prop :=
  ∀ r t, s ≠ String.utf8EncodeChar r ++ t

theorem repair_of_invalid {b : UInt8} {t : List UInt8} (invalid : Invalid (b :: t)) :
    repair (b :: t) = String.utf8EncodeChar runeError ++ repair t := by
  cases decoded : (b :: t).toByteArray.utf8DecodeChar? 0 with
  | some r =>
    obtain ⟨t', shape⟩ := decode_eq_some decoded
    exact absurd shape (invalid r t')
  | none =>
    rw [repair, runes_of_invalid decoded]
    rfl

/-- A string begins with a rune, or with a byte that is replaced, and so does its rest. -/
theorem repair_induction {P : List UInt8 → Prop} (nil : P []) (rune : ∀ r t, P t → P (String.utf8EncodeChar r ++ t))
    (replaced : ∀ b t, Invalid (b :: t) → P t → P (b :: t)) (s : List UInt8) : P s := by
  induction length : s.length using Nat.strong_induction_on generalizing s with
  | _ n ih =>
    by_cases invalid : Invalid s
    · cases s with
      | nil => exact nil
      | cons b t =>
        rw [List.length_cons] at length
        exact replaced b t invalid (ih t.length (by omega) t rfl)
    · simp only [Invalid, not_forall, not_not] at invalid
      obtain ⟨r, t, rfl⟩ := invalid
      have positive := List.length_pos_iff.mpr (utf8EncodeChar_ne_nil r)
      rw [List.length_append] at length
      exact rune r t (ih t.length (by omega) t rfl)

end Decode

section Ascii

variable {a : UInt8}

theorem repair_cons (ascii : a.toNat < 128) (t : List UInt8) : repair (a :: t) = a :: repair t := by
  obtain ⟨r, single⟩ := exists_encode_ascii ascii
  have step := repair_encode_append r t
  rwa [single] at step

/-- A rune cannot go past the end of a string, over a byte below 128. -/
theorem Invalid.append_cons {b : UInt8} {s : List UInt8} (invalid : Invalid (b :: s)) (ascii : a.toNat < 128)
    (t : List UInt8) : Invalid (b :: s ++ a :: t) := by
  intro r t' shape
  rcases List.append_eq_append_iff.mp shape with ⟨beyond, front, back⟩ | ⟨rest, front, -⟩
  · cases beyond with
    | nil =>
      rw [List.append_nil] at front
      exact invalid r [] (by rw [List.append_nil, front])
    | cons c beyond =>
      have isA : a = c := (List.cons.inj back).1
      have single := eq_singleton_of_mem (r := r) ascii (by rw [front, isA]; simp)
      rw [single] at front
      simp at front
  · exact invalid r rest front

/-- A byte below 128 is a rune wherever it stands, so that a string can be taken
apart there. -/
theorem repair_append_cons (ascii : a.toNat < 128) (s t : List UInt8) :
    repair (s ++ a :: t) = repair s ++ a :: repair t := by
  induction s using repair_induction with
  | nil => exact repair_cons ascii t
  | rune r s ih => rw [List.append_assoc, repair_encode_append, repair_encode_append, ih, List.append_assoc]
  | replaced b s invalid ih =>
    have longer := invalid.append_cons ascii t
    rw [List.cons_append] at longer ⊢
    rw [repair_of_invalid longer, repair_of_invalid invalid, ih, List.append_assoc]

theorem repair_eq_nil_iff {s : List UInt8} : repair s = [] ↔ s = [] := by
  induction s using repair_induction with
  | nil => exact iff_of_true rfl rfl
  | rune r t =>
    rw [repair_encode_append]
    simp
  | replaced b t invalid =>
    rw [repair_of_invalid invalid]
    simp

theorem not_mem_runeError (ascii : a.toNat < 128) : a ∉ String.utf8EncodeChar runeError := by
  intro member
  have three : (String.utf8EncodeChar runeError).length = 3 := by decide
  rw [eq_singleton_of_mem ascii member] at three
  cases three

/-- A byte below 128 is never made up. -/
theorem mem_of_mem_repair (ascii : a.toNat < 128) {s : List UInt8} (member : a ∈ repair s) : a ∈ s := by
  induction s using repair_induction with
  | nil => exact member
  | rune r t ih =>
    rw [repair_encode_append] at member
    rcases List.mem_append.mp member with first | later
    · exact List.mem_append_left _ first
    · exact List.mem_append_right _ (ih later)
  | replaced b t invalid ih =>
    rw [repair_of_invalid invalid] at member
    rcases List.mem_append.mp member with first | later
    · exact absurd first (not_mem_runeError ascii)
    · exact List.mem_cons_of_mem b (ih later)

theorem getLast?_of_repair (ascii : a.toNat < 128) {s : List UInt8} (ends : (repair s).getLast? = some a) :
    s.getLast? = some a := by
  induction s using repair_induction with
  | nil => exact ends
  | rune r t ih =>
    rw [repair_encode_append, List.getLast?_append] at ends
    rw [List.getLast?_append]
    rcases eq_or_ne t [] with rfl | nonempty
    · exact ends
    · rw [List.getLast?_eq_some_getLast (mt repair_eq_nil_iff.mp nonempty)] at ends ih
      rw [ih ends]
      rfl
  | replaced b t invalid ih =>
    rw [repair_of_invalid invalid, List.getLast?_append] at ends
    rcases eq_or_ne t [] with rfl | nonempty
    · have last : (String.utf8EncodeChar runeError).getLast? = some a := ends
      exact absurd (List.mem_of_getLast? last) (not_mem_runeError ascii)
    · rw [List.getLast?_eq_some_getLast (mt repair_eq_nil_iff.mp nonempty)] at ends ih
      rw [List.getLast?_cons, ih ends]
      rfl

variable {w : List UInt8}

theorem repair_append_ascii (ascii : ∀ a ∈ w, a.toNat < 128) (s : List UInt8) : repair (s ++ w) = repair s ++ w := by
  induction w using List.reverseRecOn with
  | nil => simp
  | append_singleton w a ih =>
    obtain ⟨front, last⟩ := List.forall_mem_append.mp ascii
    have isLast := last a (List.mem_singleton_self a)
    rw [← List.append_assoc, repair_append_cons isLast, ih front, List.append_assoc]
    rfl

theorem suffix_repair_iff (ascii : ∀ a ∈ w, a.toNat < 128) {s : List UInt8} : w <:+ repair s ↔ w <:+ s := by
  constructor
  · intro ends
    induction w using List.reverseRecOn generalizing s with
    | nil => exact List.nil_suffix
    | append_singleton w a ih =>
      obtain ⟨front, last⟩ := List.forall_mem_append.mp ascii
      have isLast := last a (List.mem_singleton_self a)
      obtain ⟨u, whole⟩ := ends
      have ending : (repair s).getLast? = some a := by rw [← whole, ← List.append_assoc, List.getLast?_concat]
      obtain ⟨s', rfl⟩ := List.getLast?_eq_some_iff.mp (getLast?_of_repair isLast ending)
      rw [repair_append_ascii last, ← List.append_assoc] at whole
      obtain ⟨x, inner⟩ := ih front ⟨u, List.append_inj_left' whole rfl⟩
      exact ⟨x, by rw [← inner, List.append_assoc]⟩
  · rintro ⟨x, rfl⟩
    rw [repair_append_ascii ascii]
    exact List.suffix_append ..

theorem repair_eq_iff (ascii : ∀ a ∈ w, a.toNat < 128) {s : List UInt8} : repair s = w ↔ s = w := by
  constructor
  · intro same
    have ends : w <:+ repair s := by rw [same]
    obtain ⟨x, rfl⟩ := (suffix_repair_iff ascii).mp ends
    rw [repair_append_ascii ascii] at same
    rw [repair_eq_nil_iff.mp (List.append_left_eq_self.mp same), List.nil_append]
  · rintro rfl
    exact repair_append_ascii ascii []

/-- Cutting a string at a byte below 128 and reading it as text can be done in either
order. -/
theorem splitOn_repair (ascii : a.toNat < 128) (s : List UInt8) : (repair s).splitOn a = (s.splitOn a).map repair := by
  induction length : s.length using Nat.strong_induction_on generalizing s with
  | _ n ih =>
    by_cases inside : a ∈ s
    · obtain ⟨p, q, rfl⟩ := List.append_of_mem inside
      rw [List.length_append, List.length_cons] at length
      rw [repair_append_cons ascii, List.splitOn_append_cons_self, List.splitOn_append_cons_self, List.map_append,
        ih p.length (by omega) p rfl, ih q.length (by omega) q rfl]
    · have outside : a ∉ repair s := mt (mem_of_mem_repair ascii) inside
      rw [List.splitOn_eq_singleton inside, List.splitOn_eq_singleton outside]
      rfl

end Ascii

end Utf8
