import Casm.Lib.Hex
import Casm.Routing.Schema

namespace Casm.Routing
open MultiIndex (Bytes)

/-- What `pool.Get` returns: a slice of the length that was asked for, with whatever
its last user left in it. -/
abbrev Scratch (n : Nat) := { buf : Bytes // buf.length = n }

/-- `binary.BigEndian.PutUint64`, for a slice that has room for it. -/
def putUint64 (b : Bytes) (v : UInt64) : Bytes :=
  Bytes.bigEndian 8 v.toNat ++ b.drop 8

/-- `hex.Encode`, for a slice that has room for it. -/
def hexEncodeInto (dst src : Bytes) : Bytes :=
  hexEncode src ++ dst.drop (2 * src.length)

namespace ID

def bytes (buf : Scratch 8) (id : UInt64) : Bytes :=
  putUint64 buf.1 id

def string (b : Scratch 8) (buf : Scratch 16) (id : UInt64) : Bytes :=
  hexEncodeInto buf.1 (bytes b id)

/-- The number itself is written first, and then overwritten by its digits. -/
def marshalText (b : Scratch 16) (buf : Scratch 8) (id : UInt64) : Bytes :=
  hexEncodeInto (putUint64 b.1 id) (bytes buf id)

/-- The ID that the call leaves behind, and the error that it returns. -/
def unmarshalText (buf : Scratch 8) (id : UInt64) (b : Bytes) : Except Fault (UInt64 × Option Hex.DecodeError) :=
  (Hex.decode buf.1 b).map fun d =>
    match d.err with
    | none => (UInt64.ofNat (Bytes.value d.dst), none)
    | some err => (id, some err)

/-- Sixteen hexadecimal digits. -/
def IsText (b : Bytes) : Prop :=
  b.length = 16 ∧ ∀ c ∈ b, Hex.isDigit c = true

/-- The texts of IDs are read, and everything else is refused and changes nothing. -/
structure ReadsText (buf : Scratch 8) (id : UInt64) (b : Bytes) : Prop where
  accepts : IsText b → unmarshalText buf id b = .ok (UInt64.ofNat (Hex.value b), none)
  refuses : ¬ IsText b → ∃ err, unmarshalText buf id b = .ok (id, some err)

section Encode

theorem hexEncode_cons (b : UInt8) (rest : Bytes) :
    hexEncode (b :: rest) = hexDigit (b / 16) :: hexDigit (b % 16) :: hexEncode rest :=
  rfl

theorem hexEncode_length (s : Bytes) : (hexEncode s).length = 2 * s.length := by
  induction s with
  | nil => rfl
  | cons b rest ih =>
    rw [hexEncode_cons, List.length_cons, List.length_cons, List.length_cons, ih]
    omega

/-- Each of the sixteen digits reads back as its own value. -/
theorem digitValue_hexDigit {nibble : UInt8} (small : nibble < 16) :
    Hex.digitValue (hexDigit nibble) = some nibble.toNat := by
  have reads : ∀ n : Fin 16, Hex.digitValue (hexDigit (UInt8.ofNat n)) = some n.val := by
    decide
  have found := reads ⟨nibble.toNat, small⟩
  rwa [UInt8.ofNat_toNat] at found

theorem digitValue_high (b : UInt8) : Hex.digitValue (hexDigit (b / 16)) = some (b.toNat / 16) := by
  refine digitValue_hexDigit ?_
  rw [UInt8.lt_iff_toNat_lt, UInt8.toNat_div]
  have := b.toNat_lt
  exact Nat.div_lt_of_lt_mul this

theorem digitValue_low (b : UInt8) : Hex.digitValue (hexDigit (b % 16)) = some (b.toNat % 16) := by
  refine digitValue_hexDigit ?_
  rw [UInt8.lt_iff_toNat_lt, UInt8.toNat_mod]
  exact Nat.mod_lt _ (by decide)

theorem paired_hexEncode (s : Bytes) : Hex.Paired (hexEncode s) := by
  induction s with
  | nil => exact ⟨rfl, fun c member => absurd member List.not_mem_nil⟩
  | cons b rest ih =>
    rw [hexEncode_cons, Hex.paired_cons_cons, Hex.isDigit, Hex.isDigit, digitValue_high, digitValue_low]
    exact ⟨rfl, rfl, ih⟩

theorem octets_hexEncode (s : Bytes) : Hex.octets (hexEncode s) = s := by
  induction s with
  | nil => rfl
  | cons b rest ih =>
    rw [hexEncode_cons, Hex.octets, ih, digitValue_high, digitValue_low, Option.getD_some, Option.getD_some,
      Nat.div_add_mod, UInt8.ofNat_toNat]

theorem bytes_eq (buf : Scratch 8) (id : UInt64) : bytes buf id = Bytes.bigEndian 8 id.toNat := by
  rw [bytes, putUint64, List.drop_eq_nil_of_le buf.2.le, List.append_nil]

/-- Sixteen bytes are overwritten whatever they were. -/
theorem hexEncodeInto_bytes {dst : Bytes} (width : dst.length = 16) (buf : Scratch 8) (id : UInt64) :
    hexEncodeInto dst (bytes buf id) = Routing.marshalText id := by
  rw [hexEncodeInto, bytes_eq, Bytes.bigEndian_length, List.drop_eq_nil_of_le width.le, List.append_nil]
  rfl

theorem string_eq (b : Scratch 8) (buf : Scratch 16) (id : UInt64) : string b buf id = Routing.marshalText id :=
  hexEncodeInto_bytes buf.2 b id

theorem marshalText_eq (b : Scratch 16) (buf : Scratch 8) (id : UInt64) :
    marshalText b buf id = Routing.marshalText id := by
  refine hexEncodeInto_bytes ?_ buf id
  rw [putUint64, List.length_append, Bytes.bigEndian_length, List.length_drop, b.2]

theorem isText_marshalText (id : UInt64) : IsText (Routing.marshalText id) := by
  refine ⟨?_, (paired_hexEncode _).2⟩
  rw [Routing.marshalText, hexEncode_length, Bytes.bigEndian_length]

theorem value_marshalText (id : UInt64) : UInt64.ofNat (Hex.value (Routing.marshalText id)) = id := by
  have small : id.toNat < 256 ^ 8 := id.toNat_lt
  rw [Routing.marshalText, ← Hex.value_octets (paired_hexEncode _), octets_hexEncode, Bytes.value_bigEndian,
    Nat.mod_eq_of_lt small, UInt64.ofNat_toNat]

end Encode

section Decode

variable {buf : Scratch 8} {id : UInt64} {b : Bytes}

theorem unmarshalText_overruns (overruns : Hex.Overruns b 8) :
    unmarshalText buf id b = .error (.panic "index out of range") := by
  rw [unmarshalText, Hex.decode, Hex.decodeFrom_overruns overruns (by rw [buf.2])]
  rfl

/-- The bytes of the scratch buffer behind the decoded ones are read too. -/
theorem unmarshalText_paired (paired : Hex.Paired b) (fits : b.length ≤ 16) :
    unmarshalText buf id b =
      .ok (UInt64.ofNat (Bytes.value (Hex.octets b ++ buf.1.drop (b.length / 2))), none) := by
  have room : 0 + b.length / 2 ≤ buf.1.length := by
    rw [buf.2]
    omega
  rw [unmarshalText, Hex.decode, Hex.decodeFrom_paired paired room, GoSlice.overwrite, Hex.octets_length, List.take_zero,
    List.nil_append, Nat.zero_add]
  rfl

theorem unmarshalText_rejects (unpaired : ¬ Hex.Paired b) (within : ¬ Hex.Overruns b 8) :
    ∃ err, unmarshalText buf id b = .ok (id, some err) := by
  have ends : 0 + 8 = buf.1.length := by rw [buf.2]
  obtain ⟨d, err, decoded, isErr⟩ := Hex.decodeFrom_rejects unpaired within ends
  refine ⟨err, ?_⟩
  rw [unmarshalText, Hex.decode, decoded, Except.map, isErr]

theorem IsText.paired (isText : IsText b) : Hex.Paired b :=
  ⟨by rw [isText.1], isText.2⟩

theorem IsText.within (isText : IsText b) : ¬ Hex.Overruns b 8 := by
  intro overruns
  have long := overruns.1
  rw [isText.1] at long
  omega

theorem length_le_of_paired (paired : Hex.Paired b) (within : ¬ Hex.Overruns b 8) : b.length ≤ 16 := by
  by_contra long
  have even := paired.1
  exact within ⟨by omega, fun c member => paired.2 c (List.mem_of_mem_take member)⟩

theorem unmarshalText_isText (isText : IsText b) :
    unmarshalText buf id b = .ok (UInt64.ofNat (Hex.value b), none) := by
  have nothing : buf.1.drop (b.length / 2) = [] := by
    refine List.drop_eq_nil_of_le ?_
    rw [buf.2, isText.1]
  rw [unmarshalText_paired isText.paired isText.1.le, nothing, List.append_nil, Hex.value_octets isText.paired]

/-- Fewer digits leave bytes of the scratch buffer in the ID, more of them are
written behind its end. -/
theorem readsText_iff : ReadsText buf id b ↔ ¬ (Hex.Paired b ∧ b.length < 16) ∧ ¬ Hex.Overruns b 8 := by
  constructor
  · intro reads
    refine ⟨fun ⟨paired, short⟩ => ?_, fun overruns => ?_⟩
    · obtain ⟨err, failed⟩ := reads.refuses fun isText => by
        have := isText.1
        omega
      rw [unmarshalText_paired paired short.le] at failed
      cases failed
    · obtain ⟨err, failed⟩ := reads.refuses fun isText => isText.within overruns
      rw [unmarshalText_overruns overruns] at failed
      cases failed
  · rintro ⟨notShort, within⟩
    refine ⟨unmarshalText_isText, fun notText => unmarshalText_rejects (fun paired => notText ?_) within⟩
    have atMost := length_le_of_paired paired within
    have atLeast : ¬ b.length < 16 := fun short => notShort ⟨paired, short⟩
    exact ⟨by omega, paired.2⟩

end Decode

end ID

/-- An ID survives its text, and the texts that are handled as they should are all but
the even numbers of digits below sixteen and those that begin with eighteen digits. -/
theorem id_text_codec_iff (id old : UInt64) (b b' : Scratch 16) (buf buf' : Scratch 8) (text : Bytes) :
    ID.unmarshalText buf old (ID.marshalText b buf' id) = .ok (id, none) ∧
      ID.string buf b' id = ID.marshalText b buf' id ∧
      (ID.ReadsText buf old text ↔ ¬ (Hex.Paired text ∧ text.length < 16) ∧ ¬ Hex.Overruns text 8) := by
  rw [ID.marshalText_eq, ID.string_eq, ID.unmarshalText_isText (ID.isText_marshalText id), ID.value_marshalText]
  exact ⟨rfl, rfl, ID.readsText_iff⟩

/-- Two digits set the highest byte of the ID, and the others are what the buffer
held. Eighteen digits panic. -/
theorem short_text_reads_stale_bytes :
    ¬ ID.ReadsText ⟨[9, 9, 9, 9, 9, 9, 9, 9], rfl⟩ 7 [48, 49] ∧
      ¬ ID.ReadsText ⟨[9, 9, 9, 9, 9, 9, 9, 9], rfl⟩ 7 (List.replicate 18 48) := by
  have stale : ID.unmarshalText ⟨[9, 9, 9, 9, 9, 9, 9, 9], rfl⟩ 7 [48, 49] = .ok (0x0109090909090909, none) := rfl
  have panics : ID.unmarshalText ⟨[9, 9, 9, 9, 9, 9, 9, 9], rfl⟩ 7 (List.replicate 18 48) =
      .error (.panic "index out of range") := rfl
  refine ⟨fun reads => ?_, fun reads => ?_⟩
  · obtain ⟨err, refused⟩ := reads.refuses fun isText => by cases isText.1
    rw [stale] at refused
    cases refused
  · obtain ⟨err, refused⟩ := reads.refuses fun isText => by cases isText.1
    rw [panics] at refused
    cases refused

end Casm.Routing
