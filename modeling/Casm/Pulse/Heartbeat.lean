import Casm.Cluster.Query
import Casm.Lib.Slice
import Casm.Pulse.Validator

namespace Casm.Pulse
open MultiIndex (Bytes)
open Routing (MetaField)
open Query (separator parseField fieldString metaGet)

/-- `NewHeartbeat`. -/
def newHeartbeat : Heartbeat where
  ttl := 0
  server := 0
  host := .ok []
  metadata := .ok []

namespace Heartbeat

/-- Whole milliseconds, of which the low 32 bits are kept. -/
def setTTL (h : Heartbeat) (d : Int) : Heartbeat :=
  { h with ttl := UInt32.ofInt (d.tdiv (10 ^ 6)) }

def setServer (h : Heartbeat) (id : UInt64) : Heartbeat :=
  { h with server := id }

def setHost (h : Heartbeat) (name : Bytes) : Heartbeat :=
  { h with host := .ok name }

end Heartbeat

/-- The errors that capnp returns to `SetMeta`: for the list, and for its elements. -/
structure Arena where
  newMeta : Option String
  set : Nat → Option String

/-- The loop of `SetMeta` from an index on. Setting an element that the list does not
have panics. -/
def setFields (arena : Arena) (list : List (Except Fault Bytes)) (i : Nat) :
    List MetaField → List (Except Fault Bytes) × Except Fault Unit
  | [] => (list, .ok ())
  | f :: rest =>
    if i < list.length then
      match arena.set i with
      | some msg => (list, .error (.error msg))
      | none => setFields arena (list.set i (.ok (fieldString f))) (i + 1) rest
    else (list, .error (.panic "list index out of bounds"))

/-- `SetMeta`, with the heartbeat that it leaves. The number of elements is a 32-bit one. -/
def Heartbeat.setMeta (arena : Arena) (h : Heartbeat) (fields : List MetaField) : Heartbeat × Except Fault Unit :=
  match arena.newMeta with
  | some msg => (h, .error (.error msg))
  | none =>
    let list := List.replicate (Int32.ofNat fields.length).toNatClampNeg (.ok [])
    ({ h with metadata := .ok (setFields arena list 0 fields).1 }, (setFields arena list 0 fields).2)

/-- `Meta.At`. -/
def metaAt (list : List (Except Fault Bytes)) (i : Nat) : Except Fault MetaField :=
  match list[i]? with
  | none => .error (.panic "list index out of bounds")
  | some text => text.bind parseField

/-- The value of the first field with the key, empty if there is none. -/
def lookup (fields : List MetaField) (key : Bytes) : Bytes :=
  ((fields.find? fun f => f.key = key).map MetaField.value).getD []

/-- The fields are read back from the heartbeat by their places and by their keys. -/
structure ReadsBack (h : Heartbeat) (fields : List MetaField) : Prop where
  places : ∀ i f, fields[i]? = some f → (h.metadata.bind fun list => metaAt list i) = .ok f
  keys : ∀ key, h.metadata.bind (metaGet key) = .ok (lookup fields key)

section TTL

variable {d : Int}

/-- What a receiver takes for the lifetime that was set. -/
theorem duration_setTTL (h : Heartbeat) (positive : 0 ≤ d) :
    (h.setTTL d).duration =
      if d / 10 ^ 6 % 2 ^ 32 = 0 then defaultTTL else 10 ^ 6 * (d / 10 ^ 6 % 2 ^ 32) := by
  have low : ((UInt32.ofInt (d.tdiv (10 ^ 6))).toNat : Int) = d / 10 ^ 6 % 2 ^ 32 := by
    rw [Int.tdiv_eq_ediv_of_nonneg positive, UInt32.ofInt, UInt32.toNat_ofNat']
    omega
  have zero : (10 : Int) ^ 6 * (d / 10 ^ 6 % 2 ^ 32) = 0 ↔ d / 10 ^ 6 % 2 ^ 32 = 0 := by omega
  rw [Heartbeat.duration, Heartbeat.setTTL, low]
  simp only [zero]

/-- A lifetime of whole milliseconds that fit in the field is read as it was set. -/
theorem duration_setTTL_of_fits (h : Heartbeat) (least : 10 ^ 6 ≤ d) (fits : d < 2 ^ 32 * 10 ^ 6) :
    (h.setTTL d).duration = 10 ^ 6 * (d / 10 ^ 6) := by
  have same : d / 10 ^ 6 % 2 ^ 32 = d / 10 ^ 6 := Int.emod_eq_of_lt (by omega) (by omega)
  rw [duration_setTTL h (by omega), same, if_neg (by omega)]

/-- Every lifetime that is read is of whole milliseconds, of which there are some. -/
theorem duration_whole (h : Heartbeat) : 10 ^ 6 ∣ h.duration ∧ 10 ^ 6 ≤ h.duration ∧ h.duration < 2 ^ 32 * 10 ^ 6 := by
  have small := h.ttl.toNat_lt
  rw [Heartbeat.duration]
  split
  · rw [defaultTTL]
    decide
  · exact ⟨Dvd.intro _ rfl, by omega, by omega⟩

/-- The lifetimes that are read as they were set. -/
theorem duration_setTTL_eq_iff (h : Heartbeat) :
    (h.setTTL d).duration = d ↔ 10 ^ 6 ∣ d ∧ 10 ^ 6 ≤ d ∧ d < 2 ^ 32 * 10 ^ 6 := by
  constructor
  · intro same
    rw [← same]
    exact duration_whole _
  · rintro ⟨whole, least, fits⟩
    rw [duration_setTTL_of_fits h least fits, Int.mul_ediv_cancel' whole]

/-- What was read from one heartbeat is read again from another that it is set in.
This includes the default, which stands for no lifetime at all. -/
theorem duration_setTTL_duration (h h' : Heartbeat) : (h.setTTL h'.duration).duration = h'.duration :=
  (duration_setTTL_eq_iff h).mpr (duration_whole h')

end TTL

section Meta

variable {arena : Arena} {list : List (Except Fault Bytes)} {fields : List MetaField} {i : Nat}

/-- If the loop comes to its end, there was room for every field and it has been
written in its place. -/
theorem setFields_ok (within : i ≤ list.length) (written : (setFields arena list i fields).2 = .ok ()) :
    i + fields.length ≤ list.length ∧
      (setFields arena list i fields).1 = GoSlice.overwrite list i (fields.map fun f => .ok (fieldString f)) := by
  induction fields generalizing list i with
  | nil =>
    rw [List.map_nil, GoSlice.overwrite_nil]
    exact ⟨within, rfl⟩
  | cons f rest ih =>
    rw [setFields] at written ⊢
    by_cases inside : i < list.length
    · rw [if_pos inside] at written ⊢
      cases answer : arena.set i with
      | some msg =>
        rw [answer] at written
        cases written
      | none =>
        rw [answer] at written
        have within' : i + 1 ≤ (list.set i (.ok (fieldString f))).length := by rwa [List.length_set]
        obtain ⟨fits, whole⟩ := ih within' written
        rw [List.length_set] at fits
        rw [List.length_cons, List.map_cons, ← GoSlice.overwrite_set inside]
        exact ⟨by omega, whole⟩
    · rw [if_neg inside] at written
      cases written

theorem toNatClampNeg_le (n : Nat) : (Int32.ofNat n).toNatClampNeg ≤ n := by
  rw [Int32.toNatClampNeg, Int32.toInt_ofNat', Int.bmod_def]
  have size : Int32.size = 2 ^ 32 := rfl
  rw [size]
  split <;> omega

/-- A call of `SetMeta` that returns nil has stored the text of every field. -/
theorem setMeta_ok {h h' : Heartbeat} (written : h.setMeta arena fields = (h', .ok ())) :
    h'.metadata = .ok (fields.map fun f => .ok (fieldString f)) := by
  rw [Heartbeat.setMeta] at written
  split at written
  · cases Prod.mk.inj written |>.2
  · obtain ⟨isHeartbeat, ended⟩ := Prod.mk.inj written
    obtain ⟨fits, whole⟩ := setFields_ok (Nat.zero_le _) ended
    have behind : (List.replicate (Int32.ofNat fields.length).toNatClampNeg (Except.ok [] : Except Fault Bytes)).drop
        (0 + fields.length) = [] := by
      refine List.drop_eq_nil_of_le ?_
      rw [List.length_replicate, Nat.zero_add]
      exact toNatClampNeg_le _
    rw [← isHeartbeat, whole, GoSlice.overwrite, List.length_map, behind, List.append_nil]
    rfl

/-- The text of a field is parsed as the field if the key is there and has no
separator of its own. -/
theorem parseField_fieldString_iff {f : MetaField} :
    parseField (fieldString f) = .ok f ↔ f.key ≠ [] ∧ separator ∉ f.key := by
  by_cases isEmpty : f.key = []
  · have nothing : fieldString f = [] := if_neg (not_not.mpr isEmpty)
    rw [nothing]
    exact iff_of_false (fun parsed => by cases parsed) fun proper => proper.1 isEmpty
  · have whole : fieldString f = f.key ++ separator :: f.value := if_pos isEmpty
    rw [whole, and_iff_right isEmpty]
    constructor
    · intro parsed member
      have found : separator ∈ f.key ++ separator :: f.value := List.mem_append_left _ member
      rw [parseField] at parsed
      split at parsed
      · cases parsed
      · have same : (f.key ++ separator :: f.value).takeWhile (· ≠ separator) = f.key :=
          congrArg MetaField.key (Except.ok.inj parsed)
        rw [← same] at member
        have passed := List.mem_takeWhile_imp member
        simp at passed
    · intro noSeparator
      have passes : ∀ b ∈ f.key, decide (b ≠ separator) = true :=
        fun b member => decide_eq_true fun same => noSeparator (same ▸ member)
      rw [parseField, List.dropWhile_append_of_pos passes, List.takeWhile_append_of_pos passes]
      simp

theorem metaGet_fields (proper : ∀ f ∈ fields, parseField (fieldString f) = .ok f) (key : Bytes) :
    metaGet key (fields.map fun f => .ok (fieldString f)) = .ok (lookup fields key) := by
  induction fields with
  | nil => rfl
  | cons f rest ih =>
    obtain ⟨first, others⟩ := List.forall_mem_cons.mp proper
    rw [List.map_cons, metaGet, Except.ok_bind, first, Except.ok_bind]
    by_cases isKey : f.key = key
    · have found : lookup (f :: rest) key = f.value := by simp [lookup, isKey]
      rw [if_pos isKey, found]
      rfl
    · have skipped : lookup (f :: rest) key = lookup rest key := by simp [lookup, isKey]
      rw [if_neg isKey, skipped]
      exact ih others

/-- The fields of a call that returned nil are read back exactly if each of them has a
key, and no key has a separator. -/
theorem setMeta_reads_back_iff {h h' : Heartbeat} (written : h.setMeta arena fields = (h', .ok ())) :
    ReadsBack h' fields ↔ ∀ f ∈ fields, f.key ≠ [] ∧ separator ∉ f.key := by
  have stored := setMeta_ok written
  have place : ∀ i f, fields[i]? = some f →
      (h'.metadata.bind fun list => metaAt list i) = parseField (fieldString f) := by
    intro i f isField
    rw [stored]
    change metaAt _ i = _
    rw [metaAt, List.getElem?_map, isField]
    rfl
  simp only [← parseField_fieldString_iff]
  constructor
  · intro reads f member
    obtain ⟨i, isField⟩ := List.mem_iff_getElem?.mp member
    exact (place i f isField).symm.trans (reads.places i f isField)
  · intro proper
    refine ⟨fun i f isField => ?_, fun key => ?_⟩
    · exact (place i f isField).trans (proper f (List.mem_of_getElem? isField))
    · rw [stored]
      exact metaGet_fields proper key

end Meta

/-- No call into capnp fails. -/
def roomy : Arena where
  newMeta := none
  set _ := none

theorem setMeta_reads_back_single :
    (newHeartbeat.setMeta roomy [⟨[107], [118]⟩]).2 = .ok () ∧
      ReadsBack (newHeartbeat.setMeta roomy [⟨[107], [118]⟩]).1 [⟨[107], [118]⟩] := by
  have written : newHeartbeat.setMeta roomy [⟨[107], [118]⟩] =
      ((newHeartbeat.setMeta roomy [⟨[107], [118]⟩]).1, .ok ()) := rfl
  exact ⟨rfl, (setMeta_reads_back_iff written).mpr (by decide)⟩

/-- A key `a=b` is read as `a`. A field without a key is stored as an empty text, and
no key behind it is found. -/
theorem setMeta_loses_keys :
    (newHeartbeat.setMeta roomy [⟨[97, 61, 98], [118]⟩]).2 = .ok () ∧
      ¬ ReadsBack (newHeartbeat.setMeta roomy [⟨[97, 61, 98], [118]⟩]).1 [⟨[97, 61, 98], [118]⟩] ∧
    (newHeartbeat.setMeta roomy [⟨[], [118]⟩, ⟨[107], [118]⟩]).2 = .ok () ∧
      ¬ ReadsBack (newHeartbeat.setMeta roomy [⟨[], [118]⟩, ⟨[107], [118]⟩]).1 [⟨[], [118]⟩, ⟨[107], [118]⟩] := by
  refine ⟨rfl, fun reads => ?_, rfl, fun reads => ?_⟩
  · have value := reads.keys [97, 61, 98]
    cases value
  · have value := reads.keys [107]
    cases value

end Casm.Pulse
