import Casm.Cluster.Query

namespace Casm.Query
open MultiIndex (Bytes)
open Routing

/-- A value is the one that is asked for, or starts with it. -/
def Reads (byPrefix : Bool) (asked value : Bytes) : Prop :=
  if byPrefix then asked <+: value else value = asked

/-- The bytes that a peer index stands for. -/
def peerValue (ix : Index) : Except Fault Bytes :=
  match ix.peerBytes, ix.peer with
  | some result, _ => result
  | none, some (.text result) => result
  | none, _ => .error (.error "not a peer index")

def hostValue (ix : Index) : Except Fault Bytes :=
  match ix.hostBytes, ix.host with
  | some result, _ => result
  | none, some result => result
  | none, none => .error (.error "not a host index")

def metaValue (ix : Index) : Except Fault (List (Except Fault Bytes)) :=
  match ix.metaList with
  | some result => result
  | none => .error (.error "not a meta index")

/-- The field is one of these. -/
def IsField (fields : List (Except Fault Bytes)) (f : MetaField) : Prop :=
  ∃ text ∈ fields, text.bind parseField = .ok f

/-- All the texts are fields. -/
def AllFields (fields : List (Except Fault Bytes)) : Prop :=
  ∀ text ∈ fields, ∃ f, text.bind parseField = .ok f

/-- Every field that is asked for occurs with a value that reads as asked. To ask
for nothing is to ask for a record without metadata. -/
def Occur (byPrefix : Bool) (asked own : List (Except Fault Bytes)) : Prop :=
  (asked = [] → own = []) ∧ AllFields asked ∧
    ∀ f, IsField asked f → ∃ f', IsField own f' ∧ f'.key = f.key ∧ Reads byPrefix f.value f'.value

/-- The same with the roles of the two lists exchanged, by the first value that the
other list has for a key. A key that it does not have counts as one without a value. -/
def Covered (byPrefix : Bool) (asked own : List (Except Fault Bytes)) : Prop :=
  (own = [] → asked = []) ∧ AllFields own ∧
    ∀ f, IsField own f → ∃ value, metaGet f.key asked = .ok value ∧ Reads byPrefix f.value value

/-- What an index selects in the table's terms. -/
def Selects (b58 : Bytes → Bytes) (ix : Index) (r : DeadlineRecord) : Prop :=
  if ix.name = "id" then ∃ v, peerValue ix = .ok v ∧ Reads ix.byPrefix v (b58 r.record.peer)
  else if ix.name = "host" then
    ∃ v name, hostValue ix = .ok v ∧ host r = .ok name ∧ Reads ix.byPrefix v name
  else ∃ asked own, metaValue ix = .ok asked ∧ r.record.metadata = .ok own ∧ Occur ix.byPrefix asked own

/-- The records for which it makes no difference that the matcher looks at the bytes
of a peer ID and not at its key, takes an exact host for a prefix and a prefix for
an exact host, and asks the index for the fields of the record. -/
def Indifferent (b58 : Bytes → Bytes) (ix : Index) (r : DeadlineRecord) : Prop :=
  if ix.name = "id" then
    ∀ v, peerValue ix = .ok v →
      if ix.byPrefix then
        v <+: r.record.peer ∧ v <+: b58 r.record.peer ∨ ¬ v <+: r.record.peer ∧ ¬ v <+: b58 r.record.peer
      else r.record.peer = b58 r.record.peer ∨ v ≠ r.record.peer ∧ v ≠ b58 r.record.peer
  else if ix.name = "host" then
    ∀ v, hostValue ix = .ok v → ∀ name, host r = .ok name → name = v ∨ ¬ v <+: name
  else
    ∀ asked, metaValue ix = .ok asked → ∀ own, r.record.metadata = .ok own →
      Occur ix.byPrefix asked own ∧ Covered ix.byPrefix asked own ∨
        ¬ Occur ix.byPrefix asked own ∧ ¬ Covered ix.byPrefix asked own

section Accepts

variable {ix : Index} {m : DeadlineRecord → Bool} {r : DeadlineRecord}

theorem startsWith_eq_true {s start : Bytes} : startsWith s start = true ↔ Reads true start s :=
  decide_eq_true_iff

theorem strEq_eq_true {s t : Bytes} : strEq s t = true ↔ Reads false t s :=
  decide_eq_true_iff

/-- How a matcher compares. -/
def comparison (byPrefix : Bool) : Bytes → Bytes → Bool :=
  if byPrefix then startsWith else strEq

theorem comparison_eq_true {byPrefix : Bool} {s t : Bytes} : comparison byPrefix s t = true ↔ Reads byPrefix t s := by
  cases byPrefix with
  | true => exact startsWith_eq_true
  | false => exact strEq_eq_true

/-- Two values read alike if both do or neither. -/
theorem reads_iff_reads {byPrefix : Bool} {v s t : Bytes} : (Reads byPrefix v s ↔ Reads byPrefix v t) ↔
    if byPrefix then v <+: s ∧ v <+: t ∨ ¬ v <+: s ∧ ¬ v <+: t else s = t ∨ v ≠ s ∧ v ≠ t := by
  cases byPrefix with
  | true => exact iff_iff_and_or_not_and_not
  | false =>
    show (s = v ↔ t = v) ↔ s = t ∨ v ≠ s ∧ v ≠ t
    constructor
    · intro same
      by_cases isFirst : s = v
      · exact .inl (isFirst.trans (same.mp isFirst).symm)
      · exact .inr ⟨Ne.symm isFirst, fun isSecond => isFirst (same.mpr isSecond.symm)⟩
    · rintro (rfl | ⟨notFirst, notSecond⟩)
      · exact Iff.rfl
      · exact iff_of_false notFirst.symm notSecond.symm

/-- A name for which it does not matter which of the two readings is meant. -/
theorem reads_not_iff_reads {byPrefix : Bool} {v name : Bytes} :
    (Reads (!byPrefix) v name ↔ Reads byPrefix v name) ↔ name = v ∨ ¬ v <+: name := by
  have front : name = v → v <+: name := fun same => same ▸ List.prefix_rfl
  have either : (name = v ↔ v <+: name) ↔ name = v ∨ ¬ v <+: name := by tauto
  cases byPrefix with
  | true => exact either
  | false => exact Iff.comm.trans either

/-- What the three matchers do with a value that may be missing. -/
theorem ite_eq_map {α β : Type} (byPrefix : Bool) (x : Except Fault α) (f g : α → β) :
    (x >>= fun a => if byPrefix = true then pure (f a) else pure (g a)) =
      x.map fun a => if byPrefix = true then f a else g a := by
  cases x with
  | error fault => rfl
  | ok a =>
    cases byPrefix with
    | true => rfl
    | false => rfl

theorem matchPeer_eq (ix : Index) : matchPeer ix =
    (peerValue ix).map fun v => if ix.byPrefix = true then fun r => startsWith r.record.peer v
      else fun r => strEq r.record.peer v := by
  rw [← ite_eq_map]
  unfold matchPeer peerValue
  cases ix.peerBytes with
  | some result => rfl
  | none =>
    cases ix.peer with
    | none => rfl
    | some method =>
      cases method with
      | text result => rfl
      | id peer => rfl

theorem matchHost_eq (ix : Index) : matchHost ix =
    (hostValue ix).map fun v => if ix.byPrefix = true then fun r => matchStr strEq (host r) v
      else fun r => matchStr startsWith (host r) v := by
  rw [← ite_eq_map]
  unfold matchHost hostValue
  cases ix.hostBytes with
  | some result => rfl
  | none =>
    cases ix.host with
    | none => rfl
    | some result => rfl

theorem matchMeta_eq (ix : Index) : matchMeta ix =
    (metaValue ix).map fun fields => if ix.byPrefix = true then fun r => metaEq startsWith r fields
      else fun r => metaEq strEq r fields := by
  rw [← ite_eq_map]
  unfold matchMeta metaValue
  cases ix.metaList with
  | some result => rfl
  | none => rfl

theorem matchPeer_accepts (succeeds : matchPeer ix = .ok m) :
    ∃ v, peerValue ix = .ok v ∧ ∀ r, m r = true ↔ Reads ix.byPrefix v r.record.peer := by
  rw [matchPeer_eq] at succeeds
  obtain ⟨v, isValue, rfl⟩ := Except.map_eq_ok.mp succeeds
  refine ⟨v, isValue, fun r => ?_⟩
  cases ix.byPrefix with
  | true => exact startsWith_eq_true
  | false => exact strEq_eq_true

theorem matchStr_eq_true {compare : Bytes → Bytes → Bool} {s : Except Fault Bytes} {target : Bytes} :
    matchStr compare s target = true ↔ ∃ name, s = .ok name ∧ compare name target = true := by
  cases s with
  | error fault => simp [matchStr]
  | ok name => simp [matchStr]

/-- The two comparisons are exchanged. -/
theorem matchHost_accepts (succeeds : matchHost ix = .ok m) :
    ∃ v, hostValue ix = .ok v ∧ ∀ r, m r = true ↔ ∃ name, host r = .ok name ∧ Reads (!ix.byPrefix) v name := by
  rw [matchHost_eq] at succeeds
  obtain ⟨v, isValue, rfl⟩ := Except.map_eq_ok.mp succeeds
  refine ⟨v, isValue, fun r => ?_⟩
  have accepts (byPrefix : Bool) : (if byPrefix = true then fun r => matchStr strEq (host r) v
      else fun r => matchStr startsWith (host r) v) r = matchStr (comparison !byPrefix) (host r) v := by
    cases byPrefix with
    | true => rfl
    | false => rfl
  simp only [accepts, matchStr_eq_true, comparison_eq_true]

/-- One field of the record, as the loop of `metaEq` looks at it. -/
def matchField (matching : Bytes → Bytes → Bool) (asked : List (Except Fault Bytes)) (text : Except Fault Bytes) :
    Bool :=
  match text.bind parseField with
  | .error _ => false
  | .ok f =>
    match metaGet f.key asked with
    | .error _ => false
    | .ok value => matching value f.value

theorem matchField_eq_true {byPrefix : Bool} {asked : List (Except Fault Bytes)} {text : Except Fault Bytes} :
    matchField (comparison byPrefix) asked text = true ↔
      ∃ f, text.bind parseField = .ok f ∧ ∃ value, metaGet f.key asked = .ok value ∧ Reads byPrefix f.value value := by
  unfold matchField
  cases text.bind parseField with
  | error fault => simp
  | ok f =>
    simp only [Except.ok.injEq, exists_eq_left']
    cases metaGet f.key asked with
    | error fault => simp
    | ok value => simp [comparison_eq_true]

theorem metaEq_eq_all {matching : Bytes → Bytes → Bool} {asked own : List (Except Fault Bytes)}
    (metadata : r.record.metadata = .ok own) (nonempty : own ≠ []) :
    metaEq matching r asked = own.all (matchField matching asked) := by
  unfold metaEq
  rw [metadata]
  cases own with
  | nil => exact absurd rfl nonempty
  | cons first rest => rfl

theorem metaEq_nil {matching : Bytes → Bytes → Bool} {asked : List (Except Fault Bytes)}
    (metadata : r.record.metadata = .ok []) : metaEq matching r asked = asked.isEmpty := by
  unfold metaEq
  rw [metadata]

theorem metaEq_error {matching : Bytes → Bytes → Bool} {asked : List (Except Fault Bytes)} {fault : Fault}
    (metadata : r.record.metadata = .error fault) : metaEq matching r asked = false := by
  unfold metaEq
  rw [metadata]

theorem metaEq_eq_true {byPrefix : Bool} {asked : List (Except Fault Bytes)} :
    metaEq (comparison byPrefix) r asked = true ↔
      ∃ own, r.record.metadata = .ok own ∧ Covered byPrefix asked own := by
  cases metadata : r.record.metadata with
  | error fault => simp [metaEq_error metadata]
  | ok own =>
    simp only [Except.ok.injEq, exists_eq_left']
    by_cases empty : own = []
    · subst empty
      simp [metaEq_nil metadata, Covered, AllFields, IsField]
    · rw [metaEq_eq_all metadata empty, List.all_eq_true]
      simp only [matchField_eq_true]
      constructor
      · intro each
        refine ⟨fun isEmpty => absurd isEmpty empty, fun text member => ?_, ?_⟩
        · obtain ⟨f, isField, _⟩ := each text member
          exact ⟨f, isField⟩
        · rintro f ⟨text, member, isField⟩
          obtain ⟨f', isField', given⟩ := each text member
          cases isField.symm.trans isField'
          exact given
      · rintro ⟨-, parsed, covered⟩ text member
        obtain ⟨f, isField⟩ := parsed text member
        exact ⟨f, isField, covered f ⟨text, member, isField⟩⟩

theorem matchMeta_accepts (succeeds : matchMeta ix = .ok m) :
    ∃ asked, metaValue ix = .ok asked ∧
      ∀ r, m r = true ↔ ∃ own, r.record.metadata = .ok own ∧ Covered ix.byPrefix asked own := by
  rw [matchMeta_eq] at succeeds
  obtain ⟨asked, isValue, rfl⟩ := Except.map_eq_ok.mp succeeds
  refine ⟨asked, isValue, fun r => ?_⟩
  rw [← metaEq_eq_true]
  cases ix.byPrefix with
  | true => rfl
  | false => rfl

/-- The names that `matchIndex` knows. -/
theorem matchIndex_cases (succeeds : matchIndex ix = .ok m) :
    ix.name = "id" ∧ matchPeer ix = .ok m ∨ ix.name = "host" ∧ matchHost ix = .ok m ∨
      ix.name = "meta" ∧ matchMeta ix = .ok m := by
  unfold matchIndex at succeeds
  split at succeeds
  · rename_i isId
    exact .inl ⟨isId, succeeds⟩
  · rename_i isHost
    exact .inr (.inl ⟨isHost, succeeds⟩)
  · rename_i isMeta
    exact .inr (.inr ⟨isMeta, succeeds⟩)
  · cases succeeds

end Accepts

/-- The matcher of an index accepts what the index selects exactly for the records
to which its differences are indifferent. -/
theorem matcher_agrees_iff (b58 : Bytes → Bytes) (ix : Index) (m : DeadlineRecord → Bool)
    (succeeds : matchIndex ix = .ok m) (r : DeadlineRecord) :
    (m r = true ↔ Selects b58 ix r) ↔ Indifferent b58 ix r := by
  rw [Selects, Indifferent]
  rcases matchIndex_cases succeeds with ⟨isId, peer⟩ | ⟨isHost, hostMatcher⟩ | ⟨isMeta, metadata⟩
  · obtain ⟨v, isValue, accepts⟩ := matchPeer_accepts peer
    rw [if_pos isId, if_pos isId, accepts r, isValue]
    simp only [Except.ok.injEq, exists_eq_left', forall_eq']
    exact reads_iff_reads
  · have notId : ix.name ≠ "id" := by
      rw [isHost]
      decide
    obtain ⟨v, isValue, accepts⟩ := matchHost_accepts hostMatcher
    rw [if_neg notId, if_neg notId, if_pos isHost, if_pos isHost, accepts r, isValue]
    cases host r with
    | error fault => simp
    | ok name =>
      simp only [Except.ok.injEq, exists_and_left, exists_eq_left', forall_eq']
      exact reads_not_iff_reads
  · have notId : ix.name ≠ "id" := by
      rw [isMeta]
      decide
    have notHost : ix.name ≠ "host" := by
      rw [isMeta]
      decide
    obtain ⟨asked, isValue, accepts⟩ := matchMeta_accepts metadata
    rw [if_neg notId, if_neg notId, if_neg notHost, if_neg notHost, accepts r, isValue]
    cases r.record.metadata with
    | error fault => simp
    | ok own =>
      simp only [Except.ok.injEq, exists_and_left, exists_eq_left', forall_eq']
      exact Iff.comm.trans iff_iff_and_or_not_and_not

/-- The matcher that an index of a host makes. -/
def hostMatcher (name : Bytes) (r : DeadlineRecord) : Bool :=
  matchStr startsWith (host r) name

theorem matcher_agrees_iff_host :
    matchIndex (hostIndex [97] false) = .ok (hostMatcher [97]) ∧
      (hostMatcher [97] ⟨plainRecord 1 1 [98] [], 0⟩ = true ↔
        Selects id (hostIndex [97] false) ⟨plainRecord 1 1 [98] [], 0⟩) := by
  have succeeds : matchIndex (hostIndex [97] false) = .ok (hostMatcher [97]) := rfl
  refine ⟨succeeds, (matcher_agrees_iff id _ _ succeeds _).mpr ?_⟩
  intro v isValue name isName
  cases isValue
  cases isName
  exact .inr (by decide)

/-- An index for one key of the id column. -/
def peerKeyIndex (key : Bytes) : Index :=
  { allIndex with byPrefix := false, peerBytes := some (.ok key) }

/-- An index for metadata fields. -/
def metaIndex (fields : List Bytes) : Index :=
  { allIndex with
    name := "meta", byPrefix := false, peerBytes := none, metaList := some (.ok (fields.map .ok)),
    record_methods := fun isRecord => by cases isRecord }

/-- The base58 form of the peer ID is not found, a longer host name is, and a record
with one field more than the index asks for is not. -/
theorem matcher_disagrees :
    (∀ b58 : Bytes → Bytes, b58 [97] = [50, 103] →
      ∃ m, matchIndex (peerKeyIndex [50, 103]) = .ok m ∧ m ⟨plainRecord 97 1 [] [], 0⟩ = false ∧
        Selects b58 (peerKeyIndex [50, 103]) ⟨plainRecord 97 1 [] [], 0⟩) ∧
    (∃ m, matchIndex (hostIndex [97] false) = .ok m ∧ m ⟨plainRecord 1 1 [97, 98] [], 0⟩ = true ∧
      ¬ Selects id (hostIndex [97] false) ⟨plainRecord 1 1 [97, 98] [], 0⟩) ∧
    ∃ m, matchIndex (metaIndex [[97, 61, 98]]) = .ok m ∧
      m ⟨plainRecord 1 1 [] [[97, 61, 98], [99, 61, 100]], 0⟩ = false ∧
      Selects id (metaIndex [[97, 61, 98]]) ⟨plainRecord 1 1 [] [[97, 61, 98], [99, 61, 100]], 0⟩ := by
  refine ⟨fun b58 isKey => ⟨_, rfl, rfl, [50, 103], rfl, isKey⟩, ⟨_, rfl, rfl, ?_⟩, ⟨_, rfl, rfl, ?_⟩⟩
  · rintro ⟨v, name, isValue, isName, same⟩
    cases isValue
    cases isName
    cases same
  · refine ⟨_, _, rfl, rfl, fun empty => ?_, fun text member => ?_, ?_⟩
    · cases empty
    · rw [List.mem_singleton.mp member]
      exact ⟨_, rfl⟩
    · rintro f ⟨text, member, isField⟩
      rw [List.mem_singleton.mp member] at isField
      cases isField
      exact ⟨_, ⟨_, List.mem_cons_self, rfl⟩, rfl, rfl⟩

end Casm.Query
