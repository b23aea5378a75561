import Casm.Lib.Fault
import Casm.Lib.Machine
import Casm.Lib.Memo

namespace Casm.Socket

/-- A record, by what its methods return. It may bring its own hash. -/
structure Record where
  domain : List UInt8
  codec : List UInt8
  marshalRecord : Except String (List UInt8)
  hash : Option (Except String UInt64)

/-- The record can be put into an envelope. -/
def Record.Sealable (r : Record) : Prop :=
  r.domain ≠ [] ∧ r.codec ≠ [] ∧ ∃ payload, r.marshalRecord = .ok payload

/-- What a signature covers. -/
def Record.covered (r : Record) : List UInt8 × List UInt8 × Except String (List UInt8) :=
  (r.domain, r.codec, r.marshalRecord)

/-- Signed envelopes. `consume` is `record.ConsumeEnvelope` up to the decoding of the
payload: with the domain that a receiver expects it returns the type and the bytes of the
payload. Everything can be signed, and is found again in its domain and in no other. -/
structure Envelopes where
  Envelope : Type
  consume : Envelope → List UInt8 → Except String (List UInt8 × List UInt8)
  sealed : List UInt8 → List UInt8 → List UInt8 → Envelope
  consume_sealed : ∀ domain codec payload domain' content,
    consume (sealed domain codec payload) domain' = .ok content ↔ domain' = domain ∧ content = (codec, payload)

namespace Envelopes

variable (W : Envelopes)

/-- A receiver who expects the record can consume the envelope. -/
def Holds (e : W.Envelope) (r : Record) : Prop :=
  ∃ payload, r.marshalRecord = .ok payload ∧ W.consume e r.domain = .ok (r.codec, payload)

/-- The signature of the envelope covers the domain, the codec and the payload of the record. -/
def Signed (e : W.Envelope) (r : Record) : Prop :=
  ∃ payload, r.marshalRecord = .ok payload ∧
    ∀ domain content, W.consume e domain = .ok content ↔ domain = r.domain ∧ content = (r.codec, payload)

end Envelopes

/-- `record.Seal` with a private key. It refuses a record without a domain, a codec or a
payload, and signs all three of any other. -/
structure Signer (W : Envelopes) where
  seals : Record → Except String W.Envelope
  sound : ∀ {r e}, seals r = .ok e → r.Sealable ∧ W.Signed e r

/-- What a call finds: a cache that still has the entry or not, a key that signs or
not, and an envelope that can be encoded or not. -/
structure Setting (W : Envelopes) where
  hit : Bool
  signer : Signer W
  marshal : Option String

def attempt (failure : Option String) : Except String Unit :=
  match failure with
  | some msg => .error msg
  | none => .ok ()

/-- For each key, the last envelope that was added since the last purge. -/
abbrev CachingSealer (W : Envelopes) : Type :=
  UInt64 → Option W.Envelope

variable {W : Envelopes}

namespace CachingSealer

def new : CachingSealer W :=
  fun _ => none

variable (sum64 : List UInt8 → UInt64) (env : Setting W)

def deriveKey (r : Record) : Except String UInt64 :=
  match r.hash with
  | some h => h
  | none => r.marshalRecord.map sum64

/-- The cache may have evicted the entry. -/
def get (c : CachingSealer W) (key : UInt64) : Option W.Envelope :=
  if env.hit then c key else none

/-- The part of `Seal` that comes after a miss. -/
def store (key : UInt64) (r : Record) (c : CachingSealer W) : Except String W.Envelope × CachingSealer W :=
  match env.signer.seals r with
  | .error msg => (.error msg, c)
  | .ok e =>
    match attempt env.marshal with
    | .error msg => (.error msg, c)
    | .ok _ => (.ok e, Function.update c key (some e))

def sealRecord (r : Record) (c : CachingSealer W) : Except String W.Envelope × CachingSealer W :=
  match deriveKey sum64 r with
  | .error msg => (.error msg, c)
  | .ok key =>
    match c.get env key with
    | some e => (.ok e, c)
    | none => c.store env key r

def purge (_ : CachingSealer W) : CachingSealer W :=
  new

end CachingSealer

open CachingSealer

inductive Call where
  | sealing (r : Record)
  | purge

variable (sum64 : List UInt8 → UInt64)

def Call.apply (c : CachingSealer W) (call : Call) (env : Setting W) : CachingSealer W :=
  match call with
  | .sealing r => (c.sealRecord sum64 env r).2
  | .purge => c.purge

/-- The cache after some calls, each with what it finds. -/
def cacheAfter (calls : List (Call × Setting W)) : CachingSealer W :=
  calls.foldl (fun c call => call.1.apply sum64 c call.2) new

/-- A successful call returns an envelope of its record, and a record that cannot be
marshaled makes the call fail and leaves the cache as it is. -/
def Faithful (c : CachingSealer W) (env : Setting W) (r : Record) : Prop :=
  (∀ e, (c.sealRecord sum64 env r).1 = .ok e → W.Holds e r) ∧
    ∀ msg, r.marshalRecord = .error msg → ∃ msg', c.sealRecord sum64 env r = (.error msg', c)

def SealsFaithfully (calls : List (Call × Setting W)) : Prop :=
  ∀ before r env later, calls = before ++ (.sealing r, env) :: later →
    Faithful sum64 (cacheAfter sum64 before) env r

/-- Between two purges, a record that comes after a sealable one with the same key
agrees with it in all that a signature covers. -/
def KeysDetermine (calls : List Call) : Prop :=
  ∀ before r middle r' later, calls = before ++ .sealing r :: (middle ++ .sealing r' :: later) →
    Call.purge ∉ middle → r.Sealable →
      ∀ key, deriveKey sum64 r = .ok key → deriveKey sum64 r' = .ok key → r'.covered = r.covered

variable {sum64} {env : Setting W} {c : CachingSealer W} {r r' : Record} {e : W.Envelope} {key : UInt64}

/-- An envelope of one record serves for another that agrees in what is signed. -/
theorem holds_iff_covered (signed : W.Signed e r) : W.Holds e r' ↔ r'.covered = r.covered := by
  obtain ⟨payload, marshaled, covers⟩ := signed
  rw [Record.covered, Record.covered, Prod.mk.injEq, Prod.mk.injEq, Envelopes.Holds, marshaled]
  constructor
  · rintro ⟨payload', marshaled', consumed⟩
    obtain ⟨domain, content⟩ := (covers ..).mp consumed
    obtain ⟨codec, same⟩ := Prod.mk.inj content
    exact ⟨domain, codec, same ▸ marshaled'⟩
  · rintro ⟨domain, codec, marshaled'⟩
    exact ⟨payload, marshaled', (covers ..).mpr ⟨domain, by rw [codec]⟩⟩

variable (W) in
/-- A key that signs whatever can be signed. -/
def Envelopes.signer : Signer W where
  seals r :=
    if r.domain = [] then .error "envelope domain must not be empty"
    else if r.codec = [] then .error "payloadType must not be empty"
    else r.marshalRecord.map (W.sealed r.domain r.codec)
  sound {r e} made := by
    split at made
    · cases made
    next domain =>
      split at made
      · cases made
      next codec =>
        obtain ⟨payload, marshaled, rfl⟩ := Except.map_eq_ok.mp made
        exact ⟨⟨domain, codec, payload, marshaled⟩, payload, marshaled, W.consume_sealed r.domain r.codec payload⟩

theorem seals_of_sealable (sealable : r.Sealable) : ∃ e, W.signer.seals r = .ok e := by
  obtain ⟨domain, codec, payload, marshaled⟩ := sealable
  refine ⟨W.sealed r.domain r.codec payload, ?_⟩
  simp only [Envelopes.signer, if_neg domain, if_neg codec, marshaled]
  rfl

theorem sealRecord_hit (derived : deriveKey sum64 r = .ok key) (found : CachingSealer.get env c key = some e) :
    c.sealRecord sum64 env r = (.ok e, c) := by
  rw [CachingSealer.sealRecord, derived]
  simp only [found]

theorem sealRecord_miss (derived : deriveKey sum64 r = .ok key) (missing : CachingSealer.get env c key = none) :
    c.sealRecord sum64 env r = c.store env key r := by
  rw [CachingSealer.sealRecord, derived]
  simp only [missing]

theorem store_cases (env : Setting W) (key : UInt64) (r : Record) (c : CachingSealer W) :
    (∃ msg, c.store env key r = (.error msg, c)) ∨
      ∃ e, env.signer.seals r = .ok e ∧ c.store env key r = (.ok e, Function.update c key (some e)) := by
  rw [CachingSealer.store]
  cases env.signer.seals r with
  | error msg => exact .inl ⟨msg, rfl⟩
  | ok e =>
    cases attempt env.marshal with
    | error msg => exact .inl ⟨msg, rfl⟩
    | ok _ => exact .inr ⟨e, rfl, rfl⟩

/-- What a call can do: fail, return what the cache has, or add what it makes. -/
theorem sealRecord_spec (sum64 : List UInt8 → UInt64) (env : Setting W) (c : CachingSealer W) (r : Record) :
    (∃ msg, c.sealRecord sum64 env r = (.error msg, c)) ∨
      ∃ key, deriveKey sum64 r = .ok key ∧
        ((∃ e, c key = some e ∧ c.sealRecord sum64 env r = (.ok e, c)) ∨
          ∃ e, env.signer.seals r = .ok e ∧ c.sealRecord sum64 env r = (.ok e, Function.update c key (some e))) := by
  cases derived : deriveKey sum64 r with
  | error msg => exact .inl ⟨msg, by rw [CachingSealer.sealRecord, derived]⟩
  | ok key =>
    cases found : CachingSealer.get env c key with
    | some e =>
      have known : c key = some e := by
        rw [CachingSealer.get] at found
        split at found
        · exact found
        · cases found
      exact .inr ⟨key, rfl, .inl ⟨e, known, sealRecord_hit derived found⟩⟩
    | none =>
      rw [sealRecord_miss derived found]
      rcases store_cases env key r c with failed | stored
      · exact .inl failed
      · exact .inr ⟨key, rfl, .inr stored⟩

/-- A call is faithful if what it may find under its key is. -/
theorem faithful_of_holds (found : ∀ key e, deriveKey sum64 r = .ok key → c key = some e → W.Holds e r) :
    Faithful sum64 c env r := by
  rcases sealRecord_spec sum64 env c r with ⟨msg, result⟩ | ⟨key, derived, ⟨e, known, result⟩ | ⟨e, made, result⟩⟩
  · rw [Faithful, result]
    refine ⟨fun e returned => ?_, fun _ _ => ⟨msg, rfl⟩⟩
    cases returned
  · have holds := found key e derived known
    rw [Faithful, result]
    refine ⟨fun e' returned => Except.ok.inj returned ▸ holds, fun msg failed => ?_⟩
    obtain ⟨payload, marshaled, -⟩ := holds
    cases failed.symm.trans marshaled
  · have holds := (holds_iff_covered (env.signer.sound made).2).mpr rfl
    rw [Faithful, result]
    refine ⟨fun e' returned => Except.ok.inj returned ▸ holds, fun msg failed => ?_⟩
    obtain ⟨payload, marshaled, -⟩ := holds
    cases failed.symm.trans marshaled

variable (W) in
/-- A call that finds what the cache has, and cannot add to it. -/
def idle : Setting W where
  hit := true
  signer := ⟨fun _ => .error "sign failed", by rintro _ _ ⟨⟩⟩
  marshal := none

variable (W) in
/-- A call that finds nothing, and has what it needs. -/
def evicted : Setting W where
  hit := false
  signer := W.signer
  marshal := none

theorem sealRecord_idle (sum64 : List UInt8 → UInt64) (c : CachingSealer W) (r : Record) :
    (c.sealRecord sum64 (idle W) r).2 = c := by
  rcases sealRecord_spec sum64 (idle W) c r with
    ⟨msg, result⟩ | ⟨key, derived, ⟨e, known, result⟩ | ⟨e, made, result⟩⟩
  · rw [result]
  · rw [result]
  · cases made

theorem sealRecord_evicted (sealable : r.Sealable) (derived : deriveKey sum64 r = .ok key) :
    ∃ e, W.signer.seals r = .ok e ∧ (c.sealRecord sum64 (evicted W) r).2 key = some e := by
  obtain ⟨e, made⟩ := @seals_of_sealable W r sealable
  have missing : c.get (evicted W) key = none := rfl
  refine ⟨e, made, ?_⟩
  have stored : c.store (evicted W) key r = (.ok e, Function.update c key (some e)) := by
    simp only [CachingSealer.store, evicted, made, attempt]
  rw [sealRecord_miss derived missing, stored]
  exact Function.update_self ..

variable (W sum64) in
/-- The sealer as a table of envelopes. -/
def memo : Memo Call (Setting W) UInt64 W.Envelope where
  step c call env := call.apply sum64 c env
  clears call := call = .purge
  makes call key e := ∃ (r : Record) (signer : Signer W), call = .sealing r ∧ deriveKey sum64 r = .ok key ∧
    signer.seals r = .ok e
  fits call key e := ∀ r, call = .sealing r → deriveKey sum64 r = .ok key → W.Holds e r
  right c call env := ∀ r, call = .sealing r → Faithful sum64 c env r
  entry := by
    intro c call env key e entry
    cases call with
    | purge => cases entry
    | sealing r =>
      simp only [Call.apply] at entry
      rcases sealRecord_spec sum64 env c r with
        ⟨msg, result⟩ | ⟨key', derived, ⟨e', known, result⟩ | ⟨e', made, result⟩⟩
      · rw [result] at entry
        exact .inl ⟨entry, Call.noConfusion⟩
      · rw [result] at entry
        exact .inl ⟨entry, Call.noConfusion⟩
      · rw [result] at entry
        rcases Function.update_cases entry with ⟨isKey, same⟩ | ⟨-, old⟩
        · cases same
          exact .inr ⟨r, env.signer, rfl, isKey ▸ derived, made⟩
        · exact .inl ⟨old, Call.noConfusion⟩
  right_of_fits found r isCall := faithful_of_holds fun key e derived known => found key e known r isCall derived
  idle := idle W
  step_idle := by
    intro c call kept
    cases call with
    | purge => exact absurd rfl kept
    | sealing r => exact sealRecord_idle sum64 c r
  fits_of_right := by
    intro c call key e right known r isCall derived
    have found : CachingSealer.get (idle W) c key = some e := known
    exact (right r isCall).1 e (congrArg Prod.fst (sealRecord_hit derived found))
  working := evicted W
  step_working := by
    rintro c _ key e ⟨r, signer, rfl, derived, made⟩
    obtain ⟨sealable, signed⟩ := signer.sound made
    obtain ⟨e', made', stored⟩ := @sealRecord_evicted W sum64 c r key sealable derived
    refine ⟨e', stored, fun later fits r' isCall derived' => ?_⟩
    rw [holds_iff_covered signed, ← holds_iff_covered (W.signer.sound made').2]
    exact fits r' isCall derived'

theorem memo_right_iff {run : List (Call × Setting W)} : (memo W sum64).Right run ↔ SealsFaithfully sum64 run := by
  constructor
  · intro right before r env later whole
    exact right before (.sealing r) env later whole r rfl
  · rintro faithful before _ env later whole r rfl
    exact faithful before r env later whole

theorem memo_consistent_iff {calls : List Call} : (memo W sum64).Consistent calls ↔ KeysDetermine sum64 calls := by
  constructor
  · intro consistent before r middle r' later whole kept sealable key derived derived'
    obtain ⟨e, made⟩ := @seals_of_sealable W r sealable
    refine (holds_iff_covered (W.signer.sound made).2).mp ?_
    refine consistent before _ middle _ later whole ?_ key e ⟨r, W.signer, rfl, derived, made⟩ r' rfl derived'
    rintro _ member rfl
    exact kept member
  · rintro determine before _ middle _ later whole kept key e ⟨r, signer, rfl, derived, made⟩ r' rfl derived'
    obtain ⟨sealable, signed⟩ := signer.sound made
    refine (holds_iff_covered signed).mpr ?_
    exact determine before r middle r' later whole (fun member => kept _ member rfl) sealable key derived derived'

variable (W) in
/-- A call that finds what the cache has. -/
def hitting : Setting W :=
  { evicted W with hit := true }

variable (W sum64) in
/-- A sealer seals what it is given in a series of calls, whatever the cache evicts
and whichever calls fail, exactly if a key determines all that a signature covers. -/
theorem sealer_faithful_iff (calls : List Call) :
    (∀ run : List (Call × Setting W), run.map Prod.fst = calls → SealsFaithfully sum64 run) ↔
      KeysDetermine sum64 calls := by
  rw [← @memo_consistent_iff W, ← Memo.right_iff_consistent]
  exact forall₂_congr fun _ _ => memo_right_iff.symm

/-- Envelopes that show what they are signed for. -/
structure PlainEnvelope where
  signedDomain : List UInt8
  payloadType : List UInt8
  rawPayload : List UInt8
  deriving DecidableEq

def PlainEnvelope.consume (e : PlainEnvelope) (domain : List UInt8) : Except String (List UInt8 × List UInt8) :=
  if domain = e.signedDomain then .ok (e.payloadType, e.rawPayload)
  else .error "invalid signature or incorrect domain"

def plainEnvelopes : Envelopes where
  Envelope := PlainEnvelope
  consume := PlainEnvelope.consume
  sealed domain codec payload := ⟨domain, codec, payload⟩
  consume_sealed domain codec payload domain' content := by
    rw [PlainEnvelope.consume]
    split
    next same => simp [same, eq_comm]
    next other => simp [other]

/-- Two records with the same payload in different domains. -/
def greeting (domain : UInt8) : Record where
  domain := [domain]
  codec := [3, 1]
  marshalRecord := .ok [104, 105]
  hash := none

/-- The second record gets the envelope of the first, which no one can consume in
the domain of the second. -/
theorem sealer_mixes_domains :
    (∀ sum64 : List UInt8 → UInt64,
      ¬ SealsFaithfully sum64
        [(.sealing (greeting 1), evicted plainEnvelopes), (.sealing (greeting 2), hitting plainEnvelopes)]) ∧
    ∀ sum64 : List UInt8 → UInt64, ∃ e : PlainEnvelope,
      (CachingSealer.sealRecord sum64 (hitting _) (greeting 2)
        (cacheAfter sum64 [(.sealing (greeting 1), evicted plainEnvelopes)])).1 = .ok e ∧
      e.consume [2] = .error "invalid signature or incorrect domain" := by
  have returned (sum64 : List UInt8 → UInt64) : (CachingSealer.sealRecord sum64 (hitting _) (greeting 2)
      (cacheAfter sum64 [(.sealing (greeting 1), evicted plainEnvelopes)])).1 =
        .ok (⟨[1], [3, 1], [104, 105]⟩ : PlainEnvelope) := by
    have found : CachingSealer.get (hitting _) (cacheAfter sum64 [(.sealing (greeting 1), evicted plainEnvelopes)])
        (sum64 [104, 105]) = some (⟨[1], [3, 1], [104, 105]⟩ : PlainEnvelope) := Function.update_self ..
    have derived : deriveKey sum64 (greeting 2) = .ok (sum64 [104, 105]) := rfl
    rw [sealRecord_hit derived found]
  refine ⟨fun sum64 faithful => ?_, fun sum64 => ⟨_, returned sum64, rfl⟩⟩
  obtain ⟨payload, -, consumed⟩ := (faithful [_] _ _ [] rfl).1 _ (returned sum64)
  cases consumed

end Casm.Socket
