import Casm.Lib.Fault
import Casm.Lib.Path

namespace Casm.Pex

abbrev PeerID := List UInt8

/-- The signed content of an envelope. -/
structure PeerRecord where
  peerID : PeerID
  seq : UInt64
  addrs : List (List UInt8)
  deriving DecidableEq

/-- What the node knows about peer identities: how an envelope is opened, which
key a peer ID stands for, and how an ID is written. The text of an ID
determines it, and for the ID of a key it is a non-empty word in an alphabet
without slashes and dots. -/
structure Identities where
  PublicKey : Type
  consumeTypedEnvelope : List UInt8 → Except String (PeerRecord × PublicKey)
  matchesPublicKey : PeerID → PublicKey → Bool
  text : PeerID → List UInt8
  shortString : PeerID → String
  text_injective : Function.Injective text
  text_plain : ∀ id pk, matchesPublicKey id pk = true →
    text id ≠ [] ∧ ∀ byte ∈ text id, byte ≠ GoPath.slash ∧ byte ≠ GoPath.dot

/-- The message that is sent and stored: a hop counter next to an envelope. -/
structure Gossip where
  hop : UInt64
  envelope : List UInt8
  deriving DecidableEq

/-- A message with the peer record it carries, signed by the peer itself. -/
structure GossipRecord (W : Identities) where
  message : Gossip
  peerRecord : PeerRecord
  selfSigned : ∃ pk, W.consumeTypedEnvelope message.envelope = .ok (peerRecord, pk) ∧
    W.matchesPublicKey peerRecord.peerID pk = true
  deriving DecidableEq

abbrev View (W : Identities) := List (GossipRecord W)

/-- `ValidationError.Error`. -/
def validationError (message : String) (cause : Option String) : Fault :=
  match cause with
  | some cause => .error (message ++ ": " ++ cause)
  | none => .error message

variable {W : Identities}

namespace GossipRecord

def peerID (r : GossipRecord W) : PeerID :=
  r.peerRecord.peerID

def seq (r : GossipRecord W) : UInt64 :=
  r.peerRecord.seq

def hop (r : GossipRecord W) : UInt64 :=
  r.message.hop

/-- `ds.NewKey` of the text of the peer ID. -/
def key (r : GossipRecord W) : List GoPath.Segment :=
  GoPath.rooted (W.text r.peerID)

/-- The hop counter is outside the envelope, and wraps. -/
def incrHop (r : GossipRecord W) : GossipRecord W where
  message := { r.message with hop := r.message.hop + 1 }
  peerRecord := r.peerRecord
  selfSigned := r.selfSigned

@[simp] theorem incrHop_peerID (r : GossipRecord W) : r.incrHop.peerID = r.peerID :=
  rfl

@[simp] theorem incrHop_hop (r : GossipRecord W) : r.incrHop.hop = r.hop + 1 :=
  rfl

theorem key_eq (r : GossipRecord W) : r.key = [W.text r.peerID] := by
  obtain ⟨pk, _, own⟩ := r.selfSigned
  obtain ⟨nonempty, plain⟩ := W.text_plain _ _ own
  exact GoPath.rooted_of_name (.of_plain nonempty plain)

theorem key_inj {r r' : GossipRecord W} : r.key = r'.key ↔ r.peerID = r'.peerID := by
  rw [key_eq, key_eq, List.singleton_inj]
  exact W.text_injective.eq_iff

theorem message_injective {r r' : GossipRecord W} (same : r.message = r'.message) : r = r' := by
  obtain ⟨message, record, signed⟩ := r
  obtain ⟨message', record', signed'⟩ := r'
  obtain ⟨pk, consumed, _⟩ := signed
  obtain ⟨pk', consumed', _⟩ := signed'
  simp only at same
  subst same
  have equal := Except.ok.inj (consumed.symm.trans consumed')
  simp only [Prod.mk.injEq] at equal
  simp only [equal.1]

end GossipRecord

/-- `ReadMessage`: open the envelope, and accept it if the peer signed it itself. -/
def readMessage (W : Identities) (g : Gossip) : Except Fault (GossipRecord W) :=
  match consumed : W.consumeTypedEnvelope g.envelope with
  | .error msg => .error (.error msg)
  | .ok (record, pk) =>
    if own : W.matchesPublicKey record.peerID pk = true then .ok ⟨g, record, pk, consumed, own⟩
    else .error (validationError ""
      (some "invalid signature: peer id does not match public key for record"))

theorem readMessage_message (r : GossipRecord W) : readMessage W r.message = .ok r := by
  obtain ⟨pk, consumed, own⟩ := r.selfSigned
  unfold readMessage
  split
  · rename_i failed
    rw [consumed] at failed
    cases failed
  · rename_i record' pk' consumed'
    have equal := Except.ok.inj (consumed'.symm.trans consumed)
    simp only [Prod.mk.injEq] at equal
    obtain ⟨sameRecord, samePk⟩ := equal
    subst sameRecord samePk
    rw [dif_pos own]

namespace View

def find (v : View W) (id : PeerID) : Option (GossipRecord W) :=
  List.find? (fun have' => id = have'.peerID) v

/-- The records of `v` whose peer is not in `other`. -/
def diff (v other : View W) : View W :=
  v.filter fun g => (other.find g.peerID).isNone

def incrHops (v : View W) : View W :=
  v.map GossipRecord.incrHop

/-- A received view ends with its sender's record, and only that one may be new. -/
def validate (v : View W) : Except Fault Unit :=
  match v.getLast? with
  | none => .error (validationError "empty view" none)
  | some last =>
    match v.dropLast.find? (fun g => g.hop = 0) with
    | some g => .error (validationError ("peer " ++ W.shortString g.peerID)
        (some "invalid range: expected hop > 0"))
    | none =>
      if last.hop ≠ 0 then .error (validationError ("sender " ++ W.shortString last.peerID)
        (some "invalid range: nonzero hop for sender"))
      else .ok ()

theorem validate_ok_iff {v : View W} : v.validate = .ok () ↔
    ∃ front last, v = front ++ [last] ∧ (∀ g ∈ front, g.hop ≠ 0) ∧ last.hop = 0 := by
  constructor
  · intro ok
    unfold validate at ok
    split at ok
    · cases ok
    · rename_i last found
      split at ok
      · cases ok
      · rename_i old
        split at ok
        · cases ok
        · rename_i new
          refine ⟨v.dropLast, last, ?_, ?_, not_not.mp new⟩
          · exact (List.dropLast_append_getLast? last found).symm
          · intro g member zero
            exact (List.find?_eq_none.mp old g member) (decide_eq_true zero)
  · intro shape
    obtain ⟨front, last, equal, old, new⟩ := shape
    have none : front.find? (fun g => g.hop = 0) = none := by
      rw [List.find?_eq_none]
      intro g member zero
      exact old g member (of_decide_eq_true zero)
    simp [validate, equal, none, new]

theorem find_eq_none_iff {v : View W} {id : PeerID} : v.find id = none ↔ ∀ g ∈ v, g.peerID ≠ id := by
  simp only [find, List.find?_eq_none, decide_eq_true_eq]
  exact forall₂_congr fun g _ => not_congr eq_comm

theorem find_some {v : View W} {id : PeerID} {g : GossipRecord W} (found : v.find id = some g) :
    g ∈ v ∧ g.peerID = id := by
  unfold find at found
  have same := List.find?_some found
  rw [decide_eq_true_eq] at same
  exact ⟨List.mem_of_find?_eq_some found, same.symm⟩

theorem mem_diff {v other : View W} {g : GossipRecord W} :
    g ∈ v.diff other ↔ g ∈ v ∧ ∀ g' ∈ other, g'.peerID ≠ g.peerID := by
  rw [diff, List.mem_filter, Option.isNone_iff_eq_none, find_eq_none_iff]

end View

end Casm.Pex
