import Casm.Lib.Refinement
import Casm.Proto.Vat

namespace Casm.Vat.Calls
open Casm.Pex (bytes)

/-- A call of `Export`, with the client that it provides, or of `Embargo`. What is left are
the protocols that its loop has not come to. -/
structure Call where
  vat : Nat
  cap : List ID
  boot : Option Nat
  left : List ID

/-- The vats, and all calls that were made, in the order in which they began. -/
structure State where
  net : Vat.State
  calls : List Call

inductive Event where
  | call (w : Nat) (c : List ID) (boot : Option Nat)
  | advance (i : Nat)
  | other (e : Vat.Event)

/-- What the loop of the call does for a protocol. -/
def Call.turn (call : Call) (id : ID) : Vat.Event :=
  match call.boot with
  | some boot => .exports call.vat call.cap boot id
  | none => .embargoes call.vat call.cap id

/-- What the loops leave the host with for their protocols. -/
def handlerOf (c : List ID) (boot : Option Nat) : Option Handler :=
  boot.map fun boot => .exported ⟨c, boot⟩

/-- The event is not a turn of one of the loops. -/
def outside : Vat.Event → Bool
  | .exports .. | .embargoes .. => false
  | _ => true

section System

variable (ns : Nat → ID) (reports : Nat → Bool)

/-- The calls are made by any goroutines, so that the turns of their loops interleave. -/
def State.step (s : State) : Event → Option State
  | .call w c boot => some { s with calls := s.calls ++ [⟨w, c, boot, protocolsFor (ns w) c⟩] }
  | .advance i =>
    (s.calls[i]?).bind fun call =>
      match call.left with
      | [] => none
      | id :: rest =>
        (s.net.step ns reports (call.turn id)).map fun net => ⟨net, s.calls.set i { call with left := rest }⟩
  | .other e => if outside e then (s.net.step ns reports e).map fun net => { s with net := net } else none

def machine : Machine State Event where
  start := ⟨(Vat.machine ns reports).start, []⟩
  step := State.step ns reports

/-- What the vats see of an event. -/
def State.emit (s : State) : Event → List Vat.Event
  | .call .. => []
  | .advance i => ((s.calls[i]?).bind fun call => call.left.head?.map call.turn).toList
  | .other e => [e]

end System

variable {ns : Nat → ID} {reports : Nat → Bool} {s s' : State}

variable (ns reports s) in
/-- What a step can do. -/
inductive Turn : Event → State → Prop
  | call {w : Nat} {c : List ID} {boot : Option Nat} :
      Turn (.call w c boot) { s with calls := s.calls ++ [⟨w, c, boot, protocolsFor (ns w) c⟩] }
  | advance {i : Nat} {call : Call} {id : ID} {rest : List ID} {net : Vat.State} (isCall : s.calls[i]? = some call)
      (isLeft : call.left = id :: rest) (step : s.net.step ns reports (call.turn id) = some net) :
      Turn (.advance i) ⟨net, s.calls.set i { call with left := rest }⟩
  | other {e : Vat.Event} {net : Vat.State} (isOutside : outside e = true) (step : s.net.step ns reports e = some net) :
      Turn (.other e) { s with net := net }

theorem turn_of_step {e : Event} (step : (machine ns reports).step s e = some s') : Turn ns reports s e s' := by
  have step : s.step ns reports e = some s' := step
  cases e with
  | call w c boot => exact Option.some.inj step ▸ .call
  | advance i =>
    obtain ⟨call, isCall, goesOn⟩ := Option.bind_eq_some_iff.mp step
    split at goesOn
    next => cases goesOn
    next id rest isLeft =>
      obtain ⟨net, isStep, rfl⟩ := Option.map_eq_some_iff.mp goesOn
      exact .advance isCall isLeft isStep
  | other e =>
    rw [State.step] at step
    split at step
    next isOutside =>
      obtain ⟨net, isStep, rfl⟩ := Option.map_eq_some_iff.mp step
      exact .other isOutside isStep
    next => cases step

/-- Each turn of a loop is an export or an embargo of one protocol. -/
theorem refines (ns : Nat → ID) (reports : Nat → Bool) :
    (machine ns reports).Refines (Vat.machine ns reports) State.net State.emit where
  start := rfl
  step {s e s'} step := by
    cases turn_of_step step with
    | call => rfl
    | advance isCall isLeft isStep =>
      simp only [State.emit, isCall, isLeft, Option.bind_some, List.head?_cons, Option.map_some, Option.toList_some]
      exact Machine.foldlM_singleton isStep
    | other isOutside isStep => exact Machine.foldlM_singleton isStep

theorem net_of_turn {call : Call} {id : ID} {net : Vat.State}
    (step : s.net.step ns reports (call.turn id) = some net) :
    net = s.net.setHandler call.vat id (handlerOf call.cap call.boot) := by
  have turn : Vat.Turn ns reports s.net (call.turn id) net := Vat.turn_of_step step
  unfold Call.turn at turn
  split at turn
  next boot isExport =>
    cases turn
    rw [isExport]
    rfl
  next isEmbargo =>
    cases turn
    rw [isEmbargo]
    rfl

variable {w : Nat} {id : ID}

variable (s w id) in
/-- The event sets or removes the handler of the protocol. -/
inductive Touches : Event → Prop
  | advance {i : Nat} {call : Call} {rest : List ID} (isCall : s.calls[i]? = some call) (isVat : call.vat = w)
      (isLeft : call.left = id :: rest) : Touches (.advance i)
  | register : Touches (.other (.register w id))
  | unregister : Touches (.other (.unregister w id))

theorem handlers_of_outside {e : Vat.Event} {net : Vat.State} (isOutside : outside e = true)
    (step : s.net.step ns reports e = some net) (untouched : ¬ Touches s w id (.other e)) :
    net.handlers w id = s.net.handlers w id := by
  have turn : Vat.Turn ns reports s.net e net := Vat.turn_of_step step
  rcases @handlers_turn ns reports s.net net w id e turn with ⟨_, sets, _⟩ | ⟨_, ⟨removes, _⟩ | ⟨_, same⟩⟩
  · rcases sets with ⟨c, boot, rfl, _⟩ | ⟨rfl, _⟩
    · cases isOutside
    · exact absurd .register untouched
  · rcases removes .foreign with ⟨c, rfl⟩ | rfl
    · cases isOutside
    · exact absurd .unregister untouched
  · exact same

/-- The call has yet to come to the protocol, or the host has what it sets there. -/
def Underway (i : Nat) (w : Nat) (c : List ID) (boot : Option Nat) (id : ID) (s : State) : Prop :=
  ∃ left, s.calls[i]? = some ⟨w, c, boot, left⟩ ∧ (id ∈ left ∨ s.net.handlers w id = handlerOf c boot)

variable {i : Nat} {c : List ID} {boot : Option Nat} {e : Event}

/-- Nobody but the call itself touches the protocol. -/
theorem Underway.step (underway : Underway i w c boot id s) (step : (machine ns reports).step s e = some s')
    (alone : Touches s w id e → e = .advance i) : Underway i w c boot id s' := by
  obtain ⟨left, isCall, progress⟩ := underway
  cases turn_of_step step with
  | call => exact ⟨left, List.getElem?_append_left (List.getElem?_eq_some_iff.mp isCall).1 ▸ isCall, progress⟩
  | @advance j call id' rest net isCall' isLeft isStep =>
    cases net_of_turn isStep
    by_cases same : j = i
    · subst same
      cases isCall.symm.trans isCall'
      have inside := (List.getElem?_eq_some_iff.mp isCall).1
      refine ⟨rest, by simp [List.getElem?_set_self inside], ?_⟩
      by_cases sameId : id = id'
      · subst sameId
        exact .inr (by simp [handlers_setHandler])
      · cases isLeft
        refine progress.imp (fun member => ?_) fun isHandler => ?_
        · exact List.mem_of_ne_of_mem sameId member
        · simpa [handlers_setHandler, sameId] using isHandler
    · have untouched : ¬ (w = call.vat ∧ id = id') := by
        rintro ⟨rfl, rfl⟩
        cases alone (.advance isCall' rfl isLeft)
        exact same rfl
      refine ⟨left, by simpa [List.getElem?_set_ne same] using isCall, ?_⟩
      simpa [handlers_setHandler, untouched] using progress
  | other isOutside isStep =>
    refine ⟨left, isCall, ?_⟩
    have untouched : ¬ Touches s w id (.other _) := fun touches => by cases alone touches
    rwa [handlers_of_outside isOutside isStep untouched]

variable {before after : List Event} {s₀ : State}

/-- A capability with two protocols. -/
def pair : List ID :=
  [bytes "/echo", bytes "/time"]

end Casm.Vat.Calls
