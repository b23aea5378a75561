import Casm.Boot.Socket

namespace Casm.Boot.Swarm
open Socket

/-- The sockets of several hosts, and the datagrams that each of them has ever written. -/
structure Net where
  sock : Nat → Socket.State
  sent : Nat → List (List UInt8)

/-- A host asks by writing a request. Whatever else its socket does is an event of the
socket. If that makes it respond, it writes the reply. -/
inductive Event where
  | ask (v : Nat) (datagram : List UInt8)
  | act (v : Nat) (e : Socket.Event) (reply : List UInt8)

section Machine

variable (W : Wire)

/-- The packet in a datagram. -/
def content (datagram : List UInt8) : Option Record :=
  match W.consumeTypedEnvelope (datagram.take maxDatagramSize) with
  | .ok (r, _) => some r
  | .error _ => none

def isRequest : Which → Bool
  | .request | .survey => true
  | _ => false

/-- `SendResponse` and `SendSurveyResponse` write a response in the namespace. -/
def isResponseIn (ns : Namespace) (r : Record) : Bool :=
  match r.which, r.ns with
  | .response, .ok ns' => ns' = ns
  | _, _ => false

/-- The handler has sent its response. -/
def responds (svc : Service) (r : Record) (sending : Sending) : Bool :=
  match svc.handler.run W r sending with
  | .ok none => true
  | _ => false

/-- The namespace in which the socket responds to what it reads. -/
def repliesTo (svc : Service) (advt : List Namespace) (result : Except ConnError (List UInt8 × NetAddr))
    (sending : Sending) : Option Namespace :=
  match scan W svc.self result with
  | .error _ => none
  | .ok (r, _) =>
    match r.ns with
    | .error _ => none
    | .ok ns => if isRequest r.which ∧ tracking advt ns ∧ responds W svc r sending then some ns else none

def replies (svc : Service) (s : Socket.State) : Socket.Event → Option Namespace
  | .read result sending _ => repliesTo W svc s.advt.keys result sending
  | _ => none

variable (svc : Nat → Service) (now : Nat → Int)

namespace Net

def write (s : Net) (v : Nat) (datagram : List UInt8) : Net :=
  { s with sent := Function.update s.sent v (datagram :: s.sent v) }

def setSock (s : Net) (v : Nat) (sock : Socket.State) : Net :=
  { s with sock := Function.update s.sock v sock }

/-- The reply to a request is a response in its namespace. -/
def act (s : Net) (v : Nat) (e : Socket.Event) (reply : List UInt8) : Option Net :=
  match replies W (svc v) (s.sock v) e with
  | none => ((s.sock v).step W (svc v) e).map (s.setSock v)
  | some ns =>
    if (content W reply).any (isResponseIn ns) then
      ((s.sock v).step W (svc v) e).map fun sock => (s.setSock v sock).write v reply
    else none

def step (s : Net) : Event → Option Net
  | .ask v datagram => if (content W datagram).any (isRequest ·.which) then some (s.write v datagram) else none
  | .act v e reply => s.act W svc v e reply

end Net

def machine : Machine Net Event where
  start := ⟨fun v => (Socket.machine W (svc v) (now v)).start, fun _ => []⟩
  step s e := s.step W svc e

/-- The events of one socket. -/
def ofNode (v : Nat) (_ : Net) : Event → List Socket.Event
  | .ask _ _ => []
  | .act u e _ => if u = v then [e] else []

/-- A host reads what is signed with the key of another only if the other has written it. -/
def Unforged (_ : List Event) (s : Net) (e : Event) : Prop :=
  ∀ u datagram addr sending order reply, e = .act u (.read (.ok (datagram, addr)) sending order) reply →
    ∀ r key v, W.consumeTypedEnvelope (datagram.take maxDatagramSize) = .ok (r, key) →
      W.matchesPublicKey (svc v).self key = true → datagram ∈ s.sent v

end Machine

section Projection

variable {W : Wire} {svc : Nat → Service} {now : Nat → Int} {s s' : Net} {events : List Event} {v : Nat}

theorem act_cases {e : Socket.Event} {reply : List UInt8} (step : s.act W svc v e reply = some s') :
    ∃ sock, (s.sock v).step W (svc v) e = some sock ∧
      ((replies W (svc v) (s.sock v) e = none ∧ s' = s.setSock v sock) ∨
        ∃ ns, replies W (svc v) (s.sock v) e = some ns ∧ (content W reply).any (isResponseIn ns) = true ∧
          s' = (s.setSock v sock).write v reply) := by
  rw [Net.act] at step
  split at step
  next silent =>
    obtain ⟨sock, isStep, same⟩ := Option.map_eq_some_iff.mp step
    exact ⟨sock, isStep, .inl ⟨silent, same.symm⟩⟩
  next ns replied =>
    split at step
    next isResponse =>
      obtain ⟨sock, isStep, same⟩ := Option.map_eq_some_iff.mp step
      exact ⟨sock, isStep, .inr ⟨ns, replied, isResponse, same.symm⟩⟩
    next => cases step

theorem sock_of_act {e : Socket.Event} {reply : List UInt8} (step : s.act W svc v e reply = some s') :
    ∃ sock, (s.sock v).step W (svc v) e = some sock ∧ s'.sock = Function.update s.sock v sock := by
  obtain ⟨sock, isStep, ⟨_, rfl⟩ | ⟨_, _, _, rfl⟩⟩ := act_cases step
  · exact ⟨sock, isStep, rfl⟩
  · exact ⟨sock, isStep, rfl⟩

/-- In a network each socket does what it does on its own. -/
theorem refines_socket (W : Wire) (svc : Nat → Service) (now : Nat → Int) (v : Nat) :
    (machine W svc now).Refines (Socket.machine W (svc v) (now v)) (fun s => s.sock v) (ofNode v) where
  start := rfl
  step {s e s'} step := by
    cases e with
    | ask u datagram =>
      have step : s.step W svc (.ask u datagram) = some s' := step
      rw [Net.step] at step
      split at step
      · cases step
        rfl
      · cases step
    | act u e reply =>
      obtain ⟨sock, isStep, isSock⟩ := sock_of_act step
      simp only [ofNode, isSock]
      by_cases same : u = v
      · subst same
        rw [if_pos rfl, Function.update_self]
        exact Machine.foldlM_singleton isStep
      · rw [if_neg same, Function.update_of_ne (Ne.symm same)]
        rfl

end Projection

section Origin

variable {W : Wire} {svc : Nat → Service} {now : Nat → Int} {s : Net} {events : List Event} {v : Nat}
  {ns : Namespace} {result : Except ConnError (List UInt8 × NetAddr)} {sending : Sending}

/-- The host reads a valid request in a namespace that it advertises, and replies. -/
def Replied (W : Wire) (svc : Nat → Service) (now : Nat → Int) (events : List Event) (v : Nat) (ns : Namespace)
    (datagram : List UInt8) : Prop :=
  ∃ before result sending order, before ++ [.act v (.read result sending order) datagram] <+: events ∧
    (∃ r addr, scan W (svc v).self result = .ok (r, addr) ∧ isRequest r.which = true ∧ r.ns = .ok ns) ∧
    ∃ deadline, (Socket.machine W (svc v) (now v)).Last (Tracks ns) Lapses
      ((machine W svc now).trace (ofNode v) before) deadline

theorem asked_of_repliesTo {self : Service} {advt : List Namespace}
    (replied : repliesTo W self advt result sending = some ns) :
    (∃ r addr, scan W self.self result = .ok (r, addr) ∧ isRequest r.which = true ∧ r.ns = .ok ns) ∧ ns ∈ advt := by
  rw [repliesTo] at replied
  split at replied
  next => cases replied
  next r addr isScan =>
    split at replied
    next => cases replied
    next ns' isNs =>
      split at replied
      next met =>
        cases replied
        refine ⟨⟨r, addr, isScan, met.1, isNs⟩, ?_⟩
        simpa [tracking] using met.2.1
      next => cases replied

theorem mem_sent_write {u : Nat} {d datagram : List UInt8} (member : datagram ∈ (s.write u d).sent v) :
    (u = v ∧ d = datagram) ∨ datagram ∈ s.sent v := by
  by_cases same : v = u
  · subst same
    simp only [Net.write, Function.update_self] at member
    rcases List.mem_cons.mp member with rfl | old
    · exact .inl ⟨rfl, rfl⟩
    · exact .inr old
  · simp only [Net.write, Function.update_of_ne same] at member
    exact .inr member

/-- What a host has written are requests and replies. -/
theorem written_cases (reached : (machine W svc now).run events = some s) {datagram : List UInt8}
    (member : datagram ∈ s.sent v) : (content W datagram).any (isRequest ·.which) = true ∨
      ∃ ns, (content W datagram).any (isResponseIn ns) = true ∧ Replied W svc now events v ns datagram := by
  induction events using List.reverseRecOn generalizing s with
  | nil =>
    cases reached
    cases member
  | append_singleton events e ih =>
    obtain ⟨s₀, isBefore, step⟩ := Machine.run_concat.mp reached
    have old (member : datagram ∈ s₀.sent v) : (content W datagram).any (isRequest ·.which) = true ∨
        ∃ ns, (content W datagram).any (isResponseIn ns) = true ∧ Replied W svc now (events ++ [e]) v ns datagram := by
      refine (ih isBefore member).imp_right ?_
      rintro ⟨ns, isResponse, before, result, sending, order, inside, rest⟩
      exact ⟨ns, isResponse, before, result, sending, order, inside.trans (List.prefix_append _ _), rest⟩
    cases e with
    | ask u d =>
      have step : s₀.step W svc (.ask u d) = some s := step
      rw [Net.step] at step
      split at step
      next isRequest =>
        cases step
        rcases mem_sent_write member with ⟨rfl, rfl⟩ | before
        · exact .inl isRequest
        · exact old before
      next => cases step
    | act u e reply =>
      obtain ⟨sock, isStep, ⟨_, rfl⟩ | ⟨ns, replied, isResponse, rfl⟩⟩ := act_cases step
      · exact old member
      · rcases mem_sent_write member with ⟨rfl, rfl⟩ | before
        · refine .inr ⟨ns, isResponse, ?_⟩
          cases e with
          | read result sending order =>
            obtain ⟨asked, advertised⟩ := asked_of_repliesTo replied
            obtain ⟨deadline, isDeadline⟩ := Deadlines.mem_keys_iff.mp advertised
            refine ⟨events, result, sending, order, List.prefix_rfl, asked, deadline, ?_⟩
            have run := (refines_socket W svc now u).run isBefore
            refine ((register_advt W (svc u) (now u) ns).read_iff ?_ run).mp isDeadline
            exact fun _ _ _ _ _ _ _ => trivial
          | _ => cases replied
        · exact old before

variable (W svc now) in
/-- What the owner of a subscription of a host has received. -/
def received (events : List Event) (u i : Nat) : List Subscriptions.AddrInfo :=
  Subscriptions.machine.trace (Subscriptions.State.takes i)
    (history W (svc u) (now u) ((machine W svc now).trace (ofNode u) events))

/-- In a network where no host can sign for another, whatever else is sent, lost, repeated
or delayed: a host that a subscriber has found has itself sent this response, with these
addresses, when it read a request for the namespace while it advertised it. -/
theorem found_was_advertising (reached : (machine W svc now).run events = some s)
    (unforged : (machine W svc now).Throughout (Unforged W svc) events) {u i : Nat} {sub : Subscriptions.Subscription}
    (known : (s.sock u).subs.subscription i = some sub) {info : Subscriptions.AddrInfo}
    (found : info ∈ received W svc now events u i) (isHost : info.id = (svc v).self) :
    ∃ datagram r, content W datagram = some r ∧ r.bindInfo W = .ok info ∧
      Replied W svc now events v sub.ns datagram := by
  have run := (refines_socket W svc now u).run reached
  have subs := (refines_subscriptions W (svc u) (now u)).run run
  have offered := ((Subscriptions.balance_run subs i).known sub known).sublist.subset
    (List.mem_append_left _ (List.mem_append_left _ found))
  obtain ⟨order, isDispatch⟩ := Subscriptions.dispatched_of_offered subs known offered
  obtain ⟨result, sending, isRead, isAnswer⟩ := answer_of_dispatch run isDispatch
  obtain ⟨datagram, addr, r, key, rfl, opened, isResponse, isNs, bound, signed, _⟩ := vouches_of_answer isAnswer
  obtain ⟨before, e, s₀, inside, isBefore, ⟨s₁, step⟩, emitted⟩ := Machine.mem_trace reached isRead
  obtain ⟨reply, rfl⟩ : ∃ reply, e = .act u (.read (.ok (datagram, addr)) sending order) reply := by
    cases e with
    | ask w d => cases emitted
    | act w e reply =>
      rw [ofNode] at emitted
      split at emitted
      next same =>
        cases List.mem_singleton.mp emitted
        exact ⟨reply, by rw [same]⟩
      next => cases emitted
  have wrote := unforged before _ s₀ s₁ inside isBefore step u datagram addr sending order reply rfl r key v opened
    (isHost ▸ signed)
  have isContent : content W datagram = some r := by rw [content, opened]
  refine ⟨datagram, r, isContent, bound, ?_⟩
  rcases written_cases isBefore wrote with isAsk | ⟨ns, isReply, asked⟩
  · simp [isContent, isResponse, isRequest] at isAsk
  · have same : sub.ns = ns := by simpa [isContent, isResponseIn, isResponse, isNs] using isReply
    obtain ⟨before', result', sending', order', inside', rest⟩ := asked
    subst same
    refine ⟨before', result', sending', order', ?_, rest⟩
    exact inside'.trans ((List.prefix_append _ _).trans inside)

/-- A datagram names its sender and whether it is a response. All are in one namespace. -/
def twoHosts : Wire where
  PublicKey := UInt8
  consumeTypedEnvelope
    | [who, kind] => .ok (⟨if kind = 0 then .request else .response, .ok [7], .ok [who, who, who, who], 0, .ok []⟩, who)
    | _ => .error "malformed envelope"
  idFromBytes b := .ok b
  newMultiaddrBytes b := .ok b
  matchesPublicKey id key := id == [key, key, key, key]
  hashed own := by rw [beq_iff_eq.mp own]; exact Nat.le_refl 4

def twoServices : Nat → Service
  | 0 => ⟨[1, 1, 1, 1], .crawl⟩
  | 1 => ⟨[2, 2, 2, 2], .crawl⟩
  | _ + 2 => ⟨[], .crawl⟩

/-- The first host subscribes and asks, and the second, which advertises, replies. -/
def foundOne : List Event :=
  [.act 0 (.subscription (.subscribe 0 0 [7] 0)) [], .act 1 (.track [7] 10) [], .ask 0 [1, 0],
    .act 1 (.read (.ok ([1, 0], "")) Serve.delivered []) [2, 1],
    .act 0 (.read (.ok ([2, 1], "")) Serve.delivered [0]) [], .act 0 (.subscription .send) [],
    .act 0 (.subscription .unlock) [], .act 0 (.subscription .release) [], .act 0 (.subscription (.receive 0)) []]

theorem foundOne_unforged :
    (machine twoHosts twoServices fun _ => 0).Throughout (Unforged twoHosts twoServices) foundOne := by
  intro before e s s' inside reached _ u datagram addr sending order reply isRead r key v opened signed
  subst isRead
  have isTake : before = foundOne.take before.length :=
    List.prefix_iff_eq_take.mp ((List.prefix_append _ _).trans inside)
  have isEvent : foundOne[before.length]? = some (.act u (.read (.ok (datagram, addr)) sending order) reply) := by
    rw [List.prefix_iff_getElem?.mp inside before.length (by simp), List.getElem_concat_length rfl]
  obtain isThird | isFourth : before.length = 3 ∨ before.length = 4 := by
    have short : before.length < 9 := by simpa [foundOne] using inside.length_le
    generalize before.length = n at isEvent short
    interval_cases n <;> first | (cases isEvent; done) | decide
  · rw [isThird] at isTake isEvent
    subst isTake
    cases isEvent
    cases reached
    cases opened
    rcases v with _ | _ | v
    · exact List.mem_cons_self
    · cases signed
    · cases signed
  · rw [isFourth] at isTake isEvent
    subst isTake
    cases isEvent
    cases reached
    cases opened
    rcases v with _ | _ | v
    · cases signed
    · exact List.mem_cons_self
    · cases signed

theorem found_was_advertising_foundOne : ∃ s, (machine twoHosts twoServices fun _ => 0).run foundOne = some s ∧
    received twoHosts twoServices (fun _ => 0) foundOne 0 0 = [⟨[2, 2, 2, 2], []⟩] ∧
    ∃ datagram r, content twoHosts datagram = some r ∧ r.bindInfo twoHosts = .ok ⟨[2, 2, 2, 2], []⟩ ∧
      Replied twoHosts twoServices (fun _ => 0) foundOne 1 [7] datagram := by
  have reached : (machine twoHosts twoServices fun _ => 0).run foundOne = some _ := rfl
  have isReceived : received twoHosts twoServices (fun _ => 0) foundOne 0 0 = [⟨[2, 2, 2, 2], []⟩] := rfl
  have isHost : [2, 2, 2, 2] = (twoServices 1).self := rfl
  refine ⟨_, reached, isReceived, ?_⟩
  exact found_was_advertising reached foundOne_unforged rfl (isReceived ▸ List.mem_cons_self) isHost

end Origin

end Casm.Boot.Swarm
