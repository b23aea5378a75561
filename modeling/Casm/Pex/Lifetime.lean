import Casm.Lib.LastWrite
import Casm.Pex.Calls

namespace Casm.Pex

namespace PeerExchange

variable {newParams : Namespace → GossipConfig} {px : PeerExchange} {ns : Namespace} {ad : Advertiser}

/-- The advertiser that a namespace has once it is advertised. -/
def renewed (newParams : Namespace → GossipConfig) (px : PeerExchange) (ns : Namespace) (now : Int) : Advertiser where
  deadline := now + ((newParams ns).tick + (newParams ns).timeout)
  gossiper := (px.gossiper ns).getD ⟨px.next, newParams ns⟩

/-- Every gossiper has the parameters of its namespace. -/
def Configured (newParams : Namespace → GossipConfig) (px : PeerExchange) : Prop :=
  ∀ ns g, px.gossiper ns = some g → g.config = newParams ns

theorem Configured.handle (configured : px.Configured newParams) (e : Event) :
    (px.handle newParams e).Configured newParams := by
  intro ns g found
  cases running : px.closed with
  | true =>
    simp only [PeerExchange.handle, running, if_true] at found
    exact configured ns g found
  | false =>
    simp only [PeerExchange.handle, running, Bool.false_eq_true, if_false] at found
    cases e with
    | tick turns => exact configured ns g ((px.tick_shrinks turns).2 ns g found)
    | close =>
      rw [gossiper_close] at found
      cases found
    | advertise ns' now =>
      cases isKnown : px.gossiper ns' with
      | some g' =>
        rw [(getOrCreateGossiper_known newParams now isKnown).1] at found
        exact configured ns g found
      | none =>
        rw [(getOrCreateGossiper_unknown newParams now isKnown).1] at found
        rcases Function.update_cases found with ⟨same, isNew⟩ | ⟨_, before⟩
        · cases isNew
          rw [same]
        · exact configured ns g before

theorem configured_run (events : List Event) : (run newParams events).Configured newParams :=
  List.foldlRecOn events (PeerExchange.handle newParams) (by nofun) fun _ kept e _ => kept.handle e

theorem lookup_getOrCreateGossiper (configured : px.Configured newParams) (now : Int) :
    (px.getOrCreateGossiper newParams ns now).1.advertisers.lookup ns = some (px.renewed newParams ns now) ∧
      (px.getOrCreateGossiper newParams ns now).2 = (px.renewed newParams ns now).gossiper := by
  cases found : px.advertisers.lookup ns with
  | none =>
    have unknown : px.gossiper ns = none := Option.map_eq_none_iff.mpr found
    simp only [getOrCreateGossiper, found, newGossiper, renewed, unknown, Advertiser.resetTTL, AList.lookup_insert,
      Option.getD_none, and_self]
  | some ad =>
    have known : px.gossiper ns = some ad.gossiper := congrArg (Option.map Advertiser.gossiper) found
    have config := configured ns ad.gossiper known
    simp only [getOrCreateGossiper, found, renewed, known, Advertiser.resetTTL, AList.lookup_insert, config,
      Option.getD_some, and_self]

theorem lookup_getOrCreateGossiper_ne {ns' : Namespace} (other : ns ≠ ns') (now : Int) :
    (px.getOrCreateGossiper newParams ns' now).1.advertisers.lookup ns = px.advertisers.lookup ns := by
  cases found : px.advertisers.lookup ns' with
  | none => simp only [getOrCreateGossiper, found, newGossiper, AList.lookup_insert_ne other]
  | some ad => simp only [getOrCreateGossiper, found, AList.lookup_insert_ne other]

/-- One turn of a tick drops the advertiser of its own namespace, if it has expired. -/
theorem lookup_expire (turn : Namespace × Int) : (px.expire turn).advertisers.lookup ns = some ad ↔
    px.advertisers.lookup ns = some ad ∧ ¬ (turn.1 = ns ∧ ad.deadline < turn.2) := by
  obtain ⟨ns', t⟩ := turn
  by_cases same : ns' = ns
  · subst same
    cases found : px.advertisers.lookup ns' with
    | none => simp [expire, found]
    | some ad' =>
      by_cases past : ad'.deadline < t
      · have expired : ad'.expired t = true := decide_eq_true past
        simp only [expire, found, expired, if_true, stop, AList.lookup_erase, reduceCtorEq, Option.some.injEq, true_and,
          false_iff]
        rintro ⟨rfl, kept⟩
        exact kept past
      · have lasting : ad'.expired t = false := decide_eq_false past
        simp only [expire, found, lasting, Bool.false_eq_true, if_false, Option.some.injEq, true_and]
        refine ⟨fun isAd => ⟨isAd, isAd ▸ past⟩, And.left⟩
  · rw [and_iff_left (fun expired => same expired.1)]
    cases found : px.advertisers.lookup ns' with
    | none => simp [expire, found]
    | some ad' =>
      by_cases past : ad'.expired t
      · simp only [expire, found, past, if_true, stop, AList.lookup_erase_ne (Ne.symm same)]
      · simp only [expire, found, past, Bool.false_eq_true, if_false]

theorem lookup_tick (turns : List (Namespace × Int)) : (turns.foldl expire px).advertisers.lookup ns = some ad ↔
    px.advertisers.lookup ns = some ad ∧ ∀ t, (ns, t) ∈ turns → ¬ ad.deadline < t := by
  induction turns generalizing px with
  | nil => simp
  | cons turn turns ih =>
    obtain ⟨ns', t'⟩ := turn
    rw [List.foldl_cons, ih, lookup_expire, and_assoc]
    refine and_congr_right fun _ => ⟨?_, ?_⟩
    · rintro ⟨first, rest⟩ t member past
      rcases List.mem_cons.mp member with isFirst | later
      · cases isFirst
        exact first ⟨rfl, past⟩
      · exact rest t later past
    · intro all
      refine ⟨?_, fun t member => all t (List.mem_cons_of_mem _ member)⟩
      rintro ⟨rfl, past⟩
      exact all t' (List.mem_cons_self ..) past

theorem lookup_close : px.close.advertisers.lookup ns = none :=
  Option.map_eq_none_iff.mp (px.gossiper_close ns)

end PeerExchange

namespace Calls

/-- The main loop runs the thunk of the call. -/
def State.Serves (s : State) (e : Event) (i : Nat) (c : Call) (now : Int) : Prop :=
  e = .loop (.thunk now) ∧ s.loop = .running ∧ s.thunk = some i ∧ s.calls i = some c

/-- A call of `getOrCreateGossiper` is served, which gives the namespace a deadline and
a gossiper if it has none. -/
def Advertises (newParams : Namespace → GossipConfig) (ns : Namespace) (s : State) (e : Event) (ad : Advertiser) :
    Prop :=
  ∃ i c now, s.Serves e i c now ∧ c.request = .getOrCreateGossiper ∧ c.ns = ns ∧
    s.exchange.renewed newParams ns now = ad

/-- A tick finds the deadline passed, or the loop is over. -/
def Drops (ns : Namespace) (e : Event) (ad : Advertiser) : Prop :=
  (∃ turns t, e = .loop (.tick turns) ∧ (ns, t) ∈ turns ∧ ad.deadline < t) ∨ e = .loop .finish

variable {newParams : Namespace → GossipConfig} {s s' : State} {e : Event} {events : List Event} {ns : Namespace}
  {i : Nat} {c : Call}

/-- What a step does to the exchange. -/
theorem exchange_step (step : s.step newParams e = some s') :
    (∃ i c now, s.Serves e i c now ∧ c.request = .getOrCreateGossiper ∧
        s'.exchange = (s.exchange.getOrCreateGossiper newParams c.ns now).1) ∨
      (∃ turns, e = .loop (.tick turns) ∧ s'.exchange = turns.foldl PeerExchange.expire s.exchange) ∨
      (e = .loop .finish ∧ s'.exchange = s.exchange.close) ∨
      (s'.exchange = s.exchange ∧ (∀ i c now, s.Serves e i c now → c.request ≠ .getOrCreateGossiper) ∧
        (∀ turns, e ≠ .loop (.tick turns)) ∧ e ≠ .loop .finish) := by
  have idle {s' : State} (same : s'.exchange = s.exchange) (other : ∀ e', e ≠ .loop e') :
      s'.exchange = s.exchange ∧ (∀ i c now, s.Serves e i c now → c.request ≠ .getOrCreateGossiper) ∧
        (∀ turns, e ≠ .loop (.tick turns)) ∧ e ≠ .loop .finish :=
    ⟨same, fun i c now serves => absurd serves.1 (other _), fun turns => other _, other _⟩
  cases e with
  | start i request ns =>
    obtain ⟨_, isNext⟩ := Option.ite_none_right_eq_some.mp step
    cases isNext
    exact .inr (.inr (.inr (idle rfl (by rintro _ ⟨⟩))))
  | call i e =>
    refine .inr (.inr (.inr (idle ?_ (by rintro _ ⟨⟩))))
    obtain ⟨c, known, ⟨_, _, _, isNext⟩ | ⟨_, c', _, isNext⟩⟩ := State.callStep_cases step
    · rw [isNext]
      rfl
    · rw [isNext]
      rfl
  | close =>
    cases step
    exact .inr (.inr (.inr (idle rfl (by rintro _ ⟨⟩))))
  | loop e =>
    rcases State.loopStep_cases step with ⟨now, i, c, rfl, running, slot, known, isNext⟩ | ⟨turns, rfl, _, isNext⟩ |
      ⟨rfl, _, isNext⟩ | ⟨rfl, _, isNext⟩ | ⟨rfl, _, isNext⟩
    · cases request : c.request with
      | getOrCreateGossiper =>
        refine .inl ⟨i, c, now, ⟨rfl, running, slot, known⟩, request, ?_⟩
        rw [isNext, State.runThunk, request]
      | getGossiper =>
        refine .inr (.inr (.inr ⟨?_, ?_, by rintro _ ⟨⟩, by rintro ⟨⟩⟩))
        · rw [isNext, State.runThunk, request]
          rfl
        · rintro j c' now' ⟨_, _, slot', known'⟩ other
          rw [slot, Option.some.injEq] at slot'
          rw [← slot', known, Option.some.injEq] at known'
          rw [← known', request] at other
          cases other
    · exact .inr (.inl ⟨turns, rfl, by rw [isNext]⟩)
    · refine .inr (.inr (.inr ⟨by rw [isNext], ?_, by rintro _ ⟨⟩, by rintro ⟨⟩⟩))
      rintro _ _ _ ⟨isThunk, _⟩
      cases isThunk
    · refine .inr (.inr (.inr ⟨by rw [isNext], ?_, by rintro _ ⟨⟩, by rintro ⟨⟩⟩))
      rintro _ _ _ ⟨isThunk, _⟩
      cases isThunk
    · exact .inr (.inr (.inl ⟨rfl, by rw [isNext]⟩))

theorem serves_unique {j : Nat} {c' : Call} {now now' : Int} (one : s.Serves e i c now)
    (other : s.Serves e j c' now') : i = j ∧ c = c' ∧ now = now' := by
  obtain ⟨isEvent, _, slot, known⟩ := one
  obtain ⟨isEvent', _, slot', known'⟩ := other
  cases isEvent.symm.trans isEvent'
  cases slot.symm.trans slot'
  cases known.symm.trans known'
  exact ⟨rfl, rfl, rfl⟩

theorem configured_of_run (reached : (machine newParams).run events = some s) : s.exchange.Configured newParams := by
  obtain ⟨_, loopEvents, isRun⟩ := (runs_invariant newParams).run reached
  rw [isRun]
  exact PeerExchange.configured_run loopEvents

/-- The advertiser of a namespace is a place that calls write and ticks clear. -/
theorem register_advertiser (newParams : Namespace → GossipConfig) (ns : Namespace) :
    (machine newParams).Register (fun s _ => s.exchange.Configured newParams)
      (fun s => s.exchange.advertisers.lookup ns) (Advertises newParams ns) (Drops ns) where
  start := rfl
  written {s e s' ad} configured step wrote := by
    obtain ⟨i, c, now, serves, request, rfl, rfl⟩ := wrote
    rcases exchange_step step with ⟨j, c', now', serves', _, isNext⟩ | ⟨_, isTick, _⟩ | ⟨isFinish, _⟩ | ⟨_, other, _⟩
    · obtain ⟨_, rfl, rfl⟩ := serves_unique serves serves'
      rw [isNext]
      exact (PeerExchange.lookup_getOrCreateGossiper configured now).1
    · cases serves.1.symm.trans isTick
    · cases serves.1.symm.trans isFinish
    · exact absurd request (other i c now serves)
  kept {s e s' ad} configured step silent := by
    rcases exchange_step step with ⟨i, c, now, serves, request, isNext⟩ | ⟨turns, rfl, isNext⟩ | ⟨rfl, isNext⟩ |
      ⟨isNext, _, notTick, notFinish⟩
    · have other : ns ≠ c.ns := fun same => silent _ ⟨i, c, now, serves, request, same.symm, rfl⟩
      rw [isNext, PeerExchange.lookup_getOrCreateGossiper_ne other]
      refine (and_iff_left ?_).symm
      rintro (⟨_, _, isTick, _⟩ | isFinish)
      · cases serves.1.symm.trans isTick
      · cases serves.1.symm.trans isFinish
    · rw [isNext, PeerExchange.lookup_tick]
      refine and_congr_right fun _ => ⟨?_, ?_⟩
      · rintro lasting (⟨_, t, isTick, member, past⟩ | isFinish)
        · cases isTick
          exact lasting t member past
        · cases isFinish
      · intro kept t member past
        exact kept (.inl ⟨turns, t, rfl, member, past⟩)
    · rw [isNext, PeerExchange.lookup_close]
      exact iff_of_false nofun fun kept => kept.2 (.inr rfl)
    · rw [isNext]
      refine (and_iff_left ?_).symm
      rintro (⟨turns, _, isTick, _⟩ | isFinish)
      · exact notTick turns isTick
      · exact notFinish isFinish

theorem advertiser_iff {ad : Advertiser} (reached : (machine newParams).run events = some s) :
    s.exchange.advertisers.lookup ns = some ad ↔
      (machine newParams).Last (Advertises newParams ns) (Drops ns) events ad :=
  (register_advertiser newParams ns).read_iff (fun _ _ _ _ _ isBefore _ => configured_of_run isBefore) reached

/-- The thunk of the call is run after these events of the run. -/
def ServedAfter (newParams : Namespace → GossipConfig) (events : List Event) (i : Nat) (c : Call)
    (before : List Event) (now : Int) (s : State) : Prop :=
  before ++ [.loop (.thunk now)] <+: events ∧ (machine newParams).run before = some s ∧
    ∃ asked, s.Serves (.loop (.thunk now)) i asked now ∧ asked.request = c.request ∧ asked.ns = c.ns

/-- What a thunk replies in this state of the exchange. -/
def Call.answer (newParams : Namespace → GossipConfig) (px : PeerExchange) (c : Call) (now : Int) : Option Gossiper :=
  match c.request with
  | .getOrCreateGossiper => some (px.getOrCreateGossiper newParams c.ns now).2
  | .getGossiper => px.gossiper c.ns

theorem Call.step_frame {done : Bool} {e : Call.Event} {c' : Call} (step : c.step done e = some c') :
    c'.request = c.request ∧ c'.ns = c.ns ∧ c'.reply = c.reply := by
  cases e with
  | send =>
    obtain ⟨_, rfl⟩ := Call.step_send.mp step
    exact ⟨rfl, rfl, rfl⟩
  | cancel e =>
    cases step
    exact ⟨rfl, rfl, rfl⟩
  | ctxDone =>
    rw [Call.step] at step
    split at step
    · obtain ⟨_, isNext⟩ := Option.ite_none_right_eq_some.mp step
      cases isNext
      exact ⟨rfl, rfl, rfl⟩
    · cases step
  | pxDone =>
    obtain ⟨_, isNext⟩ := Option.ite_none_right_eq_some.mp step
    cases isNext
    exact ⟨rfl, rfl, rfl⟩
  | receive =>
    rw [Call.step] at step
    split at step
    · cases step
      exact ⟨rfl, rfl, rfl⟩
    · cases step
      exact ⟨rfl, rfl, rfl⟩
    · cases step

/-- A call returns a gossiper, or that there is none, only on the reply of its thunk. -/
def Call.Reports (c : Call) : Prop :=
  ∀ result, c.phase = .returned result →
    (∀ g, result = .ok g → c.reply = some (some g)) ∧ (result = .error .notFound → c.reply = some none)

theorem Call.Reports.step {done : Bool} {e : Call.Event} {c' : Call} (reports : c.Reports)
    (step : c.step done e = some c') : c'.Reports := by
  intro result returned
  cases e with
  | send =>
    obtain ⟨_, rfl⟩ := Call.step_send.mp step
    cases returned
  | cancel e =>
    cases step
    exact reports result returned
  | ctxDone =>
    rw [Call.step] at step
    split at step
    · obtain ⟨_, isNext⟩ := Option.ite_none_right_eq_some.mp step
      cases isNext
      cases returned
      exact ⟨by rintro _ ⟨⟩, by rintro ⟨⟩⟩
    · cases step
  | pxDone =>
    obtain ⟨_, isNext⟩ := Option.ite_none_right_eq_some.mp step
    cases isNext
    cases returned
    exact ⟨by rintro _ ⟨⟩, by rintro ⟨⟩⟩
  | receive =>
    rw [Call.step] at step
    split at step
    · rename_i g _ reply
      cases step
      cases returned
      refine ⟨fun g' same => ?_, by rintro ⟨⟩⟩
      cases same
      exact reply
    · rename_i _ reply
      cases step
      cases returned
      exact ⟨by rintro _ ⟨⟩, fun _ => reply⟩
    · cases step

/-- Each call is an entry of the run: it reports what its thunk replied, and the thunk
was run in the state that some of the events led to. -/
structure Entered (newParams : Namespace → GossipConfig) (events : List Event) (i : Nat) (c : Call) : Prop where
  reports : c.Reports
  served : ∀ reply, c.reply = some reply → ∃ before now s, ServedAfter newParams events i c before now s ∧
    reply = c.answer newParams s.exchange now

theorem Entered.mono {later : List Event} (entered : Entered newParams events i c) (longer : events <+: later) :
    Entered newParams later i c where
  reports := entered.reports
  served reply replied := by
    obtain ⟨before, now, s, ⟨inside, facts⟩, isReply⟩ := entered.served reply replied
    exact ⟨before, now, s, ⟨inside.trans longer, facts⟩, isReply⟩

theorem Entered.step {done : Bool} {e : Call.Event} {c' : Call} (entered : Entered newParams events i c)
    (step : c.step done e = some c') : Entered newParams events i c' where
  reports := entered.reports.step step
  served reply replied := by
    obtain ⟨request, ns, same⟩ := Call.step_frame step
    obtain ⟨before, now, s, ⟨inside, reached, asked, serves, sameRequest, sameNs⟩, isReply⟩ :=
      entered.served reply (same.symm.trans replied)
    refine ⟨before, now, s, ⟨inside, reached, asked, serves, sameRequest.trans request.symm, sameNs.trans ns.symm⟩,
      isReply.trans ?_⟩
    rw [Call.answer, Call.answer, request, ns]

theorem runThunk_answer (newParams : Namespace → GossipConfig) (s : State) (i : Nat) (c : Call) (now : Int) :
    (s.runThunk newParams i c now).calls =
      (s.setCall i { c with reply := some (c.answer newParams s.exchange now) }).calls := by
  cases request : c.request with
  | getOrCreateGossiper => simp only [State.runThunk, Call.answer, request]
  | getGossiper => simp only [State.runThunk, Call.answer, request]

theorem entered_run (reached : (machine newParams).run events = some s) (known : s.calls i = some c) :
    Entered newParams events i c := by
  induction events using List.reverseRecOn generalizing s i c with
  | nil =>
    cases reached
    cases known
  | append_singleton events e ih =>
    obtain ⟨s₀, isBefore, step⟩ := Machine.run_concat.mp reached
    have old {j : Nat} {c : Call} (before : s₀.calls j = some c) : Entered newParams (events ++ [e]) j c :=
      (ih isBefore before).mono (List.prefix_append _ _)
    have step : s₀.step newParams e = some s := step
    cases e with
    | start j request ns =>
      obtain ⟨_, isNext⟩ := Option.ite_none_right_eq_some.mp step
      cases isNext
      rcases setCall_cases known with ⟨rfl, rfl⟩ | ⟨_, before⟩
      · exact ⟨nofun, nofun⟩
      · exact old before
    | close =>
      cases step
      exact old known
    | call j e =>
      obtain ⟨c₀, isCall, ⟨rfl, _, sending, rfl⟩ | ⟨_, c', moves, rfl⟩⟩ := State.callStep_cases step
      · rcases setCall_cases known with ⟨rfl, rfl⟩ | ⟨_, before⟩
        · have moves : c₀.step s₀.done .send = some { c₀ with phase := .waiting } := Call.step_send.mpr ⟨sending, rfl⟩
          exact (old isCall).step moves
        · exact old before
      · rcases setCall_cases known with ⟨rfl, rfl⟩ | ⟨_, before⟩
        · exact (old isCall).step moves
        · exact old before
    | loop e =>
      rcases State.loopStep_cases step with ⟨now, j, c₀, rfl, running, slot, isCall, rfl⟩ | ⟨_, _, _, rfl⟩ |
        ⟨_, _, rfl⟩ | ⟨_, _, rfl⟩ | ⟨_, _, rfl⟩
      · rw [runThunk_answer] at known
        rcases setCall_cases known with ⟨rfl, rfl⟩ | ⟨_, before⟩
        · obtain ⟨asker, isAsker, unanswered, _⟩ := ((pending_invariant newParams).run isBefore).unanswered i slot
          rw [isCall, Option.some.injEq] at isAsker
          subst isAsker
          refine ⟨fun result returned => ?_, fun reply replied => ?_⟩
          -- a call that has reported a reply has no thunk in the channel
          · obtain ⟨ok, notFound⟩ := (old isCall).reports result returned
            rw [unanswered] at ok notFound
            exact ⟨fun g isOk => absurd (ok g isOk) nofun, fun isNotFound => absurd (notFound isNotFound) nofun⟩
          · exact ⟨events, now, s₀, ⟨List.prefix_rfl, isBefore, c₀, ⟨rfl, running, slot, isCall⟩, rfl, rfl⟩,
              (Option.some.inj replied).symm⟩
        · exact old before
      all_goals exact old known

/-- The events that a reply tells of. A call of `getOrCreateGossiper` itself advertises. -/
def reflected (request : Request) (before : List Event) (now : Int) : List Event :=
  match request with
  | .getOrCreateGossiper => before ++ [.loop (.thunk now)]
  | .getGossiper => before

/-- What a caller gets is what holds at one moment of its call, when its thunk is run:
the gossiper of the namespace if the namespace is advertised there, that is, it was
advertised before and no tick since has found the deadline of the last time passed;
and `ErrNotFound` if it is not. -/
theorem found_while_advertised {result : Except CallError Gossiper}
    (reached : (machine newParams).run events = some s) (known : s.calls i = some c)
    (returned : c.phase = .returned result) :
    (∀ g, result = .ok g → ∃ before now s₀ deadline, ServedAfter newParams events i c before now s₀ ∧
      (machine newParams).Last (Advertises newParams c.ns) (Drops c.ns) (reflected c.request before now)
        ⟨deadline, g⟩) ∧
    (result = .error .notFound → c.request = .getGossiper ∧ ∃ before now s₀,
      ServedAfter newParams events i c before now s₀ ∧
      ∀ ad, ¬ (machine newParams).Last (Advertises newParams c.ns) (Drops c.ns) before ad) := by
  obtain ⟨reports, served⟩ := entered_run reached known
  obtain ⟨ok, notFound⟩ := reports result returned
  refine ⟨fun g isOk => ?_, fun isNotFound => ?_⟩
  · obtain ⟨before, now, s₀, isServed, isReply⟩ := served (some g) (ok g isOk)
    obtain ⟨inside, isBefore, asked, serves, sameRequest, sameNs⟩ := isServed
    have isServed : ServedAfter newParams events i c before now s₀ :=
      ⟨inside, isBefore, asked, serves, sameRequest, sameNs⟩
    cases request : c.request with
    | getOrCreateGossiper =>
      simp only [Call.answer, request, Option.some.injEq] at isReply
      rw [(PeerExchange.lookup_getOrCreateGossiper (configured_of_run isBefore) now).2] at isReply
      have advertises : Advertises newParams c.ns s₀ (.loop (.thunk now)) (s₀.exchange.renewed newParams c.ns now) :=
        ⟨i, asked, now, serves, sameRequest.trans request, sameNs, rfl⟩
      rw [isReply]
      exact ⟨before, now, s₀, _, isServed, (Machine.last_concat isBefore).mpr (.inl advertises)⟩
    | getGossiper =>
      simp only [Call.answer, request] at isReply
      obtain ⟨ad, isAd, rfl⟩ := Option.map_eq_some_iff.mp isReply.symm
      exact ⟨before, now, s₀, ad.deadline, isServed, (advertiser_iff isBefore).mp isAd⟩
  · obtain ⟨before, now, s₀, isServed, isReply⟩ := served none (notFound isNotFound)
    cases request : c.request with
    | getOrCreateGossiper =>
      simp only [Call.answer, request, reduceCtorEq] at isReply
    | getGossiper =>
      simp only [Call.answer, request] at isReply
      refine ⟨rfl, before, now, s₀, isServed, fun ad last => ?_⟩
      rw [← advertiser_iff isServed.2.1, Option.map_eq_none_iff.mp isReply.symm] at last
      cases last

/-- A namespace is advertised and then asked for. -/
def askedAfter : List Event :=
  [.start 0 .getOrCreateGossiper [97], .call 0 .send, .loop (.thunk 5), .start 1 .getGossiper [97], .call 1 .send,
    .loop (.tick [([97], 6)]), .loop (.thunk 7), .call 1 .receive]

theorem found_while_advertised_asked : ∃ s c g, (machine fun _ => defaultGossipConfig).run askedAfter = some s ∧
    s.calls 1 = some c ∧ c.phase = .returned (.ok g) ∧ ∃ before now s₀ deadline,
      ServedAfter (fun _ => defaultGossipConfig) askedAfter 1 c before now s₀ ∧
      (machine fun _ => defaultGossipConfig).Last (Advertises (fun _ => defaultGossipConfig) c.ns) (Drops c.ns)
        (reflected c.request before now) ⟨deadline, g⟩ :=
  ⟨_, _, _, rfl, rfl, rfl, (found_while_advertised rfl rfl rfl).1 _ rfl⟩

end Calls

end Casm.Pex
