import Casm.Lib.Machine
import Casm.Pex.Authentic

namespace Casm.Pex.Find

/-- `limited` of the static addresses. -/
def limited (limit : Int) (ps : List AddrInfo) : List AddrInfo :=
  if 0 < limit ∧ limit < ps.length then ps.take limit.toNat else ps

/-- The two functions that the goroutine of `FindPeers` gets peers from, in this order. -/
inductive Source where
  | cached
  | bootstrap
  deriving DecidableEq

inductive Phase where
  | opening (source : Source)
  | ranging (source : Source)
  | sending (source : Source) (info : AddrInfo)
  | returned

/-- The channel that the goroutine ranges over and whether it is closed, whether the cached
peers were put into it, and all that the bootstrap service has sent. `received` is what
the caller has taken from `out`, which has no buffer. -/
structure State where
  phase : Phase
  chan : List AddrInfo
  closed : Bool
  usesCache : Bool
  supplied : List AddrInfo
  received : List AddrInfo
  ctxDone : Bool
  pxDone : Bool

/-- The first four are not the goroutine's own. -/
inductive Event where
  | cancel
  | close
  | supply (info : AddrInfo)
  | exhaust
  | call (ok : Bool)
  | next
  | deliver
  | skip
  | quit

/-- What comes after a source. -/
def Source.after : Source → Phase
  | .cached => .opening .bootstrap
  | .bootstrap => .returned

namespace State

/-- The static channel is filled and closed at once. That of the bootstrap service is
filled and closed by the service. -/
def openSource (s : State) (cache : List AddrInfo) : Source → State
  | .cached => { s with phase := .ranging .cached, chan := cache, closed := true, usesCache := true }
  | .bootstrap => { s with phase := .ranging .bootstrap, chan := [], closed := false }

/-- The bootstrap service still has its channel. -/
def serving (s : State) : Bool :=
  match s.phase with
  | .ranging .bootstrap | .sending .bootstrap _ => !s.closed
  | _ => false

/-- One more turn of the loop over a channel. -/
def range (s : State) (source : Source) : Option State :=
  match s.chan with
  | info :: rest => some { s with phase := .sending source info, chan := rest }
  | [] => if s.closed then some { s with phase := source.after } else none

def step (s : State) (cache : List AddrInfo) : Event → Option State
  | .cancel => some { s with ctxDone := true }
  | .close => some { s with pxDone := true }
  | .supply info =>
    if s.serving then some { s with chan := s.chan ++ [info], supplied := s.supplied ++ [info] } else none
  | .exhaust => if s.serving then some { s with closed := true } else none
  | .call ok =>
    match s.phase with
    | .opening source => some (if ok then s.openSource cache source else { s with phase := source.after })
    | _ => none
  | .next =>
    match s.phase with
    | .ranging source => s.range source
    | _ => none
  | .deliver =>
    match s.phase with
    | .sending source info => some { s with phase := .ranging source, received := s.received ++ [info] }
    | _ => none
  -- the end of the context only drops the peer
  | .skip =>
    match s.phase with
    | .sending source _ => if s.ctxDone then some { s with phase := .ranging source } else none
    | _ => none
  | .quit =>
    match s.phase with
    | .sending _ _ => if s.pxDone then some { s with phase := .returned } else none
    | _ => none

/-- What the sources have offered so far: the cached peers, then those of the service. -/
def offered (s : State) (cache : List AddrInfo) : List AddrInfo :=
  (if s.usesCache then cache else []) ++ s.supplied

/-- The peers on their way to the caller. -/
def pending (s : State) : List AddrInfo :=
  match s.phase with
  | .ranging _ => s.chan
  | .sending _ info => info :: s.chan
  | _ => []

end State

/-- The goroutine of `FindPeers`, with the cached peers and the options of the caller. -/
def machine (limit : Int) (cache : List AddrInfo) : Machine State Event where
  start := ⟨.opening .cached, [], false, false, [], [], false, false⟩
  step s e := s.step (limited limit cache) e

section Runs

variable {limit : Int} {cache : List AddrInfo} {s s' : State} {e : Event} {events : List Event}

/-- Nothing is handed out that was not offered, or in another order. Without cancellation
nothing is lost. -/
structure Kept (cache : List AddrInfo) (s : State) : Prop where
  fresh : s.phase = .opening .cached → s.usesCache = false ∧ s.supplied = []
  order : (s.received ++ s.pending).Sublist (s.offered cache)
  all : s.ctxDone = false → s.pxDone = false → s.received ++ s.pending = s.offered cache

theorem Source.after_ne (source : Source) : source.after ≠ .opening .cached := by
  cases source
  · exact nofun
  · exact nofun

theorem pending_after (source : Source) (phase : s.phase = source.after) : s.pending = [] := by
  rw [State.pending, phase]
  cases source
  · rfl
  · rfl

/-- A step that only moves peers on. -/
theorem Kept.moved (kept : Kept cache s) (fresh : s'.phase = .opening .cached → s'.usesCache = false ∧ s'.supplied = [])
    (same : s'.received ++ s'.pending = s.received ++ s.pending) (offered : s'.offered cache = s.offered cache)
    (ctx : s'.ctxDone = false → s.ctxDone = false) (px : s'.pxDone = false → s.pxDone = false) : Kept cache s' where
  fresh := fresh
  order := by
    rw [same, offered]
    exact kept.order
  all ctxOpen pxOpen := by
    rw [same, offered]
    exact kept.all (ctx ctxOpen) (px pxOpen)

/-- A step that drops the peer that is being sent. -/
theorem Kept.dropped (kept : Kept cache s) {source : Source} {info : AddrInfo} (phase : s.phase = .sending source info)
    (begun : s'.phase ≠ .opening .cached) (received : s'.received = s.received) (pending : s'.pending.Sublist s.chan)
    (offered : s'.offered cache = s.offered cache) (cancelled : s'.ctxDone = true ∨ s'.pxDone = true) :
    Kept cache s' where
  fresh isFresh := absurd isFresh begun
  order := by
    have whole : s.pending = info :: s.chan := by rw [State.pending, phase]
    rw [offered, received]
    refine List.Sublist.trans ?_ kept.order
    rw [whole]
    exact (pending.cons info).append_left _
  all ctxOpen pxOpen := by
    rcases cancelled with isDone | isDone
    · cases ctxOpen.symm.trans isDone
    · cases pxOpen.symm.trans isDone

theorem Kept.range (kept : Kept cache s) {source : Source} (phase : s.phase = .ranging source)
    (step : s.range source = some s') : Kept cache s' := by
  have before : s.pending = s.chan := by rw [State.pending, phase]
  rw [State.range] at step
  split at step
  · rename_i info rest chan
    cases step
    exact kept.moved nofun (by rw [before, chan]; rfl) rfl id id
  · rename_i chan
    obtain ⟨_, isNext⟩ := Option.ite_none_right_eq_some.mp step
    cases isNext
    refine kept.moved (fun phase => absurd phase source.after_ne) ?_ rfl id id
    rw [before, chan, pending_after source rfl]

theorem Kept.supply (kept : Kept cache s) (serving : s.serving = true) (info : AddrInfo) :
    Kept cache { s with chan := s.chan ++ [info], supplied := s.supplied ++ [info] } := by
  have more : State.pending { s with chan := s.chan ++ [info], supplied := s.supplied ++ [info] } =
      s.pending ++ [info] := by
    rw [State.serving] at serving
    split at serving
    · rename_i phase
      simp only [State.pending, phase]
    · rename_i phase
      simp only [State.pending, phase, List.cons_append]
    · cases serving
  have offers : State.offered { s with chan := s.chan ++ [info], supplied := s.supplied ++ [info] } cache =
      s.offered cache ++ [info] := (List.append_assoc ..).symm
  refine ⟨fun phase => ?_, ?_, fun ctxOpen pxOpen => ?_⟩
  · rw [State.serving, show s.phase = _ from phase] at serving
    cases serving
  · rw [more, offers, ← List.append_assoc]
    exact kept.order.append_right _
  · rw [more, offers, ← List.append_assoc, kept.all ctxOpen pxOpen]

theorem Kept.call (kept : Kept cache s) {source : Source} (phase : s.phase = .opening source) :
    Kept cache (s.openSource cache source) := by
  have nothing : s.pending = [] := by rw [State.pending, phase]
  cases source with
  | cached =>
    obtain ⟨unused, unsupplied⟩ := kept.fresh phase
    have offers : (s.openSource cache .cached).offered cache = s.offered cache ++ cache := by
      simp [State.offered, State.openSource, unused, unsupplied]
    have order := kept.order
    rw [nothing, List.append_nil] at order
    refine ⟨nofun, ?_, fun ctxOpen pxOpen => ?_⟩
    · rw [offers]
      exact order.append_right cache
    · have all := kept.all ctxOpen pxOpen
      rw [nothing, List.append_nil] at all
      rw [offers, ← all]
      rfl
  | bootstrap => exact kept.moved nofun (by rw [nothing]; rfl) rfl id id

theorem Kept.step (kept : Kept cache s) (step : s.step cache e = some s') : Kept cache s' := by
  cases e with
  | cancel =>
    cases step
    exact kept.moved kept.fresh rfl rfl nofun id
  | close =>
    cases step
    exact kept.moved kept.fresh rfl rfl id nofun
  | supply info =>
    obtain ⟨serving, isNext⟩ := Option.ite_none_right_eq_some.mp step
    cases isNext
    exact kept.supply serving info
  | exhaust =>
    obtain ⟨serving, isNext⟩ := Option.ite_none_right_eq_some.mp step
    cases isNext
    refine kept.moved (fun phase => ?_) rfl rfl id id
    rw [State.serving, show s.phase = _ from phase] at serving
    cases serving
  | call ok =>
    rw [State.step] at step
    split at step
    · rename_i source phase
      cases step
      cases ok with
      | true => exact kept.call phase
      | false =>
        have nothing : s.pending = [] := by rw [State.pending, phase]
        refine kept.moved (fun phase => absurd phase source.after_ne) ?_ rfl id id
        rw [nothing, pending_after source rfl]
        rfl
    · cases step
  | next =>
    rw [State.step] at step
    split at step
    · rename_i source phase
      exact kept.range phase step
    · cases step
  | deliver =>
    rw [State.step] at step
    split at step
    · rename_i source info phase
      cases step
      have before : s.pending = info :: s.chan := by rw [State.pending, phase]
      exact kept.moved nofun (by rw [before]; exact List.append_assoc ..) rfl id id
    · cases step
  | skip =>
    rw [State.step] at step
    split at step
    · rename_i source info phase
      obtain ⟨isDone, isNext⟩ := Option.ite_none_right_eq_some.mp step
      cases isNext
      exact kept.dropped phase nofun rfl (List.Sublist.refl _) rfl (.inl isDone)
    · cases step
  | quit =>
    rw [State.step] at step
    split at step
    · rename_i source info phase
      obtain ⟨isDone, isNext⟩ := Option.ite_none_right_eq_some.mp step
      cases isNext
      exact kept.dropped phase nofun rfl (List.nil_sublist _) rfl (.inr isDone)
    · cases step

theorem kept_invariant (limit : Int) (cache : List AddrInfo) :
    (machine limit cache).Invariant (Kept (limited limit cache)) where
  start := ⟨fun _ => ⟨rfl, rfl⟩, List.nil_sublist _, fun _ _ => rfl⟩
  step _ _ _ kept step := kept.step step

/-- The caller of `FindPeers` receives what the sources have offered, in their order: the
cached peers up to the limit, if they could be used, and then all those of the bootstrap
service, to which the limit does not apply. Peers are lost only when the context was
cancelled or the exchange closed. -/
theorem find_hands_out_offered (reached : (machine limit cache).run events = some s) :
    s.received.Sublist (s.offered (limited limit cache)) ∧
      (s.ctxDone = false → s.pxDone = false → s.received ++ s.pending = s.offered (limited limit cache)) ∧
      (s.phase = .returned → s.ctxDone = false → s.pxDone = false → s.received = s.offered (limited limit cache)) := by
  have kept := (kept_invariant limit cache).run reached
  refine ⟨(List.sublist_append_left ..).trans kept.order, kept.all, fun phase ctxOpen pxOpen => ?_⟩
  have all := kept.all ctxOpen pxOpen
  rwa [State.pending, phase, List.append_nil] at all

/-- Two peers are cached, one of them is within the limit, and the service supplies one more. -/
def supplying : List Event :=
  [.call true, .next, .deliver, .next, .call true, .supply ⟨[3], []⟩, .next, .deliver, .exhaust, .next]

theorem find_hands_out_supplying : ∃ s, (machine 1 [⟨[1], []⟩, ⟨[2], []⟩]).run supplying = some s ∧
    s.phase = .returned ∧ s.received = [⟨[1], []⟩, ⟨[3], []⟩] ∧
    s.received = s.offered (limited 1 [⟨[1], []⟩, ⟨[2], []⟩]) := by
  have ends : ((machine 1 [⟨[1], []⟩, ⟨[2], []⟩]).run supplying).map
      (fun s => (s.phase, s.received, s.ctxDone, s.pxDone)) =
        some (.returned, [⟨[1], []⟩, ⟨[3], []⟩], false, false) := rfl
  obtain ⟨s, reached, same⟩ := Option.map_eq_some_iff.mp ends
  simp only [Prod.mk.injEq] at same
  obtain ⟨phase, received, ctxOpen, pxOpen⟩ := same
  exact ⟨s, reached, phase, received, (find_hands_out_offered reached).2.2 phase ctxOpen pxOpen⟩

end Runs

end Casm.Pex.Find
