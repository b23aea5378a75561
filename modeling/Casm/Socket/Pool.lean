import Casm.Lib.Refinement
import Casm.Socket.Sealer

namespace Casm.Socket.Pool
open CachingSealer (deriveKey)

/-- A goroutine in `Write`: its call of `Seal` has found nothing in the cache, or has
returned a buffer that `WriteTo` has not read yet. -/
inductive Writer where
  | idle
  | sealing (r : Record) (key : UInt64)
  | holding (r : Record) (b : Nat)

/-- The buffers by number, with their contents. They are in the pool, taken from it, or in
the cache of the sealer. `wire` is what was written for which record. -/
structure State where
  heap : Nat → List UInt8
  pool : List Nat
  taken : List Nat
  cache : AList fun _ : UInt64 => Nat
  writer : Nat → Writer
  wire : List (Record × List UInt8)

/-- The steps of the writers, with the number of the slice that `MarshalRecord` or `Marshal`
returns, and what the cache and the pool may do at any time: the cache drops an entry, and
the pool hands a buffer out, takes it back, and lets anything be written to what it was
given, so that it does not matter whether `Put` clears a buffer. -/
inductive Event (W : Envelopes) where
  | find (i : Nat) (r : Record) (b : Nat)
  | make (i : Nat) (env : Setting W) (b : Nat) (callback : Bool)
  | write (i : Nat)
  | evict (key : UInt64)
  | purge
  | take (b : Nat)
  | give (b : Nat)
  | scribble (b : Nat) (bytes : List UInt8)

namespace State

def new : State where
  heap _ := []
  pool := []
  taken := []
  cache := ∅
  writer _ := .idle
  wire := []

def fill (s : State) (b : Nat) (bytes : List UInt8) : State :=
  { s with heap := Function.update s.heap b bytes }

def put (s : State) (b : Nat) : State :=
  { s with pool := b :: s.pool }

def setWriter (s : State) (i : Nat) (w : Writer) : State :=
  { s with writer := Function.update s.writer i w }

/-- Without a hash of its own the record is marshaled for its key, and the bytes are given
to the pool. -/
def donate (s : State) (r : Record) (b : Nat) : State :=
  match r.hash, r.marshalRecord with
  | none, .ok payload => (s.fill b payload).put b
  | _, _ => s

/-- The callback of the cache gives the buffer to the pool. -/
def evict (s : State) (key : UInt64) : Option State :=
  (s.cache.lookup key).map fun b => { s with cache := s.cache.erase key, pool := b :: s.pool }

/-- `Add`. It is left to the cache whether the callback gets a value that is replaced. -/
def add (s : State) (key : UInt64) (b : Nat) (callback : Bool) : State :=
  { s with
    cache := s.cache.insert key b
    pool := (if callback then (s.cache.lookup key).toList else []) ++ s.pool }

def cached (s : State) : List Nat :=
  s.cache.entries.map Sigma.snd

/-- The buffers that may be used by others than the writers. -/
def owned (s : State) : List Nat :=
  s.cached ++ (s.pool ++ s.taken)

section Step

variable {W : Envelopes} (sum64 : List UInt8 → UInt64) (marshal : W.Envelope → List UInt8)

/-- The first part of `Seal`. -/
def find (s : State) (i : Nat) (r : Record) (b : Nat) : Option State :=
  match s.writer i with
  | .idle =>
    match deriveKey sum64 r with
    | .error _ => some s
    | .ok key =>
      match s.cache.lookup key with
      | some b' => some ((s.donate r b).setWriter i (.holding r b'))
      | none => some ((s.donate r b).setWriter i (.sealing r key))
  | _ => none

/-- The second part of `Seal`. -/
def make (s : State) (i : Nat) (env : Setting W) (b : Nat) (callback : Bool) : Option State :=
  match s.writer i with
  | .sealing r key =>
    match env.signer.seals r with
    | .error _ => some (s.setWriter i .idle)
    | .ok e =>
      match attempt env.marshal with
      | .error _ => some (s.setWriter i .idle)
      | .ok _ => some (((s.fill b (marshal e)).add key b callback).setWriter i (.holding r b))
  | _ => none

def step (s : State) : Event W → Option State
  | .find i r b => s.find sum64 i r b
  | .make i env b callback => s.make marshal i env b callback
  | .write i =>
    match s.writer i with
    | .holding r b => some { s.setWriter i .idle with wire := s.wire ++ [(r, s.heap b)] }
    | _ => none
  | .evict key => s.evict key
  | .purge => some { s with pool := s.cached ++ s.pool, cache := ∅ }
  | .take b => if s.pool.contains b then some { s with pool := s.pool.erase b, taken := b :: s.taken } else none
  | .give b => if s.taken.contains b then some ({ s with taken := s.taken.erase b }.put b) else none
  | .scribble b bytes => if (s.pool ++ s.taken).contains b then some (s.fill b bytes) else none

end Step

end State

section Machine

variable {W : Envelopes} (sum64 : List UInt8 → UInt64) (marshal : W.Envelope → List UInt8)

def machine : Machine State (Event W) where
  start := .new
  step s e := s.step sum64 marshal e

/-- The calls of the sealer that the steps are, where an envelope is a value. -/
def calls (s : State) : Event W → List (Call × Setting W)
  | .find i r _ =>
    match s.writer i, deriveKey sum64 r with
    | .idle, .ok key => if (s.cache.lookup key).isSome then [(.sealing r, hitting W)] else []
    | _, _ => []
  | .make i env _ _ =>
    match s.writer i with
    | .sealing r _ => [(.sealing r, { env with hit := false })]
    | _ => []
  | .purge => [(.purge, hitting W)]
  | _ => []

/-- Nobody uses the buffer. -/
def Unused (s : State) (b : Nat) : Prop :=
  b ∉ s.owned ∧ ∀ i r, s.writer i ≠ .holding r b

/-- The slice that `MarshalRecord`, where it is called for a key, or `Marshal` returns. -/
def Event.slice : Event W → Option Nat
  | .find _ r b => if r.hash.isNone then some b else none
  | .make _ _ b _ => some b
  | _ => none

/-- What is marshaled is in a slice of its own. -/
def Fresh (s : State) (e : Event W) : Prop :=
  ∀ b, e.slice = some b → Unused s b

/-- What the callback of the cache gives to the pool. -/
def returned (s : State) : Event W → List Nat
  | .evict key => (s.cache.lookup key).toList
  | .purge => s.cached
  | .make i _ _ true =>
    match s.writer i with
    | .sealing _ key => (s.cache.lookup key).toList
    | _ => []
  | _ => []

/-- The cache drops no buffer that a writer holds. -/
def Undisturbed (s : State) (e : Event W) : Prop :=
  ∀ b ∈ returned s e, ∀ i r, s.writer i ≠ .holding r b

end Machine

section Moves

variable {W : Envelopes} {sum64 : List UInt8 → UInt64} {marshal : W.Envelope → List UInt8} {s s' : State}

variable (sum64 marshal s) in
/-- What a step can do. The two parts of `Seal` say what they return of a sealer on values. -/
inductive Moves : Event W → State → Prop
  | refused {i : Nat} {r : Record} {b : Nat} {msg : String} : s.writer i = .idle → deriveKey sum64 r = .error msg →
      Moves (.find i r b) s
  | found {i : Nat} {r : Record} {b : Nat} {key : UInt64} {b' : Nat} : s.writer i = .idle →
      deriveKey sum64 r = .ok key → s.cache.lookup key = some b' →
      Moves (.find i r b) ((s.donate r b).setWriter i (.holding r b'))
  | missed {i : Nat} {r : Record} {b : Nat} {key : UInt64} : s.writer i = .idle → deriveKey sum64 r = .ok key →
      s.cache.lookup key = none → Moves (.find i r b) ((s.donate r b).setWriter i (.sealing r key))
  | failed {i : Nat} {env : Setting W} {b : Nat} {callback : Bool} {r : Record} {key : UInt64} {msg : String} :
      s.writer i = .sealing r key → (∀ c : CachingSealer W, c.store env key r = (.error msg, c)) →
      Moves (.make i env b callback) (s.setWriter i .idle)
  | made {i : Nat} {env : Setting W} {b : Nat} {callback : Bool} {r : Record} {key : UInt64} {e : W.Envelope} :
      s.writer i = .sealing r key →
      (∀ c : CachingSealer W, c.store env key r = (.ok e, Function.update c key (some e))) →
      Moves (.make i env b callback) (((s.fill b (marshal e)).add key b callback).setWriter i (.holding r b))
  | written {i : Nat} {r : Record} {b : Nat} : s.writer i = .holding r b →
      Moves (.write i) { s.setWriter i .idle with wire := s.wire ++ [(r, s.heap b)] }
  | evicted {key : UInt64} {b : Nat} : s.cache.lookup key = some b →
      Moves (.evict key) { s with cache := s.cache.erase key, pool := b :: s.pool }
  | purged : Moves .purge { s with pool := s.cached ++ s.pool, cache := ∅ }
  | taken {b : Nat} : b ∈ s.pool → Moves (.take b) { s with pool := s.pool.erase b, taken := b :: s.taken }
  | given {b : Nat} : b ∈ s.taken → Moves (.give b) ({ s with taken := s.taken.erase b }.put b)
  | scribbled {b : Nat} {bytes : List UInt8} : b ∈ s.pool ++ s.taken → Moves (.scribble b bytes) (s.fill b bytes)

theorem moves_of_find {i : Nat} {r : Record} {b : Nat} (step : s.find sum64 i r b = some s') :
    Moves sum64 marshal s (.find i r b) s' := by
  rw [State.find] at step
  split at step
  next idle =>
    split at step
    next failed =>
      cases step
      exact .refused idle failed
    next key derived =>
      split at step
      next b found =>
        cases step
        exact .found idle derived found
      next missing =>
        cases step
        exact .missed idle derived missing
  next => cases step

theorem moves_of_make {i : Nat} {env : Setting W} {b : Nat} {callback : Bool}
    (step : s.make marshal i env b callback = some s') : Moves sum64 marshal s (.make i env b callback) s' := by
  rw [State.make] at step
  split at step
  next r key sealing =>
    split at step
    next msg failed =>
      have stored (c : CachingSealer W) : c.store env key r = (.error msg, c) := by
        rw [CachingSealer.store, failed]
      cases step
      exact .failed sealing stored
    next e made =>
      split at step
      next msg failed =>
        have stored (c : CachingSealer W) : c.store env key r = (.error msg, c) := by
          rw [CachingSealer.store, made]
          simp only [failed]
        cases step
        exact .failed sealing stored
      next marshaled =>
        have stored (c : CachingSealer W) : c.store env key r = (.ok e, Function.update c key (some e)) := by
          rw [CachingSealer.store, made]
          simp only [marshaled]
        cases step
        exact .made sealing stored
  next => cases step

theorem moves_of_step {e : Event W} (step : s.step sum64 marshal e = some s') : Moves sum64 marshal s e s' := by
  cases e with
  | find i r b => exact moves_of_find step
  | make i env b callback => exact moves_of_make step
  | write i =>
    rw [State.step] at step
    split at step
    next r b holding =>
      cases step
      exact .written holding
    next => cases step
  | evict key =>
    obtain ⟨b, found, rfl⟩ := Option.map_eq_some_iff.mp step
    exact .evicted found
  | purge =>
    cases step
    exact .purged
  | take b =>
    obtain ⟨member, isNext⟩ := Option.ite_none_right_eq_some.mp step
    cases isNext
    exact .taken (List.contains_iff_mem.mp member)
  | give b =>
    obtain ⟨member, isNext⟩ := Option.ite_none_right_eq_some.mp step
    cases isNext
    exact .given (List.contains_iff_mem.mp member)
  | scribble b bytes =>
    obtain ⟨member, isNext⟩ := Option.ite_none_right_eq_some.mp step
    cases isNext
    exact .scribbled (List.contains_iff_mem.mp member)

end Moves

section Ownership

variable {W : Envelopes} {sum64 : List UInt8 → UInt64} {marshal : W.Envelope → List UInt8} {s s' : State} {e : Event W}

theorem mem_cached {key : UInt64} {b : Nat} (found : s.cache.lookup key = some b) : b ∈ s.cached :=
  List.mem_map.mpr ⟨⟨key, b⟩, List.of_mem_dlookup found, rfl⟩

/-- The entry of a key, taken out of the cache. -/
theorem cached_perm {cache : AList fun _ : UInt64 => Nat} {k : UInt64} {b : Nat} (found : cache.lookup k = some b) :
    (cache.entries.map Sigma.snd).Perm (b :: (cache.erase k).entries.map Sigma.snd) := by
  have member : (⟨k, b⟩ : Sigma fun _ : UInt64 => Nat) ∈ cache.entries := List.of_mem_dlookup found
  obtain ⟨b', front, back, _, whole, erased⟩ := List.exists_of_kerase (List.mem_keys_of_mem member)
  have same : b' = b := by
    have found' := List.mem_dlookup cache.nodupKeys (show (⟨k, b'⟩ : Sigma fun _ : UInt64 => Nat) ∈ cache.entries by
      rw [whole]
      simp)
    exact Option.some.inj (found'.symm.trans found)
  have rest : (cache.erase k).entries = front ++ back := erased
  rw [whole, rest, same, List.map_append, List.map_append, List.map_cons]
  exact List.perm_middle

theorem owned_donate (r : Record) (i b : Nat) :
    (s.donate r b).owned.Subperm ((Event.find (W := W) i r b).slice.toList ++ s.owned) := by
  rw [State.donate]
  split
  next isHash _ =>
    simp only [Event.slice, isHash, Option.isNone_none, if_true, Option.toList_some]
    exact List.Perm.subperm List.perm_middle
  next => exact (List.sublist_append_right _ _).subperm

/-- A replaced value goes to the pool, or is nobody's. -/
theorem owned_add (bytes : List UInt8) (key : UInt64) (b : Nat) (callback : Bool) :
    ((s.fill b bytes).add key b callback).owned.Subperm (b :: s.owned) := by
  refine (List.subperm_cons b).mpr ?_
  have kept : ((s.cache.erase key).entries.map Sigma.snd).Sublist s.cached :=
    (List.kerase_sublist key s.cache.entries).map Sigma.snd
  cases callback with
  | false => exact (kept.append_right _).subperm
  | true =>
    cases found : s.cache.lookup key with
    | none =>
      have same : (s.fill b bytes).cache.lookup key = none := found
      simp only [State.add, same]
      exact (kept.append_right _).subperm
    | some b' =>
      have same : (s.fill b bytes).cache.lookup key = some b' := found
      simp only [State.add, same]
      exact List.Perm.subperm (List.perm_middle.trans ((cached_perm found).symm.append_right _))

/-- A step moves buffers from one place to another, and may bring in a new slice. -/
theorem Moves.owned_subperm (moves : Moves sum64 marshal s e s') : s'.owned.Subperm (e.slice.toList ++ s.owned) := by
  cases moves with
  | refused => exact (List.sublist_append_right _ _).subperm
  | found => exact owned_donate ..
  | missed => exact owned_donate ..
  | failed => exact (List.sublist_append_right _ _).subperm
  | made => exact owned_add ..
  | written => exact List.Subperm.refl _
  | evicted found => exact List.Perm.subperm (List.perm_middle.trans ((cached_perm found).symm.append_right _))
  | purged => exact List.Perm.subperm (List.Perm.of_eq (List.append_assoc ..))
  | taken member =>
    refine List.Perm.subperm (List.Perm.append_left _ ?_)
    exact List.perm_middle.trans ((List.perm_cons_erase member).symm.append_right _)
  | given member =>
    refine List.Perm.subperm (List.Perm.append_left _ ?_)
    exact List.perm_middle.symm.trans ((List.perm_cons_erase member).symm.append_left _)
  | scribbled => exact List.Subperm.refl _

/-- Every buffer has one place: nobody gets a buffer that is in use, and none is given
back twice. -/
def Owned (s : State) : Prop :=
  s.owned.Nodup

theorem Owned.step (owned : Owned s) (fresh : Fresh s e) (moves : Moves sum64 marshal s e s') : Owned s' := by
  obtain ⟨l, perm, sublist⟩ := moves.owned_subperm
  refine perm.nodup_iff.mp (sublist.nodup ?_)
  cases isSlice : e.slice with
  | none => exact owned
  | some b => exact List.nodup_cons.mpr ⟨(fresh b isSlice).1, owned⟩

/-- All buffers in use are slices that were marshaled. -/
structure Known (slices : List Nat) (s : State) : Prop where
  owned : ∀ b ∈ s.owned, b ∈ slices
  held : ∀ i r b, s.writer i = .holding r b → b ∈ slices

/-- What a writer holds after a step it held before, or has found in the cache, or made. -/
theorem Moves.held (moves : Moves sum64 marshal s e s') {i b : Nat} {r : Record}
    (holding : s'.writer i = .holding r b) :
    s.writer i = .holding r b ∨ b ∈ s.cached ∨ e.slice = some b := by
  have donated (r : Record) (b : Nat) : (s.donate r b).writer = s.writer := by
    rw [State.donate]
    split
    · rfl
    · rfl
  cases moves with
  | found idle derived found =>
    rcases Function.update_cases holding with ⟨_, same⟩ | ⟨_, before⟩
    · cases same
      exact .inr (.inl (mem_cached found))
    · rw [donated] at before
      exact .inl before
  | missed =>
    rcases Function.update_cases holding with ⟨_, same⟩ | ⟨_, before⟩
    · cases same
    · rw [donated] at before
      exact .inl before
  | failed =>
    rcases Function.update_cases holding with ⟨_, same⟩ | ⟨_, before⟩
    · cases same
    · exact .inl before
  | made =>
    rcases Function.update_cases holding with ⟨_, same⟩ | ⟨_, before⟩
    · cases same
      exact .inr (.inr rfl)
    · exact .inl before
  | written =>
    rcases Function.update_cases holding with ⟨_, same⟩ | ⟨_, before⟩
    · cases same
    · exact .inl before
  | refused => exact .inl holding
  | evicted => exact .inl holding
  | purged => exact .inl holding
  | taken => exact .inl holding
  | given => exact .inl holding
  | scribbled => exact .inl holding

theorem Known.step {slices : List Nat} (known : Known slices s) (moves : Moves sum64 marshal s e s') :
    Known (slices ++ e.slice.toList) s' where
  owned b member := by
    rcases List.mem_append.mp (moves.owned_subperm.subset member) with new | old
    · exact List.mem_append_right _ new
    · exact List.mem_append_left _ (known.owned b old)
  held i r b holding := by
    rcases moves.held holding with before | isCached | new
    · exact List.mem_append_left _ (known.held i r b before)
    · exact List.mem_append_left _ (known.owned b (List.mem_append_left _ isCached))
    · exact List.mem_append_right _ (Option.mem_toList.mpr new)

end Ownership

section Intact

variable {W : Envelopes} {sum64 : List UInt8 → UInt64} {marshal : W.Envelope → List UInt8} {value : CachingSealer W}
  {s s' : State} {i b : Nat} {r : Record} {key : UInt64}

/-- The buffers of the cache hold what the cache would hold as values, and those of the
writers hold an envelope of the record they write and are not in the hands of others. -/
structure Intact (sum64 : List UInt8 → UInt64) (marshal : W.Envelope → List UInt8) (value : CachingSealer W)
    (s : State) : Prop where
  owned : Owned s
  agree : ∀ key b, s.cache.lookup key = some b → ∃ e, value key = some e ∧ s.heap b = marshal e
  derived : ∀ i r key, s.writer i = .sealing r key → deriveKey sum64 r = .ok key
  held : ∀ i r b, s.writer i = .holding r b → b ∉ s.pool ++ s.taken ∧ ∃ e, W.Holds e r ∧ s.heap b = marshal e
  written : ∀ r bytes, (r, bytes) ∈ s.wire → ∃ e, W.Holds e r ∧ bytes = marshal e

theorem Owned.cached_apart (owned : Owned s) (found : s.cache.lookup key = some b) : b ∉ s.pool ++ s.taken := by
  intro member
  exact (List.nodup_append.mp owned).2.2 b (mem_cached found) b member rfl

/-- A step that touches neither the cache nor the writers, and only buffers of others. -/
theorem Intact.frame (intact : Intact sum64 marshal value s) (owned : Owned s') (cache : s'.cache = s.cache)
    (writer : s'.writer = s.writer) (wire : s'.wire = s.wire)
    (others : ∀ b, b ∉ s.pool ++ s.taken → (∀ i r, s.writer i = .holding r b → b ∉ s'.pool ++ s'.taken) ∧
      ((∃ key, s.cache.lookup key = some b) ∨ (∃ i r, s.writer i = .holding r b) → s'.heap b = s.heap b)) :
    Intact sum64 marshal value s' where
  owned := owned
  agree key b found := by
    rw [cache] at found
    rw [(others b (intact.owned.cached_apart found)).2 (.inl ⟨key, found⟩)]
    exact intact.agree key b found
  derived := writer ▸ intact.derived
  held i r b holding := by
    rw [writer] at holding
    obtain ⟨apart, isHeld⟩ := intact.held i r b holding
    obtain ⟨apart', same⟩ := others b apart
    rw [same (.inr ⟨i, r, holding⟩)]
    exact ⟨apart' i r holding, isHeld⟩
  written := wire ▸ intact.written

theorem Intact.setWriter (intact : Intact sum64 marshal value s) {w : Writer}
    (derived : ∀ r key, w = .sealing r key → deriveKey sum64 r = .ok key)
    (held : ∀ r b, w = .holding r b → b ∉ s.pool ++ s.taken ∧ ∃ e, W.Holds e r ∧ s.heap b = marshal e) :
    Intact sum64 marshal value (s.setWriter i w) where
  owned := intact.owned
  agree := intact.agree
  derived j r key sealing := by
    rcases Function.update_cases sealing with ⟨_, isNew⟩ | ⟨_, before⟩
    · exact derived r key isNew
    · exact intact.derived j r key before
  held j r b holding := by
    rcases Function.update_cases holding with ⟨_, isNew⟩ | ⟨_, before⟩
    · exact held r b isNew
    · exact intact.held j r b before
  written := intact.written

theorem Intact.release (intact : Intact sum64 marshal value s) : Intact sum64 marshal value (s.setWriter i .idle) :=
  intact.setWriter (by rintro _ _ ⟨⟩) (by rintro _ _ ⟨⟩)

theorem Intact.donate (intact : Intact sum64 marshal value s) (fresh : Fresh s (.find (W := W) i r b))
    (owned : Owned (s.donate r b)) : Intact sum64 marshal value (s.donate r b) := by
  rw [State.donate] at owned ⊢
  split
  next isHash isPayload =>
    obtain ⟨unowned, unheld⟩ := fresh b (by simp [Event.slice, isHash])
    simp only [isHash, isPayload] at owned
    refine intact.frame owned rfl rfl rfl fun b' apart => ⟨fun j r' holding => ?_, fun used => ?_⟩
    · have other : b' ≠ b := fun same => unheld j r' (same ▸ holding)
      exact List.not_mem_cons_of_ne_of_not_mem other apart
    · refine Function.update_of_ne ?_ ..
      rintro rfl
      rcases used with ⟨key, found⟩ | ⟨j, r', holding⟩
      · exact unowned (List.mem_append_left _ (mem_cached found))
      · exact unheld j r' holding
  next => exact intact

theorem Intact.evict (intact : Intact sum64 marshal value s) (unheld : ∀ i r, s.writer i ≠ .holding r b)
    (owned : Owned { s with cache := s.cache.erase key, pool := b :: s.pool }) :
    Intact sum64 marshal value { s with cache := s.cache.erase key, pool := b :: s.pool } := by
  refine ⟨owned, fun key' b' found' => ?_, intact.derived, fun j r b' holding => ?_, intact.written⟩
  · have other : key' ≠ key := by
      rintro rfl
      rw [AList.lookup_erase] at found'
      cases found'
    rw [AList.lookup_erase_ne other] at found'
    exact intact.agree key' b' found'
  · obtain ⟨apart, isHeld⟩ := intact.held j r b' holding
    exact ⟨List.not_mem_cons_of_ne_of_not_mem (fun same => unheld j r (same ▸ holding)) apart, isHeld⟩

theorem Intact.purge (intact : Intact sum64 marshal value s) (value' : CachingSealer W)
    (unheld : ∀ b ∈ s.cached, ∀ i r, s.writer i ≠ .holding r b)
    (owned : Owned { s with pool := s.cached ++ s.pool, cache := ∅ }) :
    Intact sum64 marshal value' { s with pool := s.cached ++ s.pool, cache := ∅ } := by
  refine ⟨owned, fun key b found => ?_, intact.derived, fun j r b holding => ?_, intact.written⟩
  · rw [AList.lookup_empty] at found
    cases found
  · obtain ⟨apart, isHeld⟩ := intact.held j r b holding
    refine ⟨fun member => ?_, isHeld⟩
    rw [List.append_assoc] at member
    rcases List.mem_append.mp member with isCached | other
    · exact unheld b isCached j r holding
    · exact apart other

/-- A new envelope is put into the cache, in place of the old one of its key. -/
theorem Intact.add (intact : Intact sum64 marshal value s) (key : UInt64) (e : W.Envelope) (unused : Unused s b)
    {callback : Bool}
    (unheld : callback = true → ∀ b', s.cache.lookup key = some b' → ∀ i r, s.writer i ≠ .holding r b')
    (owned : Owned ((s.fill b (marshal e)).add key b callback)) :
    Intact sum64 marshal (Function.update value key (some e)) ((s.fill b (marshal e)).add key b callback) where
  owned := owned
  agree key' b' found := by
    by_cases same : key' = key
    · subst same
      rw [State.add, AList.lookup_insert] at found
      cases found
      exact ⟨e, Function.update_self .., Function.update_self ..⟩
    · rw [State.add, AList.lookup_insert_ne same] at found
      obtain ⟨e', known, content⟩ := intact.agree key' b' found
      have other : b' ≠ b := by
        rintro rfl
        exact unused.1 (List.mem_append_left _ (mem_cached found))
      exact ⟨e', (Function.update_of_ne same ..).trans known, (Function.update_of_ne other ..).trans content⟩
  derived := intact.derived
  held j r b' holding := by
    obtain ⟨apart, e', holds, content⟩ := intact.held j r b' holding
    have other : b' ≠ b := by
      rintro rfl
      exact unused.2 j r holding
    refine ⟨fun member => ?_, e', holds, (Function.update_of_ne other ..).trans content⟩
    rw [State.add, List.append_assoc] at member
    rcases List.mem_append.mp member with isReplaced | old
    · split at isReplaced
      next isCalled => exact unheld isCalled b' (Option.mem_toList.mp isReplaced) j r holding
      next => cases isReplaced
    · exact apart old
  written := intact.written

theorem cacheAfter_concat (before : List (Call × Setting W)) (call : Call) (env : Setting W) :
    cacheAfter sum64 (before ++ [(call, env)]) = call.apply sum64 (cacheAfter sum64 before) env := by
  rw [cacheAfter, List.foldl_append]
  rfl

theorem cache_donate (r : Record) (b : Nat) : (s.donate r b).cache = s.cache := by
  rw [State.donate]
  split
  · rfl
  · rfl

variable {before : List (Call × Setting W)}

/-- A writer gets the buffer that the cache has for its key. -/
theorem Intact.find_hit {b' : Nat}
    (derived : deriveKey sum64 r = .ok key) (found : s.cache.lookup key = some b')
    (donated : Intact sum64 marshal (cacheAfter sum64 before) (s.donate r b))
    (faithful : Faithful sum64 (cacheAfter sum64 before) (hitting W) r) :
    Intact sum64 marshal (cacheAfter sum64 (before ++ [(.sealing r, hitting W)]))
      ((s.donate r b).setWriter i (.holding r b')) := by
  have found : (s.donate r b).cache.lookup key = some b' := by rw [cache_donate, found]
  obtain ⟨e, known, content⟩ := donated.agree key b' found
  have hit : CachingSealer.get (hitting W) (cacheAfter sum64 before) key = some e := known
  have result := sealRecord_hit derived hit
  have holds : W.Holds e r := faithful.1 e (congrArg Prod.fst result)
  have same : cacheAfter sum64 (before ++ [(.sealing r, hitting W)]) = cacheAfter sum64 before := by
    rw [cacheAfter_concat, Call.apply, result]
  rw [same]
  refine donated.setWriter (by rintro _ _ ⟨⟩) ?_
  rintro _ _ ⟨⟩
  exact ⟨donated.owned.cached_apart found, e, holds, content⟩

/-- What the second part of `Seal` does is the call on values that finds nothing. -/
theorem Intact.sealRecord_miss (intact : Intact sum64 marshal value s) (sealing : s.writer i = .sealing r key)
    (env : Setting W) : value.sealRecord sum64 { env with hit := false } r = value.store env key r := by
  have missing : CachingSealer.get { env with hit := false } value key = none := rfl
  exact Socket.sealRecord_miss (intact.derived i r key sealing) missing

/-- A writer gets a new buffer, which is then also in the cache. -/
theorem Intact.make (intact : Intact sum64 marshal (cacheAfter sum64 before) s) {env : Setting W} {e : W.Envelope}
    {callback : Bool} (sealing : s.writer i = .sealing r key) (unused : Unused s b)
    (stored : ∀ c : CachingSealer W, c.store env key r = (.ok e, Function.update c key (some e)))
    (faithful : Faithful sum64 (cacheAfter sum64 before) { env with hit := false } r)
    (unheld : callback = true → ∀ b', s.cache.lookup key = some b' → ∀ i r, s.writer i ≠ .holding r b')
    (owned : Owned ((s.fill b (marshal e)).add key b callback)) :
    Intact sum64 marshal (cacheAfter sum64 (before ++ [(.sealing r, { env with hit := false })]))
      (((s.fill b (marshal e)).add key b callback).setWriter i (.holding r b)) := by
  have isCall := intact.sealRecord_miss sealing env
  have holds : W.Holds e r := faithful.1 e (congrArg Prod.fst (isCall.trans (stored _)))
  have added := intact.add key e unused unheld owned
  have isCached : ((s.fill b (marshal e)).add key b callback).cache.lookup key = some b := AList.lookup_insert _
  rw [cacheAfter_concat, Call.apply, isCall, stored]
  refine added.setWriter (by rintro _ _ ⟨⟩) ?_
  rintro _ _ ⟨⟩
  exact ⟨added.owned.cached_apart isCached, e, holds, Function.update_self ..⟩

theorem Intact.write (intact : Intact sum64 marshal value s) (holding : s.writer i = .holding r b) :
    Intact sum64 marshal value { s.setWriter i .idle with wire := s.wire ++ [(r, s.heap b)] } := by
  obtain ⟨owned, agree, derived, held, written⟩ := intact.release (i := i)
  refine ⟨owned, agree, derived, held, fun r' bytes member => ?_⟩
  rcases List.mem_append.mp member with old | new
  · exact written r' bytes old
  · obtain ⟨rfl, rfl⟩ := Prod.mk.inj (List.mem_singleton.mp new)
    exact (intact.held i r' b holding).2

/-- What others do with the buffers that are theirs. -/
theorem Intact.handOver (intact : Intact sum64 marshal value s) {pool taken : List Nat}
    (owned : Owned { s with pool := pool, taken := taken })
    (same : ∀ b, b ∈ pool ++ taken → b ∈ s.pool ++ s.taken) :
    Intact sum64 marshal value { s with pool := pool, taken := taken } :=
  intact.frame owned rfl rfl rfl fun b apart => ⟨fun _ _ _ member => apart (same b member), fun _ => rfl⟩

theorem Intact.scribble (intact : Intact sum64 marshal value s) (member : b ∈ s.pool ++ s.taken)
    (bytes : List UInt8) : Intact sum64 marshal value (s.fill b bytes) := by
  refine intact.frame intact.owned rfl rfl rfl fun b' apart => ⟨fun _ _ _ => apart, fun _ => ?_⟩
  refine Function.update_of_ne ?_ ..
  rintro rfl
  exact apart member

theorem Intact.step {e : Event W} (intact : Intact sum64 marshal (cacheAfter sum64 before) s)
    (faithful : SealsFaithfully sum64 (before ++ calls sum64 s e)) (fresh : Fresh s e) (quiet : Undisturbed s e)
    (moves : Moves sum64 marshal s e s') :
    Intact sum64 marshal (cacheAfter sum64 (before ++ calls sum64 s e)) s' := by
  have owned := intact.owned.step fresh moves
  cases moves with
  | refused idle failed =>
    simp only [calls, idle, failed, List.append_nil]
    exact intact
  | found idle derived found =>
    simp only [calls, idle, derived, found, Option.isSome_some, if_true] at faithful ⊢
    exact Intact.find_hit derived found (intact.donate fresh owned) (faithful before _ (hitting W) [] rfl)
  | missed idle derived missing =>
    simp only [calls, idle, derived, missing, Option.isSome_none, Bool.false_eq_true, if_false, List.append_nil]
    refine (intact.donate fresh owned).setWriter ?_ (by rintro _ _ ⟨⟩)
    rintro _ _ ⟨⟩
    exact derived
  | failed sealing stored =>
    simp only [calls, sealing]
    rw [cacheAfter_concat, Call.apply, intact.sealRecord_miss sealing, stored]
    exact intact.release
  | made sealing stored =>
    simp only [calls, sealing] at faithful ⊢
    refine intact.make sealing (fresh _ rfl) stored (faithful before _ _ [] rfl) ?_ owned
    rintro rfl b' found
    exact quiet b' (by simp [returned, sealing, found])
  | written holding =>
    simp only [calls, List.append_nil]
    exact intact.write holding
  | evicted found =>
    simp only [calls, List.append_nil]
    exact intact.evict (quiet _ (by simp [returned, found])) owned
  | purged => exact intact.purge _ quiet owned
  | taken member =>
    simp only [calls, List.append_nil]
    refine intact.handOver owned fun b isOther => ?_
    rcases List.mem_append.mp isOther with old | new
    · exact List.mem_append_left _ (List.mem_of_mem_erase old)
    · rcases List.mem_cons.mp new with rfl | old
      · exact List.mem_append_left _ member
      · exact List.mem_append_right _ old
  | given member =>
    simp only [calls, List.append_nil]
    refine intact.handOver owned fun b isOther => ?_
    rcases List.mem_cons.mp isOther with rfl | isOther
    · exact List.mem_append_right _ member
    · exact (List.mem_append.mp isOther).elim (List.mem_append_left _)
        fun old => List.mem_append_right _ (List.mem_of_mem_erase old)
  | scribbled member =>
    simp only [calls, List.append_nil]
    exact intact.scribble member _

end Intact

section Runs

variable {W : Envelopes} {sum64 : List UInt8 → UInt64} {marshal : W.Envelope → List UInt8} {s s' : State}
  {events : List (Event W)}

theorem owned_run (reached : (machine sum64 marshal).run events = some s)
    (fresh : (machine sum64 marshal).Throughout (fun _ => Fresh) events) : Owned s := by
  induction events using List.reverseRecOn generalizing s with
  | nil =>
    cases reached
    exact List.nodup_nil
  | append_singleton events e ih =>
    obtain ⟨s₀, isBefore, step⟩ := Machine.run_concat.mp reached
    obtain ⟨earlier, last⟩ := Machine.throughout_concat.mp fresh
    exact (ih isBefore earlier).step (last s₀ s isBefore step) (moves_of_step step)

theorem slices_concat {e : Event W} :
    (events ++ [e]).filterMap Event.slice = events.filterMap Event.slice ++ e.slice.toList := by
  rw [List.filterMap_append]
  cases isSlice : e.slice with
  | none => simp [isSlice]
  | some b => simp [isSlice]

theorem known_run (reached : (machine sum64 marshal).run events = some s) :
    Known (events.filterMap Event.slice) s := by
  induction events using List.reverseRecOn generalizing s with
  | nil =>
    cases reached
    exact ⟨by rintro _ ⟨⟩, by rintro _ _ _ ⟨⟩⟩
  | append_singleton events e ih =>
    obtain ⟨s₀, isBefore, step⟩ := Machine.run_concat.mp reached
    rw [slices_concat]
    exact (ih isBefore).step (moves_of_step step)

/-- Slices that are never used again are fresh. -/
theorem fresh_of_nodup (distinct : (events.filterMap Event.slice).Nodup) :
    (machine sum64 marshal).Throughout (fun _ => Fresh) events := by
  rintro before e s s' ⟨rest, rfl⟩ reached _ b isSlice
  rw [List.filterMap_append, slices_concat, isSlice] at distinct
  have known := known_run reached
  have new : b ∉ before.filterMap Event.slice := fun old =>
    (List.nodup_append.mp (List.nodup_append.mp distinct).1).2.2 b old b (by simp) rfl
  exact ⟨fun member => new (known.owned b member), fun i r holding => new (known.held i r b holding)⟩

theorem sealsFaithfully_front {run later : List (Call × Setting W)} (faithful : SealsFaithfully sum64 (run ++ later)) :
    SealsFaithfully sum64 run := by
  intro before r env after whole
  refine faithful before r env (after ++ later) ?_
  rw [whole, List.append_assoc, List.cons_append]

/-- In each state of a run, the buffers are those of the sealer on values that goes
through the same calls. -/
theorem intact_run (reached : (machine sum64 marshal).run events = some s)
    (faithful : SealsFaithfully sum64 ((machine sum64 marshal).trace (calls sum64) events))
    (fresh : (machine sum64 marshal).Throughout (fun _ => Fresh) events)
    (quiet : (machine sum64 marshal).Throughout (fun _ => Undisturbed) events) :
    Intact sum64 marshal (cacheAfter sum64 ((machine sum64 marshal).trace (calls sum64) events)) s := by
  induction events using List.reverseRecOn generalizing s with
  | nil =>
    cases reached
    refine ⟨List.nodup_nil, ?_, by rintro _ _ _ ⟨⟩, by rintro _ _ _ ⟨⟩, by rintro _ _ ⟨⟩⟩
    intro key b found
    have absent : (machine sum64 marshal).start.cache.lookup key = none := AList.lookup_empty key
    cases absent.symm.trans found
  | append_singleton events e ih =>
    obtain ⟨s₀, isBefore, step⟩ := Machine.run_concat.mp reached
    obtain ⟨earlier, last⟩ := Machine.throughout_concat.mp quiet
    obtain ⟨earlier', last'⟩ := Machine.throughout_concat.mp fresh
    rw [Machine.trace_concat isBefore step] at faithful ⊢
    have intact := ih isBefore (sealsFaithfully_front faithful) earlier' earlier
    exact intact.step faithful (last' s₀ s isBefore step) (last s₀ s isBefore step) (moves_of_step step)

/-- A socket whose writers share the cache of their sealer, and whose buffers go round
through the pool. If the slices that are marshaled are new, no buffer is ever in two places.
If moreover a key determines what is signed, then each datagram that is written is an
envelope of its record, whatever is evicted, purged and used again, as long as the cache
drops no buffer between the `Seal` and the `WriteTo` of a writer that holds it. -/
theorem datagrams_carry_records (reached : (machine sum64 marshal).run events = some s)
    (fresh : (machine sum64 marshal).Throughout (fun _ => Fresh) events) :
    Owned s ∧
      (KeysDetermine sum64 (((machine sum64 marshal).trace (calls sum64) events).map Prod.fst) →
        (machine sum64 marshal).Throughout (fun _ => Undisturbed) events →
        ∀ r bytes, (r, bytes) ∈ s.wire → ∃ e, W.Holds e r ∧ bytes = marshal e) := by
  refine ⟨owned_run reached fresh, fun determine quiet => ?_⟩
  have right := Memo.right_of_consistent (@memo_consistent_iff W sum64 _ |>.mpr determine)
  exact (intact_run reached (memo_right_iff.mp right) fresh quiet).written

/-- One writer seals a record, and another finds it in the cache, while the slice that was
marshaled for the key is in other hands. -/
def writtenTwice : List (Event plainEnvelopes) :=
  [.find 0 (greeting 1) 0, .make 0 (evicted _) 1 false, .take 0, .scribble 0 [7], .find 1 (greeting 1) 2, .write 0,
    .write 1]

theorem writtenTwice_undisturbed : (machine (fun _ => 0) PlainEnvelope.rawPayload).Throughout (fun _ => Undisturbed)
    (writtenTwice ++ [.evict 0]) := by
  refine Machine.throughout_concat.mpr ⟨fun front e s s' inside _ _ b isReturned => ?_, fun s s' reached _ => ?_⟩
  · have member : e ∈ writtenTwice := inside.subset (by simp)
    simp only [writtenTwice, List.mem_cons, List.not_mem_nil, or_false] at member
    rcases member with rfl | rfl | rfl | rfl | rfl | rfl | rfl
    all_goals cases isReturned
  · intro b _ i r holding
    have idle : s.writer i = .idle := by
      rcases i with _ | _ | i
      all_goals
        cases reached
        rfl
    cases idle.symm.trans holding

theorem datagrams_carry_greeting : ∃ s,
    (machine (fun _ => 0) PlainEnvelope.rawPayload).run (writtenTwice ++ [.evict 0]) = some s ∧
    s.wire.map Prod.snd = [[104, 105], [104, 105]] ∧ Owned s ∧
    ∀ r bytes, (r, bytes) ∈ s.wire → ∃ e : PlainEnvelope, plainEnvelopes.Holds e r ∧ bytes = e.rawPayload := by
  have written : ((machine (fun _ => 0) PlainEnvelope.rawPayload).run (writtenTwice ++ [.evict 0])).map
      (fun s => s.wire.map Prod.snd) = some [[104, 105], [104, 105]] := rfl
  obtain ⟨s, reached, bytes⟩ := Option.map_eq_some_iff.mp written
  obtain ⟨owned, carried⟩ := datagrams_carry_records reached (fresh_of_nodup (by decide))
  refine ⟨s, reached, bytes, owned, carried ?_ writtenTwice_undisturbed⟩
  have sealed : ((machine (fun _ => 0) PlainEnvelope.rawPayload).trace (calls fun _ => 0)
      (writtenTwice ++ [.evict 0])).map Prod.fst = [.sealing (greeting 1), .sealing (greeting 1)] := rfl
  rw [sealed]
  intro front r middle r' later whole _ _ key _ _
  have one : ∀ r, Call.sealing r ∈ [Call.sealing (greeting 1), .sealing (greeting 1)] → r = greeting 1 := by
    simp
  rw [one r (by rw [whole]; simp), one r' (by rw [whole]; simp)]

-- A purge gives the buffer of the writer to the pool, where it is cleared: the zeros are sent.
example : ((machine (W := plainEnvelopes) (fun _ => 0) PlainEnvelope.rawPayload).run [.find 0 (greeting 1) 0,
    .make 0 (evicted _) 1 false, .purge, .scribble 1 [0, 0], .write 0]).map (fun s => s.wire.map Prod.snd) =
      some [[0, 0]] :=
  rfl

end Runs

end Casm.Socket.Pool
