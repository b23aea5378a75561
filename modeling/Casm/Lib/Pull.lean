import Mathlib

/-- Objects that hand out one item with each call, none when they have no more, or
fail. A call leaves a state behind in any case. -/
abbrev Pull (σ α ε : Type) := σ → Except ε (Option α) × σ

namespace Pull

variable {σ α ε : Type} (next : Pull σ α ε)

/-- The results of so many calls. -/
def calls : Nat → σ → List (Except ε (Option α))
  | 0, _ => []
  | n + 1, s => (next s).1 :: calls n (next s).2

/-- The state that so many calls leave behind. -/
def after : Nat → σ → σ
  | 0, s => s
  | n + 1, s => after n (next s).2

/-- The items are handed out in order, and nothing after the last. -/
def Yields (s : σ) (items : List α) : Prop :=
  ∀ n, calls next n s = (List.range n).map fun i => .ok items[i]?

/-- There are no items, and there will be none. -/
def Dry (s : σ) : Prop :=
  Yields next s []

/-- The items are handed out in order. Then there are no more, or a call fails. -/
inductive Produces : σ → List α → Option ε → Prop
  | dry {s : σ} : Dry next s → Produces s [] none
  | fails {s s' : σ} {e : ε} : next s = (.error e, s') → Produces s [] (some e)
  | item {s s' : σ} {a : α} {items : List α} {e : Option ε} :
      next s = (.ok (some a), s') → Produces s' items e → Produces s (a :: items) e

/-- Calls until an item is accepted. The fuel is for the items that are not. -/
def skipping (accepts : α → Bool) : Nat → Pull σ α ε
  | 0, s => (.ok none, s)
  | fuel + 1, s =>
    match next s with
    | (.ok (some a), s') => if accepts a then (.ok (some a), s') else skipping accepts fuel s'
    | (.ok none, s') => (.ok none, s')
    | (.error fault, s') => (.error fault, s')

/-- Only the items that are accepted, where the number of items is bounded. -/
def filtered (accepts : α → Bool) (size : σ → Nat) : Pull σ α ε := fun s =>
  skipping next accepts (size s + 1) s

/-- Every item that is handed out makes the state smaller. -/
structure Measured (size : σ → Nat) : Prop where
  le : ∀ s, size (next s).2 ≤ size s
  lt : ∀ s a, (next s).1 = .ok (some a) → size (next s).2 < size s

variable {next} {s s' : σ} {a : α} {items items' : List α} {e e' : Option ε}

/-- The first call returns the first item. -/
theorem Yields.head (yields : Yields next s items) : (next s).1 = .ok items.head? := by
  have one := yields 1
  rw [calls, List.range_one, List.map_singleton, ← List.head?_eq_getElem?] at one
  exact (List.cons.inj one).1

/-- The calls after the first. -/
theorem Yields.tail (yields : Yields next s items) : Yields next (next s).2 items.tail := by
  intro n
  have later := yields (n + 1)
  rw [calls, List.range_succ_eq_map, List.map_cons, List.map_map] at later
  simp only [List.getElem?_tail]
  exact (List.cons.inj later).2

theorem Yields.of_head_tail (head : (next s).1 = .ok items.head?) (tail : Yields next (next s).2 items.tail) :
    Yields next s items := by
  intro n
  cases n with
  | zero => rfl
  | succ n =>
    rw [calls, List.range_succ_eq_map, List.map_cons, List.map_map, head, tail n, List.head?_eq_getElem?]
    simp only [List.getElem?_tail]
    rfl

theorem yields_cons (first : next s = (.ok (some a), s')) : Yields next s items ↔
    ∃ rest, items = a :: rest ∧ Yields next s' rest := by
  constructor
  · intro yields
    have head := yields.head
    have tail := yields.tail
    rw [first] at head tail
    cases items with
    | nil => cases head
    | cons b rest =>
      cases head
      exact ⟨rest, rfl, tail⟩
  · rintro ⟨rest, rfl, yields⟩
    exact .of_head_tail (by rw [first]; rfl) (by rw [first]; exact yields)

theorem yields_none (first : next s = (.ok none, s')) : Yields next s items ↔ items = [] ∧ Dry next s' := by
  constructor
  · intro yields
    have head := yields.head
    have tail := yields.tail
    rw [first] at head tail
    cases items with
    | nil => exact ⟨rfl, tail⟩
    | cons b rest => cases head
  · rintro ⟨rfl, dry⟩
    exact .of_head_tail (by rw [first]; rfl) (by rw [first]; exact dry)

theorem not_yields {fault : ε} (first : next s = (.error fault, s')) : ¬ Yields next s items := by
  intro yields
  have head := yields.head
  rw [first] at head
  cases head

theorem dry_iff : Dry next s ↔ ∃ s', next s = (.ok none, s') ∧ Dry next s' := by
  constructor
  · intro dry
    rcases call : next s with ⟨result, s'⟩
    cases result with
    | error fault => exact absurd dry (not_yields call)
    | ok item =>
      cases item with
      | none => exact ⟨s', rfl, ((yields_none call).mp dry).2⟩
      | some a =>
        obtain ⟨rest, empty, -⟩ := (yields_cons call).mp dry
        cases empty
  · rintro ⟨s', first, dry⟩
    exact (yields_none first).mpr ⟨rfl, dry⟩

/-- States that never hand out anything, because no call leaves them. -/
theorem dry_of_invariant (P : σ → Prop) (kept : ∀ t, P t → ∃ t', next t = (.ok none, t') ∧ P t') (start : P s) :
    Dry next s := by
  intro n
  induction n generalizing s with
  | zero => rfl
  | succ n ih =>
    obtain ⟨t, first, holds⟩ := kept s start
    rw [calls, first, List.range_succ_eq_map, List.map_cons, List.map_map, ih holds]
    rfl

theorem yields_iff_produces : Yields next s items ↔ Produces next s items none := by
  constructor
  · intro yields
    induction items generalizing s with
    | nil => exact .dry yields
    | cons a rest ih =>
      rcases call : next s with ⟨result, s'⟩
      cases result with
      | error fault => exact absurd yields (not_yields call)
      | ok item =>
        cases item with
        | none =>
          obtain ⟨empty, -⟩ := (yields_none call).mp yields
          cases empty
        | some b =>
          obtain ⟨rest', same, yields'⟩ := (yields_cons call).mp yields
          cases same
          exact .item call (ih yields')
  · intro produces
    generalize ending : (none : Option ε) = e at produces
    induction produces with
    | dry dry => exact dry
    | fails _ => cases ending
    | item first _ ih => exact (yields_cons first).mpr ⟨_, rfl, ih ending⟩

/-- An object does one thing only. -/
theorem Produces.unique (one : Produces next s items e) (other : Produces next s items' e') :
    items = items' ∧ e = e' := by
  induction one generalizing items' e' with
  | dry dry =>
    obtain ⟨t, first, -⟩ := dry_iff.mp dry
    cases other with
    | dry _ => exact ⟨rfl, rfl⟩
    | fails call => cases first.symm.trans call
    | item call _ => cases first.symm.trans call
  | fails first =>
    cases other with
    | dry dry =>
      obtain ⟨t, call, -⟩ := dry_iff.mp dry
      cases first.symm.trans call
    | fails call =>
      cases first.symm.trans call
      exact ⟨rfl, rfl⟩
    | item call _ => cases first.symm.trans call
  | item first _ ih =>
    cases other with
    | dry dry =>
      obtain ⟨t, call, -⟩ := dry_iff.mp dry
      cases first.symm.trans call
    | fails call => cases first.symm.trans call
    | item call rest =>
      cases first.symm.trans call
      obtain ⟨same, ending⟩ := ih rest
      exact ⟨congrArg _ same, ending⟩

/-- What an object yields can be read off what it produces. -/
theorem Produces.yields_iff (produces : Produces next s items e) :
    Yields next s items' ↔ items' = items ∧ e = none := by
  rw [yields_iff_produces]
  constructor
  · intro other
    obtain ⟨same, ending⟩ := produces.unique other
    exact ⟨same.symm, ending⟩
  · rintro ⟨rfl, rfl⟩
    exact produces

theorem after_succ (n : Nat) (s : σ) : after next (n + 1) s = (next (after next n s)).2 := by
  induction n generalizing s with
  | zero => rfl
  | succ n ih => exact ih (next s).2

theorem calls_succ (n : Nat) (s : σ) : calls next (n + 1) s = calls next n s ++ [(next (after next n s)).1] := by
  induction n generalizing s with
  | zero => rfl
  | succ n ih => exact congrArg _ (ih (next s).2)

/-- More calls add to the results. -/
theorem calls_mono {n n' : Nat} (le : n ≤ n') (s : σ) : calls next n s <+: calls next n' s := by
  induction n', le using Nat.le_induction with
  | base => exact List.prefix_rfl
  | succ n' _ ih => exact ih.trans (calls_succ n' s ▸ List.prefix_append ..)

/-- Objects whose next calls are the same do the same. -/
theorem Produces.of_next_eq {t : σ} (same : next s = next t) (produces : Produces next t items e) :
    Produces next s items e := by
  cases produces with
  | dry dry =>
    obtain ⟨t', first, dry'⟩ := dry_iff.mp dry
    exact .dry (dry_iff.mpr ⟨t', same.trans first, dry'⟩)
  | fails first => exact .fails (same.trans first)
  | item first rest => exact .item (same.trans first) rest

section Related

variable {τ : Type} {next' : Pull τ α ε} {R : σ → τ → Prop} {t : τ}

theorem calls_of_related (kept : ∀ s t, R s t → (next s).1 = (next' t).1 ∧ R (next s).2 (next' t).2)
    (related : R s t) (n : Nat) : calls next n s = calls next' n t := by
  induction n generalizing s t with
  | zero => rfl
  | succ n ih => rw [calls, calls, (kept s t related).1, ih (kept s t related).2]

/-- What an object produces, one that simulates it produces as well. -/
theorem Produces.of_related (kept : ∀ s t, R s t → (next s).1 = (next' t).1 ∧ R (next s).2 (next' t).2)
    (related : R s t) (produces : Produces next s items e) : Produces next' t items e := by
  induction produces generalizing t with
  | dry dry => exact .dry fun n => (calls_of_related kept related n).symm.trans (dry n)
  | fails first =>
    have same := (kept _ _ related).1
    rw [first] at same
    exact .fails (Prod.ext same.symm rfl)
  | item first _ ih =>
    obtain ⟨same, later⟩ := kept _ _ related
    rw [first] at same later
    exact .item (Prod.ext same.symm rfl) (ih later)

end Related

section Skipping

variable {accepts : α → Bool} {size : σ → Nat}

theorem skipping_none (first : next s = (.ok none, s')) (fuel : Nat) :
    skipping next accepts (fuel + 1) s = (.ok none, s') := by
  rw [skipping, first]

theorem skipping_error {fault : ε} (first : next s = (.error fault, s')) (fuel : Nat) :
    skipping next accepts (fuel + 1) s = (.error fault, s') := by
  rw [skipping, first]

theorem skipping_some (first : next s = (.ok (some a), s')) (fuel : Nat) :
    skipping next accepts (fuel + 1) s =
      if accepts a then (.ok (some a), s') else skipping next accepts fuel s' := by
  rw [skipping, first]

/-- What every call keeps is kept until an item is accepted. -/
theorem skipping_kept {P : σ → Prop} (kept : ∀ s, P s → P (next s).2) (fuel : Nat) (holds : P s) :
    P (skipping next accepts fuel s).2 := by
  induction fuel generalizing s with
  | zero => exact holds
  | succ fuel ih =>
    have later := kept s holds
    rcases call : next s with ⟨_ | _ | a, s'⟩
    · rw [skipping_error call]
      rwa [call] at later
    · rw [skipping_none call]
      rwa [call] at later
    · rw [call] at later
      rw [skipping_some call]
      split
      · exact later
      · exact ih later

theorem skipping_related {τ : Type} {next' : Pull τ α ε} {R : σ → τ → Prop} {t : τ}
    (kept : ∀ s t, R s t → (next s).1 = (next' t).1 ∧ R (next s).2 (next' t).2) (fuel : Nat) (related : R s t) :
    (skipping next accepts fuel s).1 = (skipping next' accepts fuel t).1 ∧
      R (skipping next accepts fuel s).2 (skipping next' accepts fuel t).2 := by
  induction fuel generalizing s t with
  | zero => exact ⟨rfl, related⟩
  | succ fuel ih =>
    obtain ⟨same, later⟩ := kept s t related
    rcases call : next s with ⟨_ | _ | a, s'⟩
    · rw [call] at same later
      rw [skipping_error call, skipping_error (Prod.ext same.symm rfl)]
      exact ⟨rfl, later⟩
    · rw [call] at same later
      rw [skipping_none call, skipping_none (Prod.ext same.symm rfl)]
      exact ⟨rfl, later⟩
    · rw [call] at same later
      rw [skipping_some call, skipping_some (Prod.ext same.symm rfl)]
      split
      · exact ⟨rfl, later⟩
      · exact ih later

theorem Measured.skipping (measured : Measured next size) (accepts : α → Bool) (fuel : Nat) :
    Measured (skipping next accepts fuel) size where
  le s := skipping_kept (P := fun t => size t ≤ size s) (fun t le => (measured.le t).trans le) fuel le_rfl
  lt s := by
    induction fuel generalizing s with
    | zero =>
      intro a found
      cases found
    | succ fuel ih =>
      intro b found
      have le := measured.le s
      have lt := measured.lt s
      rcases call : next s with ⟨_ | _ | a, s'⟩
      · rw [skipping_error call] at found
        cases found
      · rw [skipping_none call] at found
        cases found
      · rw [call] at le lt
        rw [skipping_some call] at found ⊢
        by_cases accepted : accepts a
        · rw [if_pos accepted]
          exact lt a rfl
        · rw [if_neg accepted] at found ⊢
          exact (ih s' b found).trans_le le

theorem Measured.filtered (measured : Measured next size) (accepts : α → Bool) :
    Measured (filtered next accepts size) size where
  le s := (measured.skipping accepts _).le s
  lt s := (measured.skipping accepts _).lt s

theorem Measured.length_le (measured : Measured next size) (produces : Produces next s items e) :
    items.length ≤ size s := by
  induction produces with
  | dry _ => exact Nat.zero_le _
  | fails _ => exact Nat.zero_le _
  | @item s s' a items e first _ ih =>
    have smaller := measured.lt s a (by rw [first])
    rw [first] at smaller
    exact (Nat.succ_le_succ ih).trans smaller

/-- Fuel for all items is fuel enough. -/
theorem skipping_congr (produces : Produces next s items e) {fuel fuel' : Nat} (enough : items.length < fuel)
    (enough' : items.length < fuel') : skipping next accepts fuel s = skipping next accepts fuel' s := by
  induction produces generalizing fuel fuel' with
  | dry dry =>
    obtain ⟨s', first, -⟩ := dry_iff.mp dry
    obtain ⟨fuel, rfl⟩ := Nat.exists_eq_succ_of_ne_zero (Nat.ne_zero_of_lt enough)
    obtain ⟨fuel', rfl⟩ := Nat.exists_eq_succ_of_ne_zero (Nat.ne_zero_of_lt enough')
    rw [skipping_none first, skipping_none first]
  | fails first =>
    obtain ⟨fuel, rfl⟩ := Nat.exists_eq_succ_of_ne_zero (Nat.ne_zero_of_lt enough)
    obtain ⟨fuel', rfl⟩ := Nat.exists_eq_succ_of_ne_zero (Nat.ne_zero_of_lt enough')
    rw [skipping_error first, skipping_error first]
  | item first _ ih =>
    obtain ⟨fuel, rfl⟩ := Nat.exists_eq_succ_of_ne_zero (Nat.ne_zero_of_lt enough)
    obtain ⟨fuel', rfl⟩ := Nat.exists_eq_succ_of_ne_zero (Nat.ne_zero_of_lt enough')
    rw [skipping_some first, skipping_some first, ih (Nat.lt_of_succ_lt_succ enough) (Nat.lt_of_succ_lt_succ enough')]

/-- A filter over an object, which ends as the object does. -/
theorem Produces.filtered (measured : Measured next size) (accepts : α → Bool) (produces : Produces next s items e) :
    Produces (filtered next accepts size) s (items.filter accepts) e := by
  induction produces with
  | dry dry =>
    refine .dry (dry_of_invariant (Dry next) (fun t dry => ?_) dry)
    obtain ⟨t', first, dry'⟩ := dry_iff.mp dry
    exact ⟨t', skipping_none first _, dry'⟩
  | fails first => exact .fails (skipping_error first _)
  | @item s s' a items e first rest ih =>
    have smaller : size s' < size s := by simpa only [first] using measured.lt s a (by rw [first])
    have call : Pull.filtered next accepts size s = _ := skipping_some first (size s)
    by_cases accepted : accepts a
    · rw [if_pos accepted] at call
      rw [List.filter_cons_of_pos accepted]
      exact .item call ih
    · rw [if_neg accepted] at call
      rw [List.filter_cons_of_neg accepted]
      -- the call goes on in the state after the item, as a call there does
      have bound := measured.length_le rest
      refine ih.of_next_eq (call.trans (skipping_congr rest ?_ ?_))
      · omega
      · omega

end Skipping

section Local

variable {ι κ : Type} {next : Pull (σ × (ι → κ)) α ε} {cells : List ι}

/-- Of the memory, a call reads and writes only some cells. -/
structure Local (next : Pull (σ × (ι → κ)) α ε) (cells : List ι) : Prop where
  same : ∀ s t, (s.1 = t.1 ∧ ∀ c ∈ cells, s.2 c = t.2 c) →
    (next s).1 = (next t).1 ∧ (next s).2.1 = (next t).2.1 ∧ ∀ c ∈ cells, (next s).2.2 c = (next t).2.2 c
  frame : ∀ s c, c ∉ cells → (next s).2.2 c = s.2 c

theorem Local.produces (isLocal : Local next cells) {it : σ} {h h' : ι → κ} (same : ∀ c ∈ cells, h c = h' c)
    (produces : Produces next (it, h) items e) : Produces next (it, h') items e :=
  produces.of_related (R := fun s t => s.1 = t.1 ∧ ∀ c ∈ cells, s.2 c = t.2 c) isLocal.same ⟨rfl, same⟩

theorem Local.filtered (isLocal : Local next cells) (accepts : α → Bool) (size : σ → Nat) :
    Local (filtered next accepts fun s => size s.1) cells where
  same s t related := by
    rw [Pull.filtered, Pull.filtered, related.1]
    exact skipping_related isLocal.same _ related
  frame s c outside := skipping_kept (P := fun t => t.2 c = s.2 c)
    (fun t kept => (isLocal.frame t c outside).trans kept) _ rfl

end Local

end Pull
