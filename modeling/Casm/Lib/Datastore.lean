import Mathlib

/-- A key-value store with batched writes. -/
abbrev Datastore (K V : Type) := AList (fun _ : K => V)

namespace Datastore

variable {K V : Type} [DecidableEq K]

inductive BatchOp (K V : Type) where
  | delete (key : K)
  | put (key : K) (value : V)

def apply (d : Datastore K V) : BatchOp K V → Datastore K V
  | .delete key => d.erase key
  | .put key value => d.insert key value

/-- A batch takes effect as a whole, its operations in order. -/
def commit (d : Datastore K V) (batch : List (BatchOp K V)) : Datastore K V :=
  batch.foldl apply d

/-- The value that the last of these puts gives to a key. -/
def lastPut (puts : List (K × V)) (key : K) : Option V :=
  (puts.reverse.find? fun entry => entry.1 = key).map Prod.snd

theorem lastPut_concat (puts : List (K × V)) (entry : K × V) (key : K) :
    lastPut (puts ++ [entry]) key = if entry.1 = key then some entry.2 else lastPut puts key := by
  rw [lastPut, List.reverse_concat, List.find?_cons]
  by_cases same : entry.1 = key
  · simp [same]
  · simp [same, lastPut]

theorem lastPut_eq_none_iff {puts : List (K × V)} {key : K} :
    lastPut puts key = none ↔ ∀ entry ∈ puts, entry.1 ≠ key := by
  simp [lastPut]

theorem mem_of_lastPut {puts : List (K × V)} {key : K} {value : V}
    (found : lastPut puts key = some value) : (key, value) ∈ puts := by
  unfold lastPut at found
  obtain ⟨entry, first, equal⟩ := Option.map_eq_some_iff.mp found
  have member := List.mem_of_find?_eq_some first
  have same := List.find?_some first
  rw [decide_eq_true_eq] at same
  rw [← same, ← equal]
  exact List.mem_reverse.mp member

theorem lookup_commit_deletes (d : Datastore K V) (keys : List K) (key : K) :
    (d.commit (keys.map .delete)).lookup key = if key ∈ keys then none else d.lookup key := by
  induction keys generalizing d with
  | nil => simp [commit]
  | cons first rest ih =>
    have step : d.commit ((first :: rest).map .delete) = commit (d.erase first) (rest.map .delete) := rfl
    rw [step, ih]
    by_cases same : key = first
    · subst same
      simp
    · simp [same, AList.lookup_erase_ne same]

theorem lookup_commit_puts (d : Datastore K V) (puts : List (K × V)) (key : K) :
    (d.commit (puts.map fun entry => .put entry.1 entry.2)).lookup key =
      (lastPut puts key).or (d.lookup key) := by
  induction puts using List.reverseRecOn with
  | nil => simp [commit, lastPut]
  | append_singleton rest entry ih =>
    rw [lastPut_concat, commit, List.map_append, List.foldl_append]
    by_cases same : entry.1 = key
    · simp [same, apply]
    · simp only [same, if_false, ← ih]
      exact AList.lookup_insert_ne (Ne.symm same)

/-- A batch of deletes followed by puts: the last put of a key decides, then
whether the key was deleted. -/
theorem lookup_commit (d : Datastore K V) (keys : List K) (puts : List (K × V)) (key : K) :
    (d.commit (keys.map .delete ++ puts.map fun entry => .put entry.1 entry.2)).lookup key =
      (lastPut puts key).or (if key ∈ keys then none else d.lookup key) := by
  rw [← lookup_commit_deletes, ← lookup_commit_puts, commit, List.foldl_append]
  rfl

end Datastore
