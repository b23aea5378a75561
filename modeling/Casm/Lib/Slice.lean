import Mathlib

namespace GoSlice

/-- A window on a backing array. Its capacity says how far an append may go
before it has to move to a new array. -/
structure Slice where
  array : Nat
  off : Nat
  len : Nat
  cap : Nat
  deriving DecidableEq, Repr

/-- The backing arrays, in the order of their allocation. An array is its
initialised part: cells of spare capacity come to exist when they are written. -/
abbrev Heap (α : Type) := List (List α)

variable {α : Type}

def overwrite (cells : List α) (i : Nat) (xs : List α) : List α :=
  cells.take i ++ xs ++ cells.drop (i + xs.length)

theorem getElem?_overwrite {cells xs : List α} {i : Nat} (bound : i ≤ cells.length) (j : Nat) :
    (overwrite cells i xs)[j]? =
      if j < i then cells[j]? else if j < i + xs.length then xs[j - i]? else cells[j]? := by
  have taken : (cells.take i).length = i := List.length_take_of_le bound
  unfold overwrite
  split
  · rename_i before
    rw [List.append_assoc, List.getElem?_append_left (by omega), List.getElem?_take_of_lt before]
  · split
    · rw [List.getElem?_append_left (by rw [List.length_append]; omega),
        List.getElem?_append_right (by omega), taken]
    · rw [List.getElem?_append_right (by rw [List.length_append]; omega), List.getElem?_drop,
        List.length_append, taken]
      congr 1
      omega

theorem length_overwrite {cells xs : List α} {i : Nat} (bound : i ≤ cells.length) :
    (overwrite cells i xs).length = max cells.length (i + xs.length) := by
  simp only [overwrite, List.length_append, List.length_take, List.length_drop]
  omega

theorem overwrite_nil (cells : List α) (i : Nat) : overwrite cells i [] = cells := by
  rw [overwrite, List.append_nil, List.length_nil, Nat.add_zero, List.take_append_drop]

/-- A loop that writes one element after the other overwrites with all of them. -/
theorem overwrite_set {cells : List α} {i : Nat} (inside : i < cells.length) (x : α) (xs : List α) :
    overwrite (cells.set i x) (i + 1) xs = overwrite cells i (x :: xs) := by
  have short : (cells.take i).length ≤ i := List.length_take_le i cells
  have front : (cells.set i x).take (i + 1) = cells.take i ++ [x] := by
    rw [List.take_succ_eq_append_getElem (by rwa [List.length_set]), List.getElem_set_self, List.take_set,
      List.set_eq_of_length_le short]
  have place : i + 1 + xs.length = i + (x :: xs).length := by
    rw [List.length_cons]
    omega
  rw [overwrite, overwrite, front, place, List.drop_set_of_lt (by rw [List.length_cons]; omega),
    List.append_assoc (cells.take i), List.singleton_append]

namespace Heap

def cells (h : Heap α) (a : Nat) : List α :=
  h[a]?.getD []

/-- The elements of the window. -/
def read (h : Heap α) (s : Slice) : List α :=
  ((h.cells s.array).drop s.off).take s.len

def write (h : Heap α) (a i : Nat) (xs : List α) : Heap α :=
  h.modify a fun cells => overwrite cells i xs

/-- A new array with these elements and room for `cap` of them. -/
def alloc (h : Heap α) (xs : List α) (cap : Nat) : Heap α × Slice :=
  (h ++ [xs], ⟨h.length, 0, xs.length, cap⟩)

/-- The window lies in the initialised part of an array that exists. -/
structure Valid (h : Heap α) (s : Slice) : Prop where
  alive : s.array < h.length
  inside : s.off + s.len ≤ (h.cells s.array).length
  room : s.len ≤ s.cap

theorem cells_write {h : Heap α} {a : Nat} (alive : a < h.length) (i : Nat) (xs : List α) (b : Nat) :
    (h.write a i xs).cells b = if b = a then overwrite (h.cells a) i xs else h.cells b := by
  unfold write cells
  rw [List.getElem?_modify]
  split
  · rename_i same
    rw [if_pos same.symm, ← same, List.getElem?_eq_getElem alive]
    rfl
  · rename_i other
    rw [if_neg (Ne.symm other)]
    simp

theorem length_write (h : Heap α) (a i : Nat) (xs : List α) : (h.write a i xs).length = h.length :=
  List.length_modify ..

theorem cells_mono {h h' : Heap α} (grown : h <+: h') {a : Nat} (alive : a < h.length) :
    h'.cells a = h.cells a := by
  obtain ⟨rest, equal⟩ := grown
  rw [cells, cells, ← equal, List.getElem?_append_left alive]

theorem write_extends {base h : Heap α} (grown : base <+: h) {a : Nat} (fresh : base.length ≤ a)
    (i : Nat) (xs : List α) : base <+: h.write a i xs := by
  rw [List.prefix_iff_getElem?] at grown ⊢
  intro j bound
  have other : a ≠ j := by omega
  rw [write, List.getElem?_modify, grown j bound]
  simp [other]

theorem getElem?_read (h : Heap α) (s : Slice) (j : Nat) :
    (h.read s)[j]? = if j < s.len then (h.cells s.array)[s.off + j]? else none := by
  rw [read, List.getElem?_take, List.getElem?_drop]

theorem Valid.length_read {h : Heap α} {s : Slice} (valid : h.Valid s) : (h.read s).length = s.len := by
  have inside := valid.inside
  rw [read, List.length_take, List.length_drop]
  omega

theorem Valid.mono {h h' : Heap α} {s : Slice} (grown : h <+: h') (valid : h.Valid s) : h'.Valid s where
  alive := lt_of_lt_of_le valid.alive grown.length_le
  inside := by
    rw [cells_mono grown valid.alive]
    exact valid.inside
  room := valid.room

theorem Valid.read_mono {h h' : Heap α} {s : Slice} (grown : h <+: h') (valid : h.Valid s) :
    h'.read s = h.read s := by
  rw [read, read, cells_mono grown valid.alive]

theorem cells_alloc (h : Heap α) (xs : List α) (cap : Nat) : (h.alloc xs cap).1.cells h.length = xs := by
  simp [alloc, cells]

theorem alloc_extends (h : Heap α) (xs : List α) (cap : Nat) : h <+: (h.alloc xs cap).1 :=
  List.prefix_append ..

theorem read_alloc (h : Heap α) (xs : List α) (cap : Nat) :
    (h.alloc xs cap).1.read (h.alloc xs cap).2 = xs := by
  simp [alloc, read, cells]

theorem alloc_valid (h : Heap α) {xs : List α} {cap : Nat} (room : xs.length ≤ cap) :
    (h.alloc xs cap).1.Valid (h.alloc xs cap).2 where
  alive := by simp [alloc]
  inside := by
    show 0 + xs.length ≤ ((h.alloc xs cap).1.cells h.length).length
    rw [cells_alloc, Nat.zero_add]
  room := room

end Heap

namespace Slice

/-- `s[:n]` where that is shorter. The capacity stays. -/
def head (s : Slice) (n : Nat) : Slice :=
  if n < s.len then { s with len := n } else s

/-- `s[len(s)-n:]` where that is shorter. -/
def tail (s : Slice) (n : Nat) : Slice :=
  if n < s.len then { s with off := s.off + (s.len - n), len := n, cap := s.cap - (s.len - n) } else s

/-- Put as many elements in place of those of the window. -/
def fill (h : Heap α) (s : Slice) (xs : List α) : Heap α :=
  h.write s.array s.off xs

/-- Where the capacity allows it, an append writes the array that the window is
on, and whatever other windows show there. -/
def append (h : Heap α) (s : Slice) (xs : List α) : Heap α × Slice :=
  if s.len + xs.length ≤ s.cap then
    (h.write s.array (s.off + s.len) xs, { s with len := s.len + xs.length })
  else h.alloc (h.read s ++ xs) (s.len + xs.length)

/-- Apply a function to the elements of the window, in place. -/
def update (h : Heap α) (s : Slice) (f : List α → List α) : Heap α :=
  s.fill h (f (h.read s))

/-- Copy the elements that pass the test to a new array as large as the window. -/
def filter (h : Heap α) (s : Slice) (p : α → Bool) : Heap α × Slice :=
  h.alloc ((h.read s).filter p) s.len

variable {h : Heap α} {s t : Slice} {xs : List α} {n : Nat}

theorem head_array (s : Slice) (n : Nat) : (s.head n).array = s.array := by
  unfold head
  split <;> rfl

theorem head_off (s : Slice) (n : Nat) : (s.head n).off = s.off := by
  unfold head
  split <;> rfl

theorem head_len (s : Slice) (n : Nat) : (s.head n).len = min n s.len := by
  unfold head
  split
  · show n = min n s.len
    omega
  · omega

theorem head_cap (s : Slice) (n : Nat) : (s.head n).cap = s.cap := by
  unfold head
  split <;> rfl

theorem tail_array (s : Slice) (n : Nat) : (s.tail n).array = s.array := by
  unfold tail
  split <;> rfl

theorem tail_off (s : Slice) (n : Nat) : (s.tail n).off = s.off + (s.len - n) := by
  unfold tail
  split
  · rfl
  · show s.off = s.off + (s.len - n)
    omega

theorem tail_len (s : Slice) (n : Nat) : (s.tail n).len = min n s.len := by
  unfold tail
  split
  · show n = min n s.len
    omega
  · omega

theorem valid_head (valid : h.Valid s) (n : Nat) : h.Valid (s.head n) := by
  obtain ⟨alive, inside, room⟩ := valid
  refine ⟨by rwa [head_array], ?_, ?_⟩
  · rw [head_array, head_off, head_len]
    omega
  · rw [head_len, head_cap]
    omega

theorem valid_tail (valid : h.Valid s) (n : Nat) : h.Valid (s.tail n) := by
  obtain ⟨alive, inside, room⟩ := valid
  refine ⟨by rwa [tail_array], ?_, ?_⟩
  · rw [tail_array, tail_off, tail_len]
    omega
  · unfold tail
    split
    · show n ≤ s.cap - (s.len - n)
      omega
    · exact room

theorem read_head (h : Heap α) (s : Slice) (n : Nat) : h.read (s.head n) = (h.read s).take n := by
  rw [Heap.read, Heap.read, head_array, head_off, head_len, List.take_take]

theorem read_tail (h : Heap α) (s : Slice) (n : Nat) : h.read (s.tail n) = (h.read s).drop (s.len - n) := by
  have rest : s.len - (s.len - n) = min n s.len := by omega
  rw [Heap.read, Heap.read, tail_array, tail_off, tail_len, List.drop_take, List.drop_drop, rest]

/-- An in-place change of a window leaves every window as long as it was. -/
theorem valid_fill (valid : h.Valid s) (same : xs.length = s.len) (other : h.Valid t) :
    (s.fill h xs).Valid t := by
  obtain ⟨alive, inside, _⟩ := valid
  obtain ⟨alive', inside', room'⟩ := other
  refine ⟨by rwa [fill, Heap.length_write], ?_, room'⟩
  rw [fill, Heap.cells_write alive]
  split
  · rename_i sameArray
    rw [length_overwrite (by omega), ← sameArray]
    omega
  · exact inside'

theorem read_fill (valid : h.Valid s) (same : xs.length = s.len) : (s.fill h xs).read s = xs := by
  obtain ⟨alive, inside, _⟩ := valid
  apply List.ext_getElem?
  intro j
  rw [Heap.getElem?_read, fill, Heap.cells_write alive, if_pos rfl, getElem?_overwrite (by omega)]
  split
  · rw [if_neg (by omega), if_pos (by omega), Nat.add_sub_cancel_left]
  · rw [List.getElem?_eq_none (by omega)]

theorem read_fill_after (valid : h.Valid s) (same : xs.length = s.len) (sameArray : t.array = s.array)
    (after : s.off + s.len ≤ t.off) : (s.fill h xs).read t = h.read t := by
  obtain ⟨alive, inside, _⟩ := valid
  apply List.ext_getElem?
  intro j
  rw [Heap.getElem?_read, Heap.getElem?_read, fill, Heap.cells_write alive, if_pos sameArray,
    getElem?_overwrite (by omega), sameArray]
  split
  · rw [if_neg (by omega), if_neg (by omega)]
  · rfl

theorem read_append (valid : h.Valid s) (xs : List α) :
    (s.append h xs).1.read (s.append h xs).2 = h.read s ++ xs := by
  have width := valid.length_read
  obtain ⟨alive, inside, _⟩ := valid
  unfold append
  split
  · apply List.ext_getElem?
    intro j
    rw [Heap.getElem?_read]
    simp only [Heap.cells_write alive, if_true]
    rw [getElem?_overwrite (by omega)]
    by_cases before : j < s.len
    · rw [if_pos (by omega), if_pos (by omega), List.getElem?_append_left (by omega), Heap.getElem?_read,
        if_pos before]
    · rw [List.getElem?_append_right (by omega), width]
      split
      · rw [if_neg (by omega), if_pos (by omega)]
        congr 1
        omega
      · rw [List.getElem?_eq_none (by omega)]
  · exact Heap.read_alloc ..

theorem append_valid (valid : h.Valid s) (xs : List α) :
    (s.append h xs).1.Valid (s.append h xs).2 := by
  have width := valid.length_read
  obtain ⟨alive, inside, room⟩ := valid
  unfold append
  split
  · rename_i fits
    refine ⟨by rwa [Heap.length_write], ?_, fits⟩
    simp only [Heap.cells_write alive, if_true]
    rw [length_overwrite inside]
    omega
  · exact Heap.alloc_valid h (by rw [List.length_append]; omega)

/-- An append to a window of an array allocated after `base` leaves `base` alone. -/
theorem append_extends {base : Heap α} (grown : base <+: h) (fresh : base.length ≤ s.array)
    (xs : List α) : base <+: (s.append h xs).1 := by
  unfold append
  split
  · exact Heap.write_extends grown fresh _ _
  · exact grown.trans (Heap.alloc_extends ..)

theorem append_array {base : Heap α} (grown : base <+: h) (fresh : base.length ≤ s.array)
    (xs : List α) : base.length ≤ (s.append h xs).2.array := by
  unfold append
  split
  · exact fresh
  · exact grown.length_le

theorem valid_append (valid : h.Valid s) (other : h.Valid t) (xs : List α) :
    (s.append h xs).1.Valid t := by
  have inside := valid.inside
  have inside' := other.inside
  unfold append
  split
  · refine ⟨by rw [Heap.length_write]; exact other.alive, ?_, other.room⟩
    simp only [Heap.cells_write valid.alive]
    split
    · rename_i sameArray
      rw [length_overwrite inside, ← sameArray]
      omega
    · exact inside'
  · exact other.mono (Heap.alloc_extends ..)

theorem read_append_self (valid : h.Valid s) (xs : List α) : (s.append h xs).1.read s = h.read s := by
  have inside := valid.inside
  unfold append
  split
  · apply List.ext_getElem?
    intro j
    rw [Heap.getElem?_read, Heap.getElem?_read, Heap.cells_write valid.alive, if_pos rfl,
      getElem?_overwrite inside]
    split
    · rw [if_pos (by omega)]
    · rfl
  · exact valid.read_mono (Heap.alloc_extends ..)

/-- Appending to the first `n` elements of a window replaces its `n`-th element,
if it has one. -/
theorem read_append_head (valid : h.Valid s) (n : Nat) (x : α) :
    ((s.head n).append h [x]).1.read s = (h.read s).set n x := by
  have width := valid.length_read
  by_cases short : n < s.len
  · have inside := valid.inside
    have room := valid.room
    have fits : n + [x].length ≤ s.cap := by
      rw [List.length_singleton]
      omega
    rw [head, if_pos short, append, if_pos fits]
    apply List.ext_getElem?
    intro j
    have before : s.off + n ≤ (h.cells s.array).length := by omega
    rw [Heap.getElem?_read, Heap.cells_write valid.alive, if_pos rfl, getElem?_overwrite before,
      List.getElem?_set, Heap.getElem?_read, List.length_singleton, width]
    by_cases here : n = j
    · rw [if_pos here, if_pos (by omega), if_neg (by omega), if_pos (by omega), ← here, if_pos short,
        Nat.sub_self]
      rfl
    · rw [if_neg here]
      split
      · split
        · rfl
        · rw [if_neg (by omega)]
      · rfl
  · rw [head, if_neg short, read_append_self valid, List.set_eq_of_length_le (by omega)]

end Slice

/-- The window shows `xs`, is on an array allocated since `base`, and nothing
that `base` had has changed. -/
structure Yields (base h : Heap α) (s : Slice) (xs : List α) : Prop where
  grown : base <+: h
  fresh : base.length ≤ s.array
  valid : h.Valid s
  read : h.read s = xs

namespace Yields

variable {base h : Heap α} {s t : Slice} {xs ys : List α}

theorem len_eq (yields : Yields base h s xs) : s.len = xs.length := by
  rw [← yields.read, yields.valid.length_read]

theorem mono {h' : Heap α} (yields : Yields base h s xs) (later : h <+: h') : Yields base h' s xs where
  grown := yields.grown.trans later
  fresh := yields.fresh
  valid := yields.valid.mono later
  read := by rw [yields.valid.read_mono later, yields.read]

theorem alloc {cap : Nat} (grown : base <+: h) (room : xs.length ≤ cap) :
    ∃ h' t, h.alloc xs cap = (h', t) ∧ h <+: h' ∧ Yields base h' t xs :=
  ⟨(h.alloc xs cap).1, (h.alloc xs cap).2, rfl, Heap.alloc_extends h xs cap,
    grown.trans (Heap.alloc_extends h xs cap), grown.length_le, Heap.alloc_valid h room,
    Heap.read_alloc h xs cap⟩

/-- A filter only reads its window, wherever that is. -/
theorem filter (grown : base <+: h) (valid : h.Valid s) (p : α → Bool) :
    ∃ h' t, s.filter h p = (h', t) ∧ h <+: h' ∧ Yields base h' t ((h.read s).filter p) := by
  have room : ((h.read s).filter p).length ≤ s.len := by
    rw [← valid.length_read]
    exact List.length_filter_le p (h.read s)
  exact alloc grown room

theorem append (yields : Yields base h s xs) (ys : List α) :
    ∃ h' t, s.append h ys = (h', t) ∧ Yields base h' t (xs ++ ys) := by
  refine ⟨(s.append h ys).1, (s.append h ys).2, rfl, Slice.append_extends yields.grown yields.fresh ys,
    Slice.append_array yields.grown yields.fresh ys, Slice.append_valid yields.valid ys, ?_⟩
  rw [Slice.read_append yields.valid, yields.read]

theorem head (yields : Yields base h s xs) (n : Nat) : Yields base h (s.head n) (xs.take n) where
  grown := yields.grown
  fresh := by rw [Slice.head_array]; exact yields.fresh
  valid := Slice.valid_head yields.valid n
  read := by rw [Slice.read_head, yields.read]

theorem tail (yields : Yields base h s xs) (n : Nat) :
    Yields base h (s.tail n) (xs.drop (xs.length - n)) where
  grown := yields.grown
  fresh := by rw [Slice.tail_array]; exact yields.fresh
  valid := Slice.valid_tail yields.valid n
  read := by rw [Slice.read_tail, yields.read, yields.len_eq]

theorem update (yields : Yields base h s xs) {f : List α → List α} (same : (f xs).length = xs.length) :
    Yields base (s.update h f) s (f xs) := by
  have width : (f (h.read s)).length = s.len := by rw [yields.read, same, yields.len_eq]
  refine ⟨Heap.write_extends yields.grown yields.fresh _ _, yields.fresh,
    Slice.valid_fill yields.valid width yields.valid, ?_⟩
  rw [Slice.update, Slice.read_fill yields.valid width, yields.read]

/-- A change in place does not show in a window that starts after it. -/
theorem update_after (yields : Yields base h s xs) {f : List α → List α}
    (same : (f xs).length = xs.length) (later : Yields base h t ys) (sameArray : t.array = s.array)
    (after : s.off + s.len ≤ t.off) : Yields base (s.update h f) t ys := by
  have width : (f (h.read s)).length = s.len := by rw [yields.read, same, yields.len_eq]
  refine ⟨Heap.write_extends yields.grown yields.fresh _ _, later.fresh,
    Slice.valid_fill yields.valid width later.valid, ?_⟩
  rw [Slice.update, Slice.read_fill_after yields.valid width sameArray after, later.read]

end Yields

end GoSlice
