import Mathlib

/-! # Go slices over shared backing arrays

A slice is a view `(array, offset, len, cap)` of a backing array in a heap, and
several views may share one array.  `append` writes in place while `len < cap`, so
every view covering that cell sees the write; at full capacity it copies into a
fresh array whose capacity a growth policy chooses (at least the new length).
Reslicing to `s[:0]` keeps the array and the capacity: the next `append` writes
the cell the old view starts with. -/
set_option autoImplicit false

namespace GoSlice

structure Heap (α : Type) where
  arrays : List (List α)

structure Slice where
  array : Nat
  offset : Nat
  len : Nat
  cap : Nat
  deriving DecidableEq, Repr

def Slice.nil : Slice := ⟨0, 0, 0, 0⟩

section Ops
variable {α : Type}

def Heap.cells (h : Heap α) (array : Nat) : List α :=
  h.arrays.getD array []

def Heap.write (h : Heap α) (array index : Nat) (x : α) : Heap α :=
  ⟨h.arrays.modify array (·.set index x)⟩

def Heap.alloc (h : Heap α) (cells : List α) : Heap α :=
  ⟨h.arrays ++ [cells]⟩

def Slice.read (s : Slice) (h : Heap α) : List α :=
  ((h.cells s.array).drop s.offset).take s.len

/-- `s[:0]` -/
def Slice.truncate (s : Slice) : Slice :=
  { s with len := 0 }

/-- `append(s, x)`; the cells past the new length of a fresh array hold Go's zero value. -/
def append [Inhabited α] (grow : Nat → Nat → Nat) (h : Heap α) (s : Slice) (x : α) :
    Heap α × Slice :=
  if s.len < s.cap then (h.write s.array (s.offset + s.len) x, { s with len := s.len + 1 })
  else
    let cap := max (s.len + 1) (grow s.cap (s.len + 1))
    (h.alloc (s.read h ++ x :: List.replicate (cap - (s.len + 1)) default),
      ⟨h.arrays.length, 0, s.len + 1, cap⟩)

/-- The view lies inside its array. -/
def Slice.Valid (s : Slice) (h : Heap α) : Prop :=
  s.len ≤ s.cap ∧ s.offset + s.cap ≤ (h.cells s.array).length

theorem valid_nil (h : Heap α) : Slice.nil.Valid h := by
  simp [Slice.Valid, Slice.nil]

theorem Slice.Valid.truncate {s : Slice} {h : Heap α} (v : s.Valid h) : s.truncate.Valid h :=
  ⟨Nat.zero_le _, v.2⟩

@[simp] theorem read_truncate (s : Slice) (h : Heap α) : s.truncate.read h = [] := by
  simp [Slice.read, Slice.truncate]

theorem Slice.Valid.length_read {s : Slice} {h : Heap α} (v : s.Valid h) :
    (s.read h).length = s.len := by
  simp only [Slice.read, List.length_take, List.length_drop]
  have := v.1
  have := v.2
  omega

/-! ## Writes and allocations seen through a view -/

theorem length_cells_write (h : Heap α) (array index : Nat) (x : α) (other : Nat) :
    ((h.write array index x).cells other).length = (h.cells other).length := by
  simp only [Heap.cells, Heap.write, List.getD_eq_getElem?_getD, List.getElem?_modify]
  cases h.arrays[other]? <;> simp only [Option.map_eq_map, Option.map_none, Option.map_some,
    Option.getD_none, Option.getD_some]
  split <;> simp

theorem cells_write (h : Heap α) (array index : Nat) (x : α) (other : Nat) :
    (h.write array index x).cells other =
      if array = other then (h.cells other).set index x else h.cells other := by
  simp only [Heap.cells, Heap.write, List.getD_eq_getElem?_getD, List.getElem?_modify]
  cases h.arrays[other]? <;> split <;> simp

theorem cells_alloc_of_lt (h : Heap α) (cells : List α) {array : Nat} (lt : array < h.arrays.length) :
    (h.alloc cells).cells array = h.cells array := by
  simp [Heap.cells, Heap.alloc, List.getD_eq_getElem?_getD, List.getElem?_append_left lt]

theorem cells_alloc_new (h : Heap α) (cells : List α) : (h.alloc cells).cells h.arrays.length = cells := by
  simp [Heap.cells, Heap.alloc, List.getD_eq_getElem?_getD]

/-- A write changes a view exactly at the cell it covers. -/
theorem read_write (s : Slice) (h : Heap α) (array index : Nat) (x : α) :
    s.read (h.write array index x) =
      if s.array = array ∧ s.offset ≤ index then (s.read h).set (index - s.offset) x else s.read h := by
  simp only [Slice.read, cells_write, eq_comm (a := array)]
  by_cases same : s.array = array
  · by_cases after : s.offset ≤ index
    · simp [same, after, List.drop_set, List.take_set, show ¬ index < s.offset by omega]
    · simp [same, after, List.drop_set, show index < s.offset by omega]
  · simp [same]

theorem Slice.Valid.write {s : Slice} {h : Heap α} (v : s.Valid h) (array index : Nat) (x : α) :
    s.Valid (h.write array index x) := by
  unfold Slice.Valid
  rw [length_cells_write]
  exact v

/-- A valid view that reaches past the start of its array names an existing array. -/
theorem Slice.Valid.array_lt {s : Slice} {h : Heap α} (v : s.Valid h) (pos : 0 < s.offset + s.cap) :
    s.array < h.arrays.length := by
  have := v.2
  by_contra out
  have none : h.arrays[s.array]? = none := List.getElem?_eq_none (by omega)
  simp only [Heap.cells, List.getD_eq_getElem?_getD, none, Option.getD_none, List.length_nil] at this
  omega

theorem Slice.Valid.alloc {s : Slice} {h : Heap α} (v : s.Valid h) (cells : List α) :
    s.Valid (h.alloc cells) := by
  by_cases pos : 0 < s.offset + s.cap
  · unfold Slice.Valid
    rw [cells_alloc_of_lt h cells (v.array_lt pos)]
    exact v
  · exact ⟨v.1, by omega⟩

theorem take_succ_set {l : List α} {n : Nat} (lt : n < l.length) (x : α) :
    (l.set n x).take (n + 1) = l.take n ++ [x] := by
  rw [List.take_add_one, List.getElem?_set_self lt, List.take_set,
    List.set_eq_of_length_le (by simp only [List.length_take]; omega)]
  rfl

/-! ## `append` -/

section Append
variable [Inhabited α] (grow : Nat → Nat → Nat)

/-- The appended view reads the old elements and `x`, and lies inside its array. -/
theorem append_spec {s : Slice} {h : Heap α} (v : s.Valid h) (x : α) :
    (append grow h s x).2.read (append grow h s x).1 = s.read h ++ [x] ∧
      (append grow h s x).2.Valid (append grow h s x).1 := by
  have len := v.length_read
  unfold append
  split_ifs with room
  · -- in place: the cell after the view's end is written
    have bound := v.2
    have inside : s.len < ((h.cells s.array).drop s.offset).length := by
      simp only [List.length_drop]
      omega
    refine ⟨?_, ⟨by simp only; omega, by simp only [length_cells_write]; exact bound⟩⟩
    simp only [Slice.read, cells_write, if_true, List.drop_set, Nat.add_sub_cancel_left,
      show ¬ s.offset + s.len < s.offset by omega, if_false]
    exact take_succ_set inside x
  · -- a fresh array holding the view, `x` and zero values up to the new capacity
    refine ⟨?_, ⟨Nat.le_max_left _ _, ?_⟩⟩
    · simp only [Slice.read, cells_alloc_new, List.drop_zero, List.take_append]
      rw [← Slice.read, List.take_of_length_le (by omega), len, Nat.add_sub_cancel_left]
      rfl
    · simp only [cells_alloc_new, List.length_append, List.length_cons, List.length_replicate, len]
      omega

/-- Appending to `s[:0]` writes the first cell `s` shows: `s` now starts with `x`. -/
theorem read_append_truncate {s : Slice} {h : Heap α} (v : s.Valid h) (pos : 0 < s.len) (x : α) :
    s.read (append grow h s.truncate x).1 = (s.read h).set 0 x := by
  have room : s.truncate.len < s.truncate.cap := by
    simp only [Slice.truncate]
    have := v.1
    omega
  simp only [append, if_pos room]
  rw [read_write]
  simp [Slice.truncate]

end Append

end Ops

end GoSlice
