import Mathlib
import SimpleChain.Lib.GoHeap
import SimpleChain.Lib.TwosComplement

/-! # The block-based stack of common/prque

`sstack` keeps `*item`s in blocks of `blockSize` slots, adds a block when it is full and never
drops one; `active` and `offset` name the block and the slot the next `Push` writes, and have to
follow `size` across block boundaries both ways.  It is the `heap.Interface` that `Prque` runs
`container/heap` on: `Less` puts the higher priority first, comparing `int64` priorities by the
sign of their difference, and the optional `SetIndexCallback` hears of every index change.

A block is a function from slots to `*item`, `none` for nil; `active`, in Go a slice sharing its
array with one of `blocks`, is the index of that block; the calls made to the callback are kept,
in order, in `reports`.  Read as the slice of its first `size` slots (`flat`), the stack pushes,
pops and swaps as a Go slice does, so the heap algorithms over it are those over the slice
(`simulation`); and the callback's last word on each value is where that value is (`Tracked`). -/
set_option autoImplicit false

namespace SimpleChain.Common

/-- The size of a block of data -/
def blockSize : ℕ := 4096

/-- A prioritized item in the sorted stack. -/
structure Item (V : Type) where
  value : V
  priority : BitVec 64
deriving DecidableEq

variable {V : Type}

/-- `a` comes before `b` if `a.priority - b.priority > 0` as an `int64`: priorities may wrap
around. -/
def Item.before (a b : Item V) : Bool := decide (0 < (a.priority - b.priority).toInt)

/-- `Less` on the items of two slots; Go dereferences a nil slot. -/
def slotLess : Option (Item V) → Option (Item V) → Bool
  | some a, some b => a.before b
  | _, _ => false

def emptyBlock : ℕ → Option (Item V) := fun _ => none

structure Sstack (V : Type) where
  /-- whether a `SetIndexCallback` is set -/
  setIndex : Bool
  size : ℕ
  capacity : ℕ
  offset : ℕ
  blocks : List (ℕ → Option (Item V))
  /-- the block `active` shares its array with -/
  active : ℕ
  /-- the callback's calls so far, oldest first -/
  reports : List (V × ℤ)

/-- Creates a new, empty stack. -/
def newSstack (setIndex : Bool) : Sstack V :=
  { setIndex, size := 0, capacity := blockSize, offset := 0, blocks := [emptyBlock], active := 0,
    reports := [] }

namespace Sstack

/-- `s.blocks[b][o]` -/
def slotAt (s : Sstack V) (b o : ℕ) : Option (Item V) := s.blocks.getD b emptyBlock o

/-- The slot of index `i`: `s.blocks[i/blockSize][i%blockSize]`. -/
def slot (s : Sstack V) (i : ℕ) : Option (Item V) := s.slotAt (i / blockSize) (i % blockSize)

/-- `s.blocks[b][o] = x` -/
def write (s : Sstack V) (b o : ℕ) (x : Option (Item V)) : Sstack V :=
  { s with blocks := s.blocks.modify b (Function.update · o x) }

/-- `s.setIndex(x.value, i)` if a callback is set; Go dereferences a nil `x`. -/
def report (s : Sstack V) (x : Option (Item V)) (i : ℤ) : Sstack V :=
  match x with
  | some it => if s.setIndex then { s with reports := s.reports ++ [(it.value, i)] } else s
  | none => s

/-- The calls `report` makes: `setIndex(x.value, i)`, if a callback is set. -/
def called (setIndex : Bool) (x : Option (Item V)) (i : ℤ) : List (V × ℤ) :=
  if setIndex then (x.map fun it => (it.value, i)).toList else []

/-- The first half of `Push`: a new block when the stack is full, else the next block when the
active one is. -/
def makeRoom (s : Sstack V) : Sstack V :=
  if s.size = s.capacity then
    { s with blocks := s.blocks ++ [emptyBlock], active := s.blocks.length,
             capacity := s.capacity + blockSize, offset := 0 }
  else if s.offset = blockSize then { s with active := s.size / blockSize, offset := 0 }
  else s

/-- The second half of `Push`: tell the callback, store at `active[offset]`, count. -/
def store (s : Sstack V) (data : Option (Item V)) : Sstack V :=
  let s := (s.report data s.size).write s.active s.offset data
  { s with offset := s.offset + 1, size := s.size + 1 }

/-- Pushes a value onto the stack, expanding it if necessary. -/
def push (s : Sstack V) (data : Option (Item V)) : Sstack V := s.makeRoom.store data

/-- The first half of `Pop`: `size--` and `offset--`, back to the last slot of the block before
when the offset runs out. -/
def stepBack (s : Sstack V) : Sstack V :=
  let size := s.size - 1
  if s.offset = 0 then { s with size, offset := blockSize - 1, active := size / blockSize }
  else { s with size, offset := s.offset - 1 }

/-- Pops a value off the stack and returns it; the slot is cleared, no block is dropped. -/
def pop (s : Sstack V) : Sstack V × Option (Item V) :=
  let s := s.stepBack
  let res := s.slotAt s.active s.offset
  ((s.write s.active s.offset none).report res (-1), res)

def len (s : Sstack V) : ℕ := s.size

/-- Compares the priority of two elements of the stack (higher is first). -/
def less (s : Sstack V) (i j : ℕ) : Bool := slotLess (s.slot i) (s.slot j)

/-- Swaps two elements in the stack, telling the callback both new indices. -/
def swap (s : Sstack V) (i j : ℕ) : Sstack V :=
  let a := s.slot j
  let b := s.slot i
  let s := (s.report a i).report b j
  (s.write (i / blockSize) (i % blockSize) a).write (j / blockSize) (j % blockSize) b

/-- Resets the stack; the callback stays, and is not told of the values dropped. -/
def reset (s : Sstack V) : Sstack V := { newSstack s.setIndex with reports := s.reports }

/-- The stack as a `heap.Interface`. -/
def heap : GoHeap.Interface (Sstack V) (Option (Item V)) where
  len := len
  less := less
  swap := swap
  push := push
  pop := pop

/-- The first `size` slots, as a slice. -/
def flat (s : Sstack V) : List (Option (Item V)) := (List.range s.size).map s.slot

/-! ## Reading slots -/

variable {s : Sstack V} {b o i j : ℕ} {x : Option (Item V)}

@[simp] theorem heap_len : heap.len s = s.size := rfl

@[simp] theorem write_size : (s.write b o x).size = s.size := rfl

@[simp] theorem write_offset : (s.write b o x).offset = s.offset := rfl

@[simp] theorem write_active : (s.write b o x).active = s.active := rfl

@[simp] theorem write_capacity : (s.write b o x).capacity = s.capacity := rfl

@[simp] theorem write_setIndex : (s.write b o x).setIndex = s.setIndex := rfl

@[simp] theorem write_reports : (s.write b o x).reports = s.reports := rfl

@[simp] theorem length_write_blocks : (s.write b o x).blocks.length = s.blocks.length := by
  simp [write]

@[simp] theorem report_size (k : ℤ) : (s.report x k).size = s.size := by
  unfold report; split <;> (try split) <;> rfl

@[simp] theorem report_offset (k : ℤ) : (s.report x k).offset = s.offset := by
  unfold report; split <;> (try split) <;> rfl

@[simp] theorem report_active (k : ℤ) : (s.report x k).active = s.active := by
  unfold report; split <;> (try split) <;> rfl

@[simp] theorem report_capacity (k : ℤ) : (s.report x k).capacity = s.capacity := by
  unfold report; split <;> (try split) <;> rfl

@[simp] theorem report_setIndex (k : ℤ) : (s.report x k).setIndex = s.setIndex := by
  unfold report; split <;> (try split) <;> rfl

@[simp] theorem report_blocks (k : ℤ) : (s.report x k).blocks = s.blocks := by
  unfold report; split <;> (try split) <;> rfl

@[simp] theorem report_reports (k : ℤ) : (s.report x k).reports = s.reports ++ called s.setIndex x k := by
  unfold report called
  rcases x with _ | it
  · simp
  · by_cases set : s.setIndex <;> simp [set]

@[simp] theorem report_slot (k : ℤ) : (s.report x k).slot = s.slot := by
  funext i; simp [slot, slotAt]

@[simp] theorem report_slotAt (k : ℤ) : (s.report x k).slotAt = s.slotAt := by
  funext b o; simp [slotAt]

theorem slot_eq_slotAt (inner : o < blockSize) : s.slot (blockSize * b + o) = s.slotAt b o := by
  unfold slot blockSize at *
  congr 1 <;> omega

theorem slotAt_write (inside : b < s.blocks.length) (b' o' : ℕ) :
    (s.write b o x).slotAt b' o' = if b' = b ∧ o' = o then x else s.slotAt b' o' := by
  simp only [slotAt, write, List.getD_eq_getElem?_getD, List.getElem?_modify]
  by_cases block : b = b'
  · subst block
    simp [List.getElem?_eq_getElem inside, Function.update_apply]
  · cases s.blocks[b']? <;> simp [block, Ne.symm block]

/-- A write changes the one slot it names, in a block the stack has. -/
theorem slot_write (inside : b < s.blocks.length) (inner : o < blockSize) (i : ℕ) :
    (s.write b o x).slot i = if i = blockSize * b + o then x else s.slot i := by
  have position : (i / blockSize = b ∧ i % blockSize = o) ↔ i = blockSize * b + o := by
    unfold blockSize at *
    omega
  simp only [slot, slotAt_write inside, position]

/-- Adding an empty block changes no slot. -/
theorem slot_append_empty (i : ℕ) :
    ({ s with blocks := s.blocks ++ [emptyBlock] } : Sstack V).slot i = s.slot i := by
  unfold slot slotAt
  dsimp only
  by_cases inside : i / blockSize < s.blocks.length
  · rw [List.getD_append _ _ _ _ inside]
  · rw [List.getD_append_right _ _ _ _ (by omega), List.getD_eq_default s.blocks _ (by omega)]
    cases i / blockSize - s.blocks.length <;> simp

@[simp] theorem length_flat : s.flat.length = s.size := by simp [flat]

theorem getD_flat (lt : i < s.size) : s.flat.getD i none = s.slot i := by
  simp [flat, List.getD_eq_getElem?_getD, lt]

/-! ## Shape

`active` and `offset` stand just past the last element, in a block the stack has; `Push` and
`Pop` keep them there across block boundaries, and then write and read slot `size`. -/

structure Shaped (s : Sstack V) : Prop where
  capacity_eq : s.capacity = blockSize * s.blocks.length
  size_eq : s.size = blockSize * s.active + s.offset
  offset_le : s.offset ≤ blockSize
  active_lt : s.active < s.blocks.length

theorem newSstack_shaped (setIndex : Bool) : (newSstack setIndex : Sstack V).Shaped where
  capacity_eq := by simp [newSstack]
  size_eq := by simp [newSstack]
  offset_le := by simp [newSstack]
  active_lt := by simp [newSstack]

theorem Shaped.size_le (shaped : s.Shaped) : s.size ≤ s.capacity := by
  obtain ⟨capacity, size, offset, active⟩ := shaped
  unfold blockSize at *
  omega

/-- After `makeRoom`, `active[offset]` is slot `size`, and no slot has changed. -/
theorem makeRoom_spec (shaped : s.Shaped) :
    s.makeRoom.Shaped ∧ s.makeRoom.offset < blockSize ∧ s.makeRoom.size = s.size ∧
      s.makeRoom.slot = s.slot ∧ s.makeRoom.setIndex = s.setIndex ∧ s.makeRoom.reports = s.reports := by
  have fits := shaped.size_le
  obtain ⟨capacity, size, offset, active⟩ := shaped
  unfold makeRoom
  split
  case isTrue full =>
    -- a new block, the stack being full
    refine ⟨⟨?_, ?_, ?_, ?_⟩, ?_, rfl, funext slot_append_empty, rfl, rfl⟩ <;>
      simp only [List.length_append, List.length_singleton] <;> unfold blockSize at * <;> omega
  case isFalse notFull =>
    split
    case isTrue atEnd =>
      -- the next block, the active one being full
      refine ⟨⟨?_, ?_, ?_, ?_⟩, ?_, rfl, rfl, rfl, rfl⟩ <;> dsimp only <;> unfold blockSize at * <;> omega
    case isFalse inBlock => exact ⟨⟨capacity, size, offset, active⟩, by omega, rfl, rfl, rfl, rfl⟩

/-- `store` from where `active[offset]` is slot `size`. -/
theorem store_spec (shaped : s.Shaped) (room : s.offset < blockSize) :
    (s.store x).Shaped ∧ (s.store x).size = s.size + 1 ∧
      (∀ i, (s.store x).slot i = if i = s.size then x else s.slot i) ∧
      (s.store x).setIndex = s.setIndex ∧ (s.store x).reports = s.reports ++ called s.setIndex x s.size := by
  obtain ⟨capacity, size, offset, active⟩ := shaped
  refine ⟨⟨?_, ?_, ?_, ?_⟩, by simp [store], fun i => ?_, by simp [store], by simp [store]⟩
  · simpa [store] using capacity
  · simp only [store, write_size, report_size, write_offset, report_offset, write_active,
      report_active]
    omega
  · simp only [store, write_offset, report_offset]
    omega
  · simpa [store] using active
  · show ((s.report x s.size).write s.active s.offset x).slot i = _
    rw [slot_write (by simpa using active) room, report_slot, ← size]

/-- `Push` stores at slot `size`. -/
theorem push_spec (shaped : s.Shaped) :
    (s.push x).Shaped ∧ (s.push x).size = s.size + 1 ∧
      (∀ i, (s.push x).slot i = if i = s.size then x else s.slot i) ∧
      (s.push x).setIndex = s.setIndex ∧ (s.push x).reports = s.reports ++ called s.setIndex x s.size := by
  obtain ⟨roomShaped, room, size, slots, setIndex, reports⟩ := makeRoom_spec shaped
  obtain ⟨kept, grown, stored, setIndex', reports'⟩ := store_spec (x := x) roomShaped room
  refine ⟨kept, ?_, fun i => ?_, ?_, ?_⟩
  · rw [push, grown, size]
  · rw [push, stored, size, slots]
  · rw [push, setIndex', setIndex]
  · rw [push, reports', size, setIndex, reports]

/-- After `stepBack`, `active[offset]` is the last element's slot, and no slot has changed. -/
theorem stepBack_spec (shaped : s.Shaped) (nonempty : 0 < s.size) :
    s.stepBack.Shaped ∧ s.stepBack.offset < blockSize ∧ s.stepBack.size = s.size - 1 ∧
      s.stepBack.slot = s.slot ∧ s.stepBack.setIndex = s.setIndex ∧
      s.stepBack.reports = s.reports := by
  obtain ⟨capacity, size, offset, active⟩ := shaped
  unfold stepBack
  split
  case isTrue atStart =>
    -- back to the last slot of the block before
    have before : 0 < s.active := by
      rcases Nat.eq_zero_or_pos s.active with zero | pos
      · rw [zero] at size; omega
      · exact pos
    refine ⟨⟨?_, ?_, ?_, ?_⟩, ?_, rfl, rfl, rfl, rfl⟩ <;> dsimp only <;> unfold blockSize at * <;> omega
  case isFalse inBlock =>
    refine ⟨⟨?_, ?_, ?_, ?_⟩, ?_, rfl, rfl, rfl, rfl⟩ <;> dsimp only <;> unfold blockSize at * <;> omega

/-- `Pop` takes and clears the last element's slot. -/
theorem pop_spec (shaped : s.Shaped) (nonempty : 0 < s.size) :
    s.pop.1.Shaped ∧ s.pop.1.size = s.size - 1 ∧ s.pop.2 = s.slot (s.size - 1) ∧
      (∀ i, s.pop.1.slot i = if i = s.size - 1 then none else s.slot i) ∧
      s.pop.1.setIndex = s.setIndex ∧ s.pop.1.reports = s.reports ++ called s.setIndex s.pop.2 (-1) := by
  obtain ⟨backShaped, room, size, slots, setIndex, reports⟩ := stepBack_spec shaped nonempty
  have inside := backShaped.active_lt
  have last : s.stepBack.slotAt s.stepBack.active s.stepBack.offset = s.slot (s.size - 1) := by
    rw [← slots, ← size, backShaped.size_eq, slot_eq_slotAt room]
  refine ⟨⟨?_, ?_, ?_, ?_⟩, ?_, last, fun i => ?_, ?_, ?_⟩
  · simpa [pop] using backShaped.capacity_eq
  · simpa [pop] using backShaped.size_eq
  · simpa [pop] using backShaped.offset_le
  · simpa [pop] using inside
  · simp [pop, size]
  · simp only [pop, report_slot]
    rw [slot_write inside room, ← backShaped.size_eq, size, slots]
  · simp [pop, setIndex]
  · simp [pop, setIndex, reports]

/-- `Swap` exchanges two slots below `size`, and tells the callback of both. -/
theorem swap_spec (shaped : s.Shaped) (hi : i < s.size) (hj : j < s.size) :
    (s.swap i j).Shaped ∧ (s.swap i j).size = s.size ∧
      (∀ k, (s.swap i j).slot k =
        if k = j then s.slot i else if k = i then s.slot j else s.slot k) ∧
      (s.swap i j).setIndex = s.setIndex ∧
      (s.swap i j).reports = s.reports ++ called s.setIndex (s.slot j) i ++ called s.setIndex (s.slot i) j := by
  obtain ⟨capacity, size, offset, active⟩ := shaped
  -- every slot below `size` lies in a block the stack has
  have block : ∀ k < s.size, k / blockSize < s.blocks.length := by
    intro k lt
    unfold blockSize at *
    omega
  have inner : ∀ k, k % blockSize < blockSize := fun k => by unfold blockSize; omega
  have position : ∀ k, blockSize * (k / blockSize) + k % blockSize = k := fun k => Nat.div_add_mod k blockSize
  refine ⟨⟨?_, ?_, ?_, ?_⟩, ?_, fun k => ?_, ?_, ?_⟩
  · simpa [swap] using capacity
  · simpa [swap] using size
  · simpa [swap] using offset
  · simpa [swap] using active
  · simp [swap]
  · simp only [swap]
    rw [slot_write (by simpa using block j hj) (inner j), slot_write (by simpa using block i hi) (inner i),
      position, position, report_slot, report_slot]
  · simp [swap]
  · simp [swap]

/-- `Swap` reads each slot through the transposition of the two indices. -/
theorem slot_swap (shaped : s.Shaped) (hi : i < s.size) (hj : j < s.size) (k : ℕ) :
    (s.swap i j).slot k = s.slot (Equiv.swap i j k) := by
  rw [(swap_spec shaped hi hj).2.2.1, Equiv.swap_apply_def]
  rcases eq_or_ne k i with rfl | ki
  · rcases eq_or_ne k j with rfl | kj <;> simp [*]
  · rcases eq_or_ne k j with rfl | kj <;> simp [*]

/-! ## The stack as a slice -/

theorem flat_push (shaped : s.Shaped) : (s.push x).flat = s.flat ++ [x] := by
  obtain ⟨-, size, slots, -, -⟩ := push_spec (x := x) shaped
  rw [flat, size, List.range_succ, List.map_append, flat]
  congr 1
  · apply List.map_congr_left
    intro i mem
    rw [slots, if_neg (by simp at mem; omega)]
  · simp [slots]

theorem flat_pop (shaped : s.Shaped) (nonempty : 0 < s.size) :
    s.pop.1.flat = s.flat.dropLast ∧ s.pop.2 = s.flat.getLastD none := by
  obtain ⟨-, size, popped, slots, -, -⟩ := pop_spec shaped nonempty
  have split : s.flat = (List.range (s.size - 1)).map s.slot ++ [s.slot (s.size - 1)] := by
    rw [flat, ← List.map_singleton, ← List.map_append, ← List.range_succ, Nat.succ_eq_add_one,
      Nat.sub_add_cancel nonempty]
  rw [split, List.dropLast_concat, List.getLastD_concat, popped, flat, size]
  refine ⟨List.map_congr_left fun i mem => ?_, rfl⟩
  rw [slots, if_neg (by simp at mem; omega)]

theorem flat_swap (shaped : s.Shaped) (hi : i < s.size) (hj : j < s.size) :
    (s.swap i j).flat = GoHeap.swapAt s.flat i j := by
  obtain ⟨-, size, slots, -, -⟩ := swap_spec shaped hi hj
  apply List.ext_getElem (by simp [size])
  intro k lhs rhs
  have inside : k < s.size := by simpa [size] using lhs
  rw [← List.getD_eq_getElem _ none lhs, ← List.getD_eq_getElem _ none rhs, getD_flat (by rwa [size]),
    ← Option.default_eq_none, GoHeap.getD_swapAt (by simpa) (by simpa), Option.default_eq_none,
    getD_flat hi, getD_flat hj, getD_flat inside, slots]

/-- The heap algorithms over the stack are those over the slice of its first `size` slots. -/
theorem simulation : GoHeap.Simulation heap (GoHeap.list slotLess) flat (Shaped (V := V)) where
  invariant :=
    { len_swap := fun _ _ _ => by simp [heap, swap, len]
      swap := fun _ _ _ hi hj shaped => (swap_spec shaped hi hj).1 }
  len_view _ _ := by simp [heap, len]
  less_view _ _ _ _ hi hj := by
    simp only [GoHeap.list, heap, less, Option.default_eq_none, getD_flat hi, getD_flat hj]
  swap_view _ _ _ shaped hi hj := flat_swap shaped hi hj
  push_view _ _ shaped := ⟨flat_push shaped, (push_spec shaped).1, (push_spec shaped).2.1⟩
  pop_view _ shaped nonempty := by
    obtain ⟨state, value⟩ := flat_pop shaped nonempty
    exact ⟨state, by simpa [GoHeap.list, heap, Option.default_eq_none] using value⟩

/-! ## What the callback knows

While no two elements below `size` share a value, the last index the callback was given for a
value is the value's index while it is in the stack, and -1, or none at all, once it is not. -/

/-- The value of the element at `i`. -/
def valueAt (s : Sstack V) (i : ℕ) : Option V := (s.slot i).map Item.value

/-- No two elements below `size` have one value. -/
def Distinct (s : Sstack V) : Prop :=
  ∀ i < s.size, ∀ j < s.size, ∀ v, s.valueAt i = some v → s.valueAt j = some v → i = j

theorem swap_lt {n : ℕ} (hi : i < n) (hj : j < n) {k : ℕ} (hk : k < n) : Equiv.swap i j k < n := by
  rw [Equiv.swap_apply_def]
  split_ifs <;> assumption

theorem valueAt_swap (shaped : s.Shaped) (hi : i < s.size) (hj : j < s.size) (k : ℕ) :
    (s.swap i j).valueAt k = s.valueAt (Equiv.swap i j k) := by
  simp only [valueAt, slot_swap shaped hi hj]

theorem valueAt_push (shaped : s.Shaped) (k : ℕ) :
    (s.push x).valueAt k = if k = s.size then x.map Item.value else s.valueAt k := by
  simp only [valueAt, (push_spec shaped).2.2.1]
  split <;> rfl

theorem valueAt_pop (shaped : s.Shaped) (nonempty : 0 < s.size) (k : ℕ) :
    s.pop.1.valueAt k = if k = s.size - 1 then none else s.valueAt k := by
  simp only [valueAt, (pop_spec shaped nonempty).2.2.2.1]
  split <;> rfl

theorem Distinct.swap (distinct : s.Distinct) (shaped : s.Shaped) (hi : i < s.size) (hj : j < s.size) :
    (s.swap i j).Distinct := by
  intro k hk l hl v atK atL
  rw [(swap_spec shaped hi hj).2.1] at hk hl
  rw [valueAt_swap shaped hi hj] at atK atL
  exact (Equiv.swap i j).injective (distinct _ (swap_lt hi hj hk) _ (swap_lt hi hj hl) v atK atL)

theorem Distinct.push (distinct : s.Distinct) (shaped : s.Shaped) {it : Item V}
    (fresh : ∀ i < s.size, s.valueAt i ≠ some it.value) : (s.push (some it)).Distinct := by
  intro k hk l hl v atK atL
  rw [(push_spec shaped).2.1] at hk hl
  rw [valueAt_push shaped] at atK atL
  split at atK <;> split at atL
  · omega
  · simp only [Option.map_some, Option.some.injEq] at atK
    exact absurd (atK ▸ atL) (fresh l (by omega))
  · simp only [Option.map_some, Option.some.injEq] at atL
    exact absurd (atL ▸ atK) (fresh k (by omega))
  · exact distinct k (by omega) l (by omega) v atK atL

theorem Distinct.pop (distinct : s.Distinct) (shaped : s.Shaped) (nonempty : 0 < s.size) :
    s.pop.1.Distinct := by
  intro k hk l hl v atK atL
  rw [(pop_spec shaped nonempty).2.1] at hk hl
  rw [valueAt_pop shaped nonempty, if_neg (by omega)] at atK atL
  exact distinct k (by omega) l (by omega) v atK atL

section Tracking
variable [DecidableEq V]

/-- The index the callback was last given for `v`. -/
def lastIndex (reports : List (V × ℤ)) (v : V) : Option ℤ :=
  reports.foldl (fun last r => if r.1 = v then some r.2 else last) none

theorem lastIndex_append_called (rs : List (V × ℤ)) (b : Bool) (y : Option (Item V)) (k : ℤ) (v : V) :
    lastIndex (rs ++ called b y k) v =
      if b = true ∧ y.map Item.value = some v then some k else lastIndex rs v := by
  unfold called
  rcases y with _ | it <;> cases b <;> simp [lastIndex, List.foldl_append]

/-- The callback was last told each value's index while it is in the stack, and -1, if
anything, since it left. -/
structure Tracked (s : Sstack V) : Prop where
  silent : s.setIndex = false → s.reports = []
  live : s.setIndex = true → ∀ i < s.size, ∀ v, s.valueAt i = some v → lastIndex s.reports v = some (i : ℤ)
  gone : ∀ v, (∀ i < s.size, s.valueAt i ≠ some v) →
    lastIndex s.reports v = none ∨ lastIndex s.reports v = some (-1)

/-- No call is made without a callback. -/
theorem Tracked.silent_called (tracked : s.Tracked) {t : Sstack V} (off : t.setIndex = false)
    (same : t.setIndex = s.setIndex) (calls : List (V × ℤ))
    (reports : t.reports = s.reports ++ calls) (none : s.setIndex = false → calls = []) : t.reports = [] := by
  rw [same] at off
  rw [reports, tracked.silent off, none off, List.append_nil]

theorem Tracked.swap (tracked : s.Tracked) (distinct : s.Distinct) (shaped : s.Shaped) (hi : i < s.size)
    (hj : j < s.size) : (s.swap i j).Tracked := by
  obtain ⟨-, size, -, setIndex, reports⟩ := swap_spec shaped hi hj
  -- the callback's last word on `v` after both calls
  have last : ∀ v, lastIndex (s.swap i j).reports v =
      if s.setIndex = true ∧ s.valueAt i = some v then some (j : ℤ)
      else if s.setIndex = true ∧ s.valueAt j = some v then some (i : ℤ) else lastIndex s.reports v := by
    intro v
    rw [reports, lastIndex_append_called, lastIndex_append_called]
    rfl
  refine ⟨fun off => tracked.silent_called off setIndex _ (by rw [reports, List.append_assoc])
    (fun off => by simp [called, off]), fun on k hk v atK => ?_, fun v absent => ?_⟩
  · rw [setIndex] at on
    rw [size] at hk
    rw [valueAt_swap shaped hi hj] at atK
    rw [last v]
    -- `v` sat at the transposed index of `k`
    by_cases atI : s.valueAt i = some v
    · have moved := distinct _ (swap_lt hi hj hk) _ hi v atK atI
      rw [Equiv.swap_apply_eq_iff, Equiv.swap_apply_left] at moved
      rw [if_pos ⟨on, atI⟩, moved]
    · by_cases atJ : s.valueAt j = some v
      · have moved := distinct _ (swap_lt hi hj hk) _ hj v atK atJ
        rw [Equiv.swap_apply_eq_iff, Equiv.swap_apply_right] at moved
        rw [if_neg (fun both => atI both.2), if_pos ⟨on, atJ⟩, moved]
      · have ki : k ≠ j := fun e => atI (by rwa [e, Equiv.swap_apply_right] at atK)
        have kj : k ≠ i := fun e => atJ (by rwa [e, Equiv.swap_apply_left] at atK)
        rw [Equiv.swap_apply_of_ne_of_ne kj ki] at atK
        rw [if_neg (fun both => atI both.2), if_neg (fun both => atJ both.2)]
        exact tracked.live on k hk v atK
  · -- a value absent after the swap was absent before it
    have before : ∀ p < s.size, s.valueAt p ≠ some v := by
      intro p hp atP
      have := absent (Equiv.swap i j p) (by rw [size]; exact swap_lt hi hj hp)
      rw [valueAt_swap shaped hi hj, Equiv.swap_apply_self] at this
      exact this atP
    rw [last v, if_neg (fun both => before i hi both.2), if_neg (fun both => before j hj both.2)]
    exact tracked.gone v before

theorem Tracked.push (tracked : s.Tracked) (shaped : s.Shaped) {it : Item V}
    (fresh : ∀ i < s.size, s.valueAt i ≠ some it.value) : (s.push (some it)).Tracked := by
  obtain ⟨-, size, -, setIndex, reports⟩ := push_spec (x := some it) shaped
  have last : ∀ v, lastIndex (s.push (some it)).reports v =
      if s.setIndex = true ∧ it.value = v then some (s.size : ℤ) else lastIndex s.reports v := by
    intro v
    rw [reports, lastIndex_append_called]
    simp
  refine ⟨fun off => tracked.silent_called off setIndex _ reports (fun off => by simp [called, off]),
    fun on k hk v atK => ?_, fun v absent => ?_⟩
  · rw [setIndex] at on
    rw [size] at hk
    rw [valueAt_push shaped] at atK
    rw [last v]
    split at atK
    case isTrue top =>
      simp only [Option.map_some, Option.some.injEq] at atK
      rw [if_pos ⟨on, atK⟩, top]
    case isFalse below =>
      have other : it.value ≠ v := fun e => fresh k (by omega) (e ▸ atK)
      rw [if_neg (fun both => other both.2)]
      exact tracked.live on k (by omega) v atK
  · have notNew : it.value ≠ v := fun e =>
      absent s.size (by rw [size]; omega) (by rw [valueAt_push shaped, if_pos rfl, Option.map_some, e])
    have before : ∀ p < s.size, s.valueAt p ≠ some v := fun p hp => by
      have := absent p (by rw [size]; omega)
      rwa [valueAt_push shaped, if_neg (by omega)] at this
    rw [last v, if_neg (fun both => notNew both.2)]
    exact tracked.gone v before

theorem Tracked.pop (tracked : s.Tracked) (distinct : s.Distinct) (shaped : s.Shaped)
    (nonempty : 0 < s.size) : s.pop.1.Tracked := by
  obtain ⟨-, size, popped, -, setIndex, reports⟩ := pop_spec shaped nonempty
  have last : ∀ v, lastIndex s.pop.1.reports v =
      if s.setIndex = true ∧ s.valueAt (s.size - 1) = some v then some (-1) else lastIndex s.reports v := by
    intro v
    rw [reports, lastIndex_append_called, popped]
    rfl
  refine ⟨fun off => tracked.silent_called off setIndex _ reports (fun off => by simp [called, off]),
    fun on k hk v atK => ?_, fun v absent => ?_⟩
  · rw [setIndex] at on
    rw [size] at hk
    rw [valueAt_pop shaped nonempty, if_neg (by omega)] at atK
    have notLast : s.valueAt (s.size - 1) ≠ some v := fun e => by
      have := distinct k (by omega) (s.size - 1) (by omega) v atK e
      omega
    rw [last v, if_neg (fun both => notLast both.2)]
    exact tracked.live on k (by omega) v atK
  · rw [last v]
    -- the value that left is reported -1; any other was absent before
    by_cases leaving : s.valueAt (s.size - 1) = some v
    · by_cases on : s.setIndex = true
      · rw [if_pos ⟨on, leaving⟩]
        exact .inr rfl
      · rw [if_neg (fun both => on both.1), tracked.silent (by simpa using on)]
        exact .inl rfl
    · have before : ∀ p < s.size, s.valueAt p ≠ some v := by
        intro p hp atP
        by_cases top : p = s.size - 1
        · exact leaving (top ▸ atP)
        · exact absent p (by rw [size]; omega) (by rw [valueAt_pop shaped nonempty, if_neg top]; exact atP)
      rw [if_neg (fun both => leaving both.2)]
      exact tracked.gone v before

/-- What every swap keeps: the shape, distinct values and the callback's knowledge. -/
structure Valid (s : Sstack V) : Prop where
  shaped : s.Shaped
  distinct : s.Distinct
  tracked : s.Tracked

theorem newSstack_valid (setIndex : Bool) : (newSstack setIndex : Sstack V).Valid where
  shaped := newSstack_shaped setIndex
  distinct i hi := by simp [newSstack] at hi
  tracked :=
    { silent := fun _ => rfl
      live := fun _ i hi => by simp [newSstack] at hi
      gone := fun _ _ => .inl rfl }

theorem swapInvariant_valid : GoHeap.SwapInvariant heap (Valid (V := V)) where
  len_swap := simulation.invariant.len_swap
  swap _ _ _ hi hj valid :=
    ⟨(swap_spec valid.shaped hi hj).1, valid.distinct.swap valid.shaped hi hj,
      valid.tracked.swap valid.distinct valid.shaped hi hj⟩

theorem Valid.push (valid : s.Valid) {it : Item V} (fresh : ∀ i < s.size, s.valueAt i ≠ some it.value) :
    (s.push (some it)).Valid :=
  ⟨(push_spec valid.shaped).1, valid.distinct.push valid.shaped fresh, valid.tracked.push valid.shaped fresh⟩

theorem Valid.pop (valid : s.Valid) (nonempty : 0 < s.size) : s.pop.1.Valid :=
  ⟨(pop_spec valid.shaped nonempty).1, valid.distinct.pop valid.shaped nonempty,
    valid.tracked.pop valid.distinct valid.shaped nonempty⟩

end Tracking

end Sstack

end SimpleChain.Common
