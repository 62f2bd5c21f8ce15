import Mathlib

/-! # Go's `container/heap`

The package runs its algorithms on any `heap.Interface`: `Len`, `Less(i, j)` and `Swap(i, j)` on
positions, and `Push`/`Pop` of the last element.  `Interface σ α` is that method set on a state
`σ` holding elements `α`; `up`, `down`, `init`, `push`, `pop` and `remove` are the package's
functions over it, step for step.  `Pop` and `Remove` on an empty heap, and `Remove` past the
end, index out of range in Go; they return `none` here.

`list` is the interface of a slice of elements compared by a relation `less`.  On it the
algorithms permute the elements, and, when `less` orders the elements present by a key into a
linear order, `push`, `pop`, `remove` and `init` leave a heap: every element's key is at least
its parent's, so the root has the least key. -/
set_option autoImplicit false

namespace GoHeap

structure Interface (σ α : Type) where
  len : σ → ℕ
  less : σ → ℕ → ℕ → Bool
  swap : σ → ℕ → ℕ → σ
  push : σ → α → σ
  pop : σ → σ × α

def parent (j : ℕ) : ℕ := (j - 1) / 2

section Algorithms
variable {σ α : Type} (h : Interface σ α)

/-- `up(h, j)`: swap the element at `j` with its parent while it is less. -/
def up (s : σ) (j : ℕ) : σ :=
  if parent j = j then s
  else if h.less s j (parent j) then up (h.swap s (parent j) j) (parent j)
  else s
termination_by j
decreasing_by unfold parent at *; omega

/-- The child `down` compares with: the right one when it is less than the left one. -/
def child (s : σ) (i n : ℕ) : ℕ :=
  if 2 * i + 1 + 1 < n ∧ h.less s (2 * i + 1 + 1) (2 * i + 1) then 2 * i + 1 + 1 else 2 * i + 1

theorem child_bounds (s : σ) (i n : ℕ) (inside : 2 * i + 1 < n) :
    2 * i + 1 ≤ child h s i n ∧ child h s i n ≤ 2 * i + 2 ∧ child h s i n < n := by
  unfold child
  split <;> omega

/-- The loop of `down(h, i0, n)`: the state and the position the element stopped at. -/
def downLoop (s : σ) (i n : ℕ) : σ × ℕ :=
  if 2 * i + 1 ≥ n then (s, i)
  else
    let j := child h s i n
    if h.less s j i then downLoop (h.swap s i j) j n else (s, i)
termination_by n - i
decreasing_by have := child_bounds h s i n (by omega); omega

/-- `down(h, i0, n)`, with whether the element moved. -/
def down (s : σ) (i0 n : ℕ) : σ × Bool :=
  let stop := downLoop h s i0 n
  (stop.1, decide (stop.2 > i0))

theorem down_fst (s : σ) (i0 n : ℕ) : (down h s i0 n).1 = (downLoop h s i0 n).1 := rfl

/-- `heap.Init`: `down` from every parent, the last first. -/
def init (s : σ) : σ :=
  let n := h.len s
  (List.range (n / 2)).reverse.foldl (fun t i => (down h t i n).1) s

/-- `heap.Push` -/
def push (s : σ) (x : α) : σ :=
  let s := h.push s x
  up h s (h.len s - 1)

/-- `heap.Pop`: the root goes last and is popped. -/
def pop (s : σ) : Option (σ × α) :=
  if h.len s = 0 then none
  else
    let n := h.len s - 1
    some (h.pop (down h (h.swap s 0 n) 0 n).1)

/-- `heap.Remove(h, i)`: the element at `i` goes last and is popped; the one that took its place
moves down, or else up. -/
def remove (s : σ) (i : ℕ) : Option (σ × α) :=
  if i ≥ h.len s then none
  else
    let n := h.len s - 1
    if n ≠ i then
      let moved := down h (h.swap s i n) i n
      some (h.pop (if !moved.2 then up h moved.1 i else moved.1))
    else some (h.pop s)

end Algorithms

/-! ## What every algorithm keeps

The algorithms change the state only by `Swap`s of positions below `Len`, then `Push` or `Pop`:
a property of states that such swaps keep, the algorithms keep. -/

section Invariant
variable {σ α : Type} (h : Interface σ α)

/-- Swaps keep the length, and keep `P` when both positions are below it. -/
structure SwapInvariant (P : σ → Prop) : Prop where
  len_swap : ∀ s i j, h.len (h.swap s i j) = h.len s
  swap : ∀ s i j, i < h.len s → j < h.len s → P s → P (h.swap s i j)

variable {h} {P : σ → Prop}

theorem SwapInvariant.up (inv : SwapInvariant h P) (s : σ) (j : ℕ) (lt : j < h.len s) (start : P s) :
    P (GoHeap.up h s j) ∧ h.len (GoHeap.up h s j) = h.len s := by
  fun_induction GoHeap.up h s j with
  | case1 s j same => exact ⟨start, rfl⟩
  | case2 s j differ less ih =>
    have above : parent j < j := by unfold parent at *; omega
    obtain ⟨kept, length⟩ := ih (by rw [inv.len_swap]; omega) (inv.swap _ _ _ (by omega) lt start)
    exact ⟨kept, length.trans (inv.len_swap _ _ _)⟩
  | case3 s j differ notLess => exact ⟨start, rfl⟩

theorem SwapInvariant.downLoop (inv : SwapInvariant h P) (s : σ) (i n : ℕ) (within : n ≤ h.len s)
    (start : P s) : P (GoHeap.downLoop h s i n).1 ∧ h.len (GoHeap.downLoop h s i n).1 = h.len s := by
  fun_induction GoHeap.downLoop h s i n with
  | case1 s i leaf => exact ⟨start, rfl⟩
  | case2 s i inner j less ih =>
    have bounds := child_bounds h s i n (by omega)
    obtain ⟨kept, length⟩ := ih (by rw [inv.len_swap]; omega) (inv.swap _ _ _ (by omega) (by omega) start)
    exact ⟨kept, length.trans (inv.len_swap _ _ _)⟩
  | case3 s i inner j notLess => exact ⟨start, rfl⟩

/-- The loop of `heap.Init` over any parents. -/
theorem SwapInvariant.downs (inv : SwapInvariant h P) (parents : List ℕ) (n : ℕ) (s : σ)
    (within : n ≤ h.len s) (start : P s) :
    P (parents.foldl (fun t i => (down h t i n).1) s) ∧
      h.len (parents.foldl (fun t i => (down h t i n).1) s) = h.len s := by
  induction parents generalizing s with
  | nil => exact ⟨start, rfl⟩
  | cons i rest ih =>
    obtain ⟨kept, length⟩ := inv.downLoop s i n within start
    rw [List.foldl_cons]
    obtain ⟨kept', length'⟩ := ih _ (by rw [length]; exact within) kept
    exact ⟨kept', length'.trans length⟩

theorem SwapInvariant.init (inv : SwapInvariant h P) (s : σ) (start : P s) :
    P (GoHeap.init h s) ∧ h.len (GoHeap.init h s) = h.len s :=
  inv.downs _ _ s le_rfl start

/-- `heap.Push` keeps what `Push` and swaps keep. -/
theorem SwapInvariant.push (inv : SwapInvariant h P) {s : σ} {x : α} (pushed : P (h.push s x))
    (length : h.len (h.push s x) = h.len s + 1) : P (GoHeap.push h s x) :=
  (inv.up _ _ (by omega) pushed).1

/-- `heap.Pop` keeps what `Pop` and swaps keep. -/
theorem SwapInvariant.pop (inv : SwapInvariant h P) (popped : ∀ t, P t → 0 < h.len t → P (h.pop t).1)
    {s t : σ} {x : α} (start : P s) (result : GoHeap.pop h s = some (t, x)) : P t := by
  unfold GoHeap.pop at result
  split at result
  case isTrue => cases result
  case isFalse nonempty =>
    dsimp only at result
    obtain ⟨rfl, -⟩ := Prod.ext_iff.mp (Option.some.inj result)
    rw [down_fst]
    have swapped := inv.swap s 0 (h.len s - 1) (by omega) (by omega) start
    obtain ⟨kept, length⟩ := inv.downLoop _ 0 (h.len s - 1) (by rw [inv.len_swap]; omega) swapped
    exact popped _ kept (by rw [length, inv.len_swap]; omega)

/-- `heap.Remove` keeps what `Pop` and swaps keep. -/
theorem SwapInvariant.remove (inv : SwapInvariant h P) (popped : ∀ t, P t → 0 < h.len t → P (h.pop t).1)
    {s t : σ} {i : ℕ} {x : α} (start : P s) (result : GoHeap.remove h s i = some (t, x)) : P t := by
  unfold GoHeap.remove at result
  split at result
  case isTrue => cases result
  case isFalse inside =>
    dsimp only at result
    split at result
    case isTrue other =>
      obtain ⟨rfl, -⟩ := Prod.ext_iff.mp (Option.some.inj result)
      rw [down_fst]
      have swapped := inv.swap s i (h.len s - 1) (by omega) (by omega) start
      obtain ⟨kept, length⟩ := inv.downLoop _ i (h.len s - 1) (by rw [inv.len_swap]; omega) swapped
      rw [inv.len_swap] at length
      -- after `down`, `up` may run from `i`
      split
      case isTrue =>
        obtain ⟨upKept, upLength⟩ := inv.up _ i (by rw [length]; omega) kept
        exact popped _ upKept (by rw [upLength, length]; omega)
      case isFalse => exact popped _ kept (by rw [length]; omega)
    case isFalse last =>
      obtain ⟨rfl, -⟩ := Prod.ext_iff.mp (Option.some.inj result)
      exact popped _ start (by omega)

end Invariant

/-! ## Positions -/

section Positions
variable {σ α : Type} (h : Interface σ α)

theorem parent_lt {c : ℕ} (pos : 0 < c) : parent c < c := by unfold parent; omega

theorem parent_eq_iff {c i : ℕ} (pos : 0 < c) : parent c = i ↔ c = 2 * i + 1 ∨ c = 2 * i + 2 := by
  unfold parent; omega

/-- The element `down` sifts only moves away from where it started. -/
theorem le_downLoop (s : σ) (i n : ℕ) : i ≤ (downLoop h s i n).2 := by
  fun_induction downLoop h s i n with
  | case1 => exact le_rfl
  | case2 s i inner j less ih =>
    have := child_bounds h s i n (by omega)
    omega
  | case3 => exact le_rfl

theorem downLoop_swap {s : σ} {i n : ℕ} (inner : 2 * i + 1 < n) (less : h.less s (child h s i n) i = true) :
    downLoop h s i n = downLoop h (h.swap s i (child h s i n)) (child h s i n) n := by
  rw [downLoop, if_neg (by omega)]
  exact if_pos less

theorem downLoop_stop {s : σ} {i n : ℕ} (stop : 2 * i + 1 ≥ n ∨ h.less s (child h s i n) i = false) :
    downLoop h s i n = (s, i) := by
  rw [downLoop]
  split
  case isTrue => rfl
  case isFalse inner =>
    have notLess : h.less s (child h s i n) i = false := stop.resolve_left inner
    simp [notLess]

/-- A `down` that ends where it started made no swap: the element is no greater than the child
it was compared with, or has no child. -/
theorem downLoop_of_stays (s : σ) (i n : ℕ) (stays : (downLoop h s i n).2 ≤ i) :
    downLoop h s i n = (s, i) ∧ (2 * i + 1 < n → h.less s (child h s i n) i = false) := by
  by_cases inner : 2 * i + 1 < n
  · cases less : h.less s (child h s i n) i
    · exact ⟨downLoop_stop h (.inr less), fun _ => rfl⟩
    · rw [downLoop_swap h inner less] at stays
      have := le_downLoop h (h.swap s i (child h s i n)) (child h s i n) n
      have := child_bounds h s i n inner
      omega
  · exact ⟨downLoop_stop h (.inl (by omega)), fun inner' => absurd inner' inner⟩

/-- A `down` that moved first swapped the element with the child it was compared with. -/
theorem downLoop_of_moves (s : σ) (i n : ℕ) (moves : i < (downLoop h s i n).2) :
    2 * i + 1 < n ∧ h.less s (child h s i n) i = true ∧
      downLoop h s i n = downLoop h (h.swap s i (child h s i n)) (child h s i n) n := by
  by_cases inner : 2 * i + 1 < n
  · cases less : h.less s (child h s i n) i
    · rw [downLoop_stop h (.inr less)] at moves
      exact absurd moves (lt_irrefl i)
    · exact ⟨inner, rfl, downLoop_swap h inner less⟩
  · rw [downLoop_stop h (.inl (by omega))] at moves
    exact absurd moves (lt_irrefl i)

end Positions

/-! ## One interface simulating another

A state `s` of one interface stands for the state `view s` of another when `Len`, `Less`, `Swap`,
`Push` and `Pop` agree below `Len` as long as `P` holds: the package's algorithms then run alike
on both.  A heap kept in another layout than a slice is read as a heap of a slice this way. -/

section Simulation
variable {σ τ α : Type}

/-- `h`, on the states satisfying `P`, simulates `g` through `view`. -/
structure Simulation (h : Interface σ α) (g : Interface τ α) (view : σ → τ) (P : σ → Prop) : Prop where
  invariant : SwapInvariant h P
  len_view : ∀ s, P s → g.len (view s) = h.len s
  less_view : ∀ s i j, P s → i < h.len s → j < h.len s → g.less (view s) i j = h.less s i j
  swap_view : ∀ s i j, P s → i < h.len s → j < h.len s → view (h.swap s i j) = g.swap (view s) i j
  push_view : ∀ s x, P s → view (h.push s x) = g.push (view s) x ∧ P (h.push s x) ∧ h.len (h.push s x) = h.len s + 1
  pop_view : ∀ s, P s → 0 < h.len s → view (h.pop s).1 = (g.pop (view s)).1 ∧ (h.pop s).2 = (g.pop (view s)).2

variable {h : Interface σ α} {g : Interface τ α} {view : σ → τ} {P : σ → Prop}

theorem up_of_same {s : σ} {j : ℕ} (same : parent j = j) : up h s j = s := by
  rw [up, if_pos same]

theorem up_of_less {s : σ} {j : ℕ} (differ : parent j ≠ j) (less : h.less s j (parent j) = true) :
    up h s j = up h (h.swap s (parent j) j) (parent j) := by
  rw [up, if_neg differ, if_pos less]

theorem up_of_not_less {s : σ} {j : ℕ} (differ : parent j ≠ j) (notLess : h.less s j (parent j) = false) :
    up h s j = s := by
  rw [up, if_neg differ, if_neg (by simp [notLess])]

theorem Simulation.up (sim : Simulation h g view P) (s : σ) (j : ℕ) (lt : j < h.len s) (start : P s) :
    view (GoHeap.up h s j) = GoHeap.up g (view s) j := by
  fun_induction GoHeap.up h s j with
  | case1 s j same => rw [up_of_same same]
  | case2 s j differ less ih =>
    have above : parent j < j := by unfold parent at *; omega
    have less' : g.less (view s) j (parent j) = true := by rw [sim.less_view s j _ start lt (by omega)]; exact less
    rw [up_of_less differ less', ← sim.swap_view s _ _ start (by omega) lt]
    exact ih (by rw [sim.invariant.len_swap]; omega) (sim.invariant.swap _ _ _ (by omega) lt start)
  | case3 s j differ notLess =>
    have above : parent j < j := by unfold parent at *; omega
    have notLess' : g.less (view s) j (parent j) = false := by
      rw [sim.less_view s j _ start lt (by omega)]
      simpa using notLess
    rw [up_of_not_less differ notLess']

theorem Simulation.child (sim : Simulation h g view P) (s : σ) (i n : ℕ) (within : n ≤ h.len s) (start : P s) :
    child g (view s) i n = child h s i n := by
  unfold GoHeap.child
  by_cases right : 2 * i + 1 + 1 < n
  · rw [sim.less_view s _ _ start (by omega) (by omega)]
  · simp [right]

theorem Simulation.downLoop (sim : Simulation h g view P) (s : σ) (i n : ℕ) (within : n ≤ h.len s) (start : P s) :
    view (GoHeap.downLoop h s i n).1 = (GoHeap.downLoop g (view s) i n).1 ∧
      (GoHeap.downLoop h s i n).2 = (GoHeap.downLoop g (view s) i n).2 := by
  fun_induction GoHeap.downLoop h s i n with
  | case1 s i leaf => rw [downLoop_stop g (.inl leaf)]; exact ⟨rfl, rfl⟩
  | case2 s i inner j less ih =>
    have bounds := child_bounds h s i n (by omega)
    have sameChild := sim.child s i n within start
    have less' : g.less (view s) (GoHeap.child g (view s) i n) i = true := by
      rw [sameChild, sim.less_view s _ _ start (by omega) (by omega)]
      exact less
    rw [downLoop_swap g (by omega) less', sameChild, ← sim.swap_view s _ _ start (by omega) (by omega)]
    exact ih (by rw [sim.invariant.len_swap]; omega) (sim.invariant.swap _ _ _ (by omega) (by omega) start)
  | case3 s i inner j notLess =>
    have bounds := child_bounds h s i n (by omega)
    have notLess' : g.less (view s) (GoHeap.child g (view s) i n) i = false := by
      rw [sim.child s i n within start, sim.less_view s _ _ start (by omega) (by omega)]
      simpa using notLess
    rw [downLoop_stop g (.inr notLess')]
    exact ⟨rfl, rfl⟩

theorem Simulation.down (sim : Simulation h g view P) (s : σ) (i n : ℕ) (within : n ≤ h.len s) (start : P s) :
    view (GoHeap.down h s i n).1 = (GoHeap.down g (view s) i n).1 ∧
      (GoHeap.down h s i n).2 = (GoHeap.down g (view s) i n).2 := by
  obtain ⟨state, position⟩ := sim.downLoop s i n within start
  simp only [GoHeap.down, state, position, and_self]

theorem Simulation.init (sim : Simulation h g view P) (s : σ) (start : P s) :
    view (GoHeap.init h s) = GoHeap.init g (view s) := by
  unfold GoHeap.init
  rw [sim.len_view s start]
  -- the loop runs `down` from the same parents on both sides
  suffices loop : ∀ (parents : List ℕ) (t : σ), P t → h.len t = h.len s →
      view (parents.foldl (fun t i => (GoHeap.down h t i (h.len s)).1) t) =
        parents.foldl (fun t i => (GoHeap.down g t i (h.len s)).1) (view t) from
    loop _ s start rfl
  intro parents
  induction parents with
  | nil => intro t _ _; rfl
  | cons i rest ih =>
    intro t inv length
    obtain ⟨kept, length'⟩ := sim.invariant.downLoop t i (h.len s) length.ge inv
    rw [List.foldl_cons, List.foldl_cons, ← (sim.down t i (h.len s) length.ge inv).1]
    exact ih _ kept (length'.trans length)

theorem Simulation.push (sim : Simulation h g view P) (s : σ) (x : α) (start : P s) :
    view (GoHeap.push h s x) = GoHeap.push g (view s) x := by
  obtain ⟨pushed, inv, length⟩ := sim.push_view s x start
  unfold GoHeap.push
  dsimp only
  rw [← pushed, sim.len_view _ inv]
  exact sim.up _ _ (by omega) inv

theorem Simulation.pop (sim : Simulation h g view P) (s : σ) (start : P s) :
    (GoHeap.pop h s).map (fun r => (view r.1, r.2)) = GoHeap.pop g (view s) := by
  unfold GoHeap.pop
  rw [sim.len_view s start]
  split
  case isTrue => rfl
  case isFalse nonempty =>
    dsimp only
    have swapped := sim.invariant.swap s 0 (h.len s - 1) (by omega) (by omega) start
    have downed := (sim.down _ 0 (h.len s - 1) (by rw [sim.invariant.len_swap]; omega) swapped).1
    rw [sim.swap_view s _ _ start (by omega) (by omega)] at downed
    rw [← downed]
    have kept : P (GoHeap.down h (h.swap s 0 (h.len s - 1)) 0 (h.len s - 1)).1 ∧
        h.len (GoHeap.down h (h.swap s 0 (h.len s - 1)) 0 (h.len s - 1)).1 = h.len s := by
      obtain ⟨kept, length⟩ := sim.invariant.downLoop _ 0 (h.len s - 1) (by rw [sim.invariant.len_swap]; omega) swapped
      exact ⟨kept, length.trans (sim.invariant.len_swap _ _ _)⟩
    generalize (GoHeap.down h (h.swap s 0 (h.len s - 1)) 0 (h.len s - 1)).1 = t at kept ⊢
    obtain ⟨state, value⟩ := sim.pop_view t kept.1 (by omega)
    simp only [Option.map_some, state, value]

theorem Simulation.remove (sim : Simulation h g view P) (s : σ) (i : ℕ) (start : P s) :
    (GoHeap.remove h s i).map (fun r => (view r.1, r.2)) = GoHeap.remove g (view s) i := by
  unfold GoHeap.remove
  rw [sim.len_view s start]
  split
  case isTrue => rfl
  case isFalse inside =>
    dsimp only
    split
    case isFalse last =>
      obtain ⟨state, value⟩ := sim.pop_view s start (by omega)
      simp only [Option.map_some, state, value]
    case isTrue other =>
      have swapped := sim.invariant.swap s i (h.len s - 1) (by omega) (by omega) start
      obtain ⟨downState, downMoved⟩ := sim.down _ i (h.len s - 1) (by rw [sim.invariant.len_swap]; omega) swapped
      rw [sim.swap_view s _ _ start (by omega) (by omega)] at downState downMoved
      rw [← downState, ← downMoved]
      have kept : P (GoHeap.down h (h.swap s i (h.len s - 1)) i (h.len s - 1)).1 ∧
          h.len (GoHeap.down h (h.swap s i (h.len s - 1)) i (h.len s - 1)).1 = h.len s := by
        obtain ⟨kept, length⟩ := sim.invariant.downLoop _ i (h.len s - 1) (by rw [sim.invariant.len_swap]; omega) swapped
        exact ⟨kept, length.trans (sim.invariant.len_swap _ _ _)⟩
      generalize GoHeap.down h (h.swap s i (h.len s - 1)) i (h.len s - 1) = moved at kept ⊢
      obtain ⟨movedKept, movedLength⟩ := kept
      -- after `down`, `up` runs from `i` when the element did not move
      by_cases stayed : (!moved.2) = true
      · rw [if_pos stayed, if_pos stayed]
        obtain ⟨upKept, upLength⟩ := sim.invariant.up _ i (by omega) movedKept
        obtain ⟨state, value⟩ := sim.pop_view _ upKept (by omega)
        rw [← sim.up _ i (by omega) movedKept]
        simp only [Option.map_some, state, value]
      · rw [if_neg stayed, if_neg stayed]
        obtain ⟨state, value⟩ := sim.pop_view _ movedKept (by omega)
        simp only [Option.map_some, state, value]

end Simulation

/-! ## Slices -/

section Slice
variable {α : Type} [Inhabited α]

/-- `h[i], h[j] = h[j], h[i]` -/
def swapAt (xs : List α) (i j : ℕ) : List α := (xs.set i (xs.getD j default)).set j (xs.getD i default)

/-- A slice of elements compared by `less`, as `nonceHeap` is. -/
def list (less : α → α → Bool) : Interface (List α) α where
  len := List.length
  less xs i j := less (xs.getD i default) (xs.getD j default)
  swap := swapAt
  push xs x := xs ++ [x]
  pop xs := (xs.dropLast, xs.getLastD default)

variable {xs : List α} {i j : ℕ}

@[simp] theorem list_len (less : α → α → Bool) : (list less).len xs = xs.length := rfl

@[simp] theorem list_swap (less : α → α → Bool) : (list less).swap xs i j = swapAt xs i j := rfl

@[simp] theorem list_push (less : α → α → Bool) (x : α) : (list less).push xs x = xs ++ [x] := rfl

@[simp] theorem list_pop (less : α → α → Bool) : (list less).pop xs = (xs.dropLast, xs.getLastD default) := rfl

@[simp] theorem length_swapAt : (swapAt xs i j).length = xs.length := by simp [swapAt]

theorem getD_swapAt (hi : i < xs.length) (hj : j < xs.length) (k : ℕ) :
    (swapAt xs i j).getD k default =
      if k = j then xs.getD i default else if k = i then xs.getD j default else xs.getD k default := by
  simp only [swapAt, List.getD_eq_getElem?_getD, List.getElem?_set, List.length_set]
  by_cases kj : k = j
  · simp [kj, hj, List.getElem?_eq_getElem hi]
  · by_cases ki : k = i
    · subst ki
      simp [Ne.symm kj, kj, hi, List.getElem?_eq_getElem hj]
    · simp [Ne.symm kj, Ne.symm ki, kj, ki]

theorem perm_swapAt (hi : i < xs.length) (hj : j < xs.length) : (swapAt xs i j).Perm xs := by
  rw [swapAt, List.getD_eq_getElem _ _ hi, List.getD_eq_getElem _ _ hj]
  exact List.set_set_perm hi hj

/-- The algorithms on a slice permute it. -/
theorem swapInvariant_perm (less : α → α → Bool) (ys : List α) :
    SwapInvariant (list less) (fun xs => xs.Perm ys) where
  len_swap _ _ _ := length_swapAt
  swap _ _ _ hi hj perm := (perm_swapAt hi hj).trans perm

end Slice

/-! ## Heap order on a slice -/

section Order
variable {α β : Type} [Inhabited α] [LinearOrder β] (less : α → α → Bool) (key : α → β)

/-- `less` orders the elements of `xs` by their keys. -/
def Keyed (xs : List α) : Prop := ∀ a ∈ xs, ∀ b ∈ xs, less a b = true ↔ key a < key b

/-- The key at a position. -/
def kAt (xs : List α) (k : ℕ) : β := key (xs.getD k default)

/-- Below position `n`, every element whose parent is at `lo` or later has a key no less than
its parent's. -/
def OrderedFrom (xs : List α) (lo n : ℕ) : Prop :=
  ∀ c, 0 < c → c < n → lo ≤ parent c → kAt key xs (parent c) ≤ kAt key xs c

def IsHeap (xs : List α) : Prop := OrderedFrom key xs 0 xs.length

/-- Where `down` from `i0` stands with the element at `i`: every pair below `i0` is in order but
those under `i`, and the parent of `i` is no greater than the children of `i`. -/
structure DownInv (xs : List α) (i0 i n : ℕ) : Prop where
  start_le : i0 ≤ i
  inside : i ≠ i0 → i0 ≤ parent i
  off : ∀ c, 0 < c → c < n → i0 ≤ parent c → parent c ≠ i → kAt key xs (parent c) ≤ kAt key xs c
  grand : i ≠ i0 → ∀ c, 0 < c → c < n → parent c = i → kAt key xs (parent i) ≤ kAt key xs c

variable {less key} {xs ys : List α} {i j n : ℕ}

omit [Inhabited α] in
theorem Keyed.subset (keyed : Keyed less key xs) (sub : ys ⊆ xs) : Keyed less key ys :=
  fun a ha b hb => keyed a (sub ha) b (sub hb)

omit [Inhabited α] in
theorem Keyed.perm (keyed : Keyed less key xs) (perm : ys.Perm xs) : Keyed less key ys :=
  keyed.subset perm.subset

theorem Keyed.less_iff (keyed : Keyed less key xs) (hi : i < xs.length) (hj : j < xs.length) :
    (list less).less xs i j = true ↔ kAt key xs i < kAt key xs j := by
  simp only [list, kAt, List.getD_eq_getElem _ _ hi, List.getD_eq_getElem _ _ hj]
  exact keyed _ (List.getElem_mem hi) _ (List.getElem_mem hj)

omit [LinearOrder β] in
theorem kAt_swapAt (hi : i < xs.length) (hj : j < xs.length) (k : ℕ) :
    kAt key (swapAt xs i j) k =
      if k = j then kAt key xs i else if k = i then kAt key xs j else kAt key xs k := by
  simp only [kAt, getD_swapAt hi hj]
  split_ifs <;> rfl

/-- `down` compares with the child of the least key. -/
theorem child_min (keyed : Keyed less key xs) (within : n ≤ xs.length) (_inner : 2 * i + 1 < n)
    {c : ℕ} (pos : 0 < c) (lt : c < n) (below : parent c = i) :
    kAt key xs (child (list less) xs i n) ≤ kAt key xs c := by
  rcases (parent_eq_iff pos).mp below with left | right
  · unfold child
    split
    case isTrue right_less =>
      rw [left]
      exact le_of_lt ((keyed.less_iff (by omega) (by omega)).mp right_less.2)
    case isFalse => rw [left]
  · unfold child
    split
    case isTrue => rw [right]
    case isFalse notRight =>
      have notLess : (list less).less xs (2 * i + 1 + 1) (2 * i + 1) = false := by
        simpa [show 2 * i + 1 + 1 < n by omega] using notRight
      rw [right]
      exact not_lt.mp fun lt' => by
        rw [← keyed.less_iff (by omega) (by omega)] at lt'
        rw [lt'] at notLess
        exact Bool.noConfusion notLess

variable {i0 : ℕ}

theorem DownInv.step (inv : DownInv key xs i0 i n) (keyed : Keyed less key xs) (within : n ≤ xs.length)
    (inner : 2 * i + 1 < n) (moves : (list less).less xs (child (list less) xs i n) i = true) :
    DownInv key (swapAt xs i (child (list less) xs i n)) i0 (child (list less) xs i n) n := by
  have bounds := child_bounds (list less) xs i n inner
  have mins : ∀ c, 0 < c → c < n → parent c = i → kAt key xs (child (list less) xs i n) ≤ kAt key xs c :=
    fun _ pos lt below => child_min keyed within inner pos lt below
  generalize child (list less) xs i n = j at bounds moves mins ⊢
  have start := inv.start_le
  have ij : i ≠ j := by omega
  have smaller := (keyed.less_iff (by omega) (by omega)).mp moves
  have up : parent j = i := (parent_eq_iff (by omega)).mpr (by omega)
  have swapped : ∀ k, kAt key (swapAt xs i j) k =
      if k = j then kAt key xs i else if k = i then kAt key xs j else kAt key xs k :=
    kAt_swapAt (show i < xs.length by omega) (show j < xs.length by omega)
  refine ⟨by omega, fun _ => up ▸ start, ?_, ?_⟩
  · intro c pos lt lo other
    rw [swapped, swapped]
    by_cases cj : c = j
    · -- the pair the swap put in order
      simp [cj, up, ij, smaller.le]
    by_cases ci : c = i
    · -- the element that came up to `i`, under the parent of `i`
      subst ci
      have moved : c ≠ i0 := fun same => by have := parent_lt pos; omega
      have := inv.grand moved j (by omega) bounds.2.2 up
      simp [Nat.ne_of_lt (parent_lt pos), Nat.ne_of_lt ((parent_lt pos).trans (by omega : c < j)), cj, this]
    by_cases pci : parent c = i
    · -- the sibling of `j`, under the smaller child
      simp [pci, cj, ci, ij, mins c pos lt pci]
    · simp [cj, ci, pci, other, inv.off c pos lt lo pci]
  · intro _ c pos lt pc
    have := inv.off c pos lt (by rw [pc]; omega) (by rw [pc]; omega)
    have cj : c ≠ j := fun same => by have := parent_lt pos; omega
    have ci : c ≠ i := fun same => by have := parent_lt pos; omega
    rw [swapped, swapped, up]
    simp [cj, ci, ij]
    rwa [pc] at this

theorem DownInv.stop (inv : DownInv key xs i0 i n) (keyed : Keyed less key xs) (within : n ≤ xs.length)
    (stop : 2 * i + 1 ≥ n ∨ (list less).less xs (child (list less) xs i n) i = false) :
    OrderedFrom key xs i0 n := by
  intro c pos lt lo
  by_cases pc : parent c = i
  · have inner : 2 * i + 1 < n := by have := (parent_eq_iff pos).mp pc; omega
    have bounds := child_bounds (list less) xs i n inner
    have notLess := stop.resolve_left (by omega)
    have atMost : kAt key xs i ≤ kAt key xs (child (list less) xs i n) :=
      not_lt.mp fun lt' => by rw [← keyed.less_iff (by omega) (by omega), notLess] at lt'; exact Bool.noConfusion lt'
    rw [pc]
    exact atMost.trans (child_min keyed within inner pos lt pc)
  · exact inv.off c pos lt lo pc

/-- `down` from `i0` orders every pair below `i0`. -/
theorem downLoop_ordered (keyed : Keyed less key xs) (within : n ≤ xs.length) (inv : DownInv key xs i0 i n) :
    OrderedFrom key (downLoop (list less) xs i n).1 i0 n := by
  fun_induction downLoop (list less) xs i n with
  | case1 xs i leaf => exact inv.stop keyed within (.inl leaf)
  | case2 xs i inner j moves ih =>
    have bounds : 2 * i + 1 ≤ j ∧ j ≤ 2 * i + 2 ∧ j < n := child_bounds (list less) xs i n (by omega)
    exact ih (keyed.perm (perm_swapAt (by omega) (by omega))) (by simpa using within)
      (inv.step keyed within (by omega) moves)
  | case3 xs i inner j stays => exact inv.stop keyed within (.inr (by simpa using stays))

/-- `down` from `i0` moves nothing before `i0`, nothing whose parent is before `i0` but `i0`
itself, and nothing from `n` on. -/
theorem getD_downLoop (within : n ≤ xs.length) (start : i0 ≤ i) (inside : i ≠ i0 → i0 ≤ parent i) {k : ℕ}
    (outside : k < i0 ∨ (parent k < i0 ∧ k ≠ i0) ∨ n ≤ k) :
    (downLoop (list less) xs i n).1.getD k default = xs.getD k default := by
  fun_induction downLoop (list less) xs i n with
  | case1 => rfl
  | case2 xs i inner j moves ih =>
    have bounds : 2 * i + 1 ≤ j ∧ j ≤ 2 * i + 2 ∧ j < n := child_bounds (list less) xs i n (by omega)
    have up : parent j = i := (parent_eq_iff (by omega)).mpr (by omega)
    rw [ih (by simpa using within) (by omega) (fun _ => by rw [up]; exact start), list_swap,
      getD_swapAt (by omega) (by omega)]
    have kj : k ≠ j := by rintro rfl; omega
    have ki : k ≠ i := by
      rintro rfl
      by_cases same : k = i0
      · omega
      · have := inside same
        omega
    simp [kj, ki]
  | case3 => rfl

/-- Where `up` stands with the element at `j`: every pair below `n` is in order but the one of
`j` and its parent, and the parent of `j` is no greater than the children of `j`. -/
structure UpInv (key : α → β) (xs : List α) (j n : ℕ) : Prop where
  off : ∀ c, 0 < c → c < n → c ≠ j → kAt key xs (parent c) ≤ kAt key xs c
  grand : j ≠ 0 → ∀ c, 0 < c → c < n → parent c = j → kAt key xs (parent j) ≤ kAt key xs c

theorem UpInv.step (inv : UpInv key xs j n) (keyed : Keyed less key xs) (inside : j < n) (within : n ≤ xs.length)
    (moving : parent j ≠ j) (moves : (list less).less xs j (parent j) = true) :
    UpInv key (swapAt xs (parent j) j) (parent j) n := by
  have pos : 0 < j := by unfold parent at moving; omega
  have above := parent_lt pos
  generalize hi : parent j = i at above moves moving
  have smaller := (keyed.less_iff (by omega) (by omega)).mp moves
  have swapped : ∀ k, kAt key (swapAt xs i j) k =
      if k = j then kAt key xs i else if k = i then kAt key xs j else kAt key xs k :=
    kAt_swapAt (show i < xs.length by omega) (show j < xs.length by omega)
  have ij : i ≠ j := by omega
  refine ⟨?_, ?_⟩
  · intro c cpos lt ci
    rw [swapped, swapped]
    by_cases cj : c = j
    · subst cj
      simp [hi, ij, smaller.le]
    by_cases pcj : parent c = j
    · -- a child of `j`, under the element that came down
      have below := inv.grand (by omega) c cpos lt pcj
      rw [hi] at below
      simp [pcj, cj, ci, below]
    by_cases pci : parent c = i
    · -- the sibling of `j`, under the element that came up
      have sibling := inv.off c cpos lt cj
      rw [pci] at sibling
      simp [pci, ij, cj, ci, smaller.le.trans sibling]
    · simp [cj, ci, pcj, pci, inv.off c cpos lt cj]
  · intro moved c cpos lt pc
    have pi : parent i ≠ i := Nat.ne_of_lt (parent_lt (by omega))
    have pij : parent i ≠ j := by have := parent_lt (show 0 < i by omega); omega
    have toI := inv.off i (by omega) (by omega) ij
    rw [swapped, swapped]
    by_cases cj : c = j
    · simp [cj, pi, pij, toI]
    · have ci : c ≠ i := by have := parent_lt cpos; omega
      have sibling := inv.off c cpos lt cj
      rw [pc] at sibling
      simp [cj, ci, pi, pij, toI.trans sibling]

theorem UpInv.stop (inv : UpInv key xs j n) (keyed : Keyed less key xs) (inside : j < n) (within : n ≤ xs.length)
    (stop : parent j = j ∨ (list less).less xs j (parent j) = false) : OrderedFrom key xs 0 n := by
  intro c pos lt _
  by_cases cj : c = j
  · subst cj
    have notLess := stop.resolve_left (Nat.ne_of_lt (parent_lt pos))
    exact not_lt.mp fun lt' => by
      rw [← keyed.less_iff (by omega) (by have := parent_lt pos; omega), notLess] at lt'
      exact Bool.noConfusion lt'
  · exact inv.off c pos lt cj

/-- `up` from `j` orders every pair below `n`. -/
theorem up_ordered (keyed : Keyed less key xs) (within : n ≤ xs.length) (inside : j < n) (inv : UpInv key xs j n) :
    OrderedFrom key (up (list less) xs j) 0 n := by
  fun_induction up (list less) xs j with
  | case1 xs j same => exact inv.stop keyed inside within (.inl same)
  | case2 xs j differ moves ih =>
    have above := parent_lt (show 0 < j by unfold parent at differ; omega)
    exact ih (keyed.perm (perm_swapAt (by omega) (by omega))) (by simpa using within) (by omega)
      (inv.step keyed inside within differ moves)
  | case3 xs j differ stays => exact inv.stop keyed inside within (.inr (by simpa using stays))

/-- `up` from `j` moves nothing after `j`. -/
theorem getD_up (inside : j < xs.length) {k : ℕ} (after : j < k) :
    (up (list less) xs j).getD k default = xs.getD k default := by
  fun_induction up (list less) xs j with
  | case1 => rfl
  | case2 xs j differ moves ih =>
    have above := parent_lt (show 0 < j by unfold parent at differ; omega)
    rw [ih (by simp; omega) (by omega), list_swap, getD_swapAt (by omega) inside]
    simp [show k ≠ j by omega, show k ≠ parent j by omega]
  | case3 => rfl

/-! ## The heap operations on a slice -/

omit [LinearOrder β] in
/-- `Pop` of a slice: the last element, and the rest before it. -/
theorem pop_slice {zs : List α} (nonempty : zs ≠ []) :
    (zs.getLastD default :: zs.dropLast).Perm zs ∧
      zs.getLastD default = zs.getD (zs.length - 1) default ∧ zs.dropLast.length = zs.length - 1 ∧
      ∀ k < zs.length - 1, zs.dropLast.getD k default = zs.getD k default := by
  have last : zs.getLastD default = zs.getLast nonempty := by
    rw [List.getLastD_eq_getLast?, List.getLast?_eq_some_getLast nonempty]
    rfl
  refine ⟨?_, ?_, by simp, fun k lt => ?_⟩
  · rw [last]
    conv_rhs => rw [← List.dropLast_append_getLast nonempty]
    exact (List.perm_append_singleton _ _).symm
  · have pos : 0 < zs.length := List.length_pos_iff.mpr nonempty
    rw [last, List.getLast_eq_getElem, List.getD_eq_getElem _ _ (by omega)]
  · simp only [List.getD_eq_getElem?_getD, List.getElem?_dropLast, if_pos lt]

/-- A slice ordered below its last position, less that position, is a heap. -/
theorem isHeap_dropLast {zs : List α} (ordered : OrderedFrom key zs 0 (zs.length - 1)) :
    IsHeap key zs.dropLast := by
  rcases eq_or_ne zs [] with rfl | nonempty
  · intro c pos lt; simp at lt
  obtain ⟨-, -, length, front⟩ := pop_slice nonempty
  intro c pos lt _
  rw [length] at lt
  have := ordered c pos lt (Nat.zero_le _)
  simp only [kAt] at this ⊢
  rwa [front c lt, front (parent c) (by have := parent_lt pos; omega)]

/-- Popping the last element of a permutation of `xs` that is ordered before it leaves a heap. -/
theorem pop_of_ordered {ws : List α} (perm : ws.Perm xs) (length : ws.length = xs.length) (nonempty : xs ≠ [])
    (ordered : OrderedFrom key ws 0 (xs.length - 1)) :
    IsHeap key ws.dropLast ∧ (ws.getLastD default :: ws.dropLast).Perm xs ∧
      ws.getLastD default = ws.getD (xs.length - 1) default := by
  have wsNonempty : ws ≠ [] := fun empty => nonempty (List.eq_nil_of_length_eq_zero (by simp [empty] at length; omega))
  obtain ⟨split, last, -, -⟩ := pop_slice wsNonempty
  exact ⟨isHeap_dropLast (by rw [length]; exact ordered), split.trans perm, by rw [last, length]⟩

theorem OrderedFrom.mono {zs : List α} {lo n : ℕ} (ordered : OrderedFrom key zs lo n) {m : ℕ} (le : m ≤ n) :
    OrderedFrom key zs lo m :=
  fun c pos lt below => ordered c pos (by omega) below

/-- The root of a heap has the least key. -/
theorem IsHeap.root_le (heap : IsHeap key xs) : ∀ c < xs.length, kAt key xs 0 ≤ kAt key xs c := by
  intro c
  -- induction along the parents up to the root
  induction c using Nat.strong_induction_on with
  | _ c ih =>
    intro lt
    rcases Nat.eq_zero_or_pos c with rfl | pos
    · exact le_rfl
    · have above := parent_lt pos
      exact (ih (parent c) above (by omega)).trans (heap c pos lt (Nat.zero_le _))

theorem IsHeap.root_le_mem (heap : IsHeap key xs) {y : α} (mem : y ∈ xs) : key (xs.getD 0 default) ≤ key y := by
  obtain ⟨c, lt, rfl⟩ := List.getElem_of_mem mem
  have := heap.root_le c lt
  simp only [kAt, List.getD_eq_getElem _ _ lt] at this
  exact this

/-- No element comes before its parent: the heap order read through `less` alone. -/
def LessOrdered (less : α → α → Bool) (xs : List α) : Prop :=
  ∀ c, 0 < c → c < xs.length → (list less).less xs c (parent c) = false

/-- Under `less` ordering the elements by a key, the heap order does not depend on the key. -/
theorem Keyed.isHeap_iff (keyed : Keyed less key xs) : IsHeap key xs ↔ LessOrdered less xs := by
  have each : ∀ c, 0 < c → c < xs.length →
      ((list less).less xs c (parent c) = false ↔ kAt key xs (parent c) ≤ kAt key xs c) := by
    intro c pos lt
    have above := parent_lt pos
    rw [← not_lt, ← keyed.less_iff lt (by omega), Bool.not_eq_true]
  constructor
  · intro heap c pos lt
    exact (each c pos lt).mpr (heap c pos lt (Nat.zero_le _))
  · intro ordered c pos lt _
    exact (each c pos lt).mp (ordered c pos lt)

/-- `heap.Push` on a heap: the new element climbs to its place. -/
theorem push_heap {x : α} (keyed : Keyed less key (xs ++ [x])) (heap : IsHeap key xs) :
    IsHeap key (push (list less) xs x) ∧ (push (list less) xs x).Perm (xs ++ [x]) := by
  have pushed : push (list less) xs x = up (list less) (xs ++ [x]) xs.length := by simp [push]
  obtain ⟨perm, length⟩ := (swapInvariant_perm less (xs ++ [x])).up (xs ++ [x]) xs.length (by simp)
    (List.Perm.refl _)
  have before : ∀ k < xs.length, kAt key (xs ++ [x]) k = kAt key xs k := fun k lt => by
    simp only [kAt, List.getD_append _ _ _ _ lt]
  refine ⟨?_, pushed ▸ perm⟩
  have inv : UpInv key (xs ++ [x]) xs.length (xs.length + 1) := by
    refine ⟨fun c pos lt other => ?_, fun _ c pos lt below => ?_⟩
    · have above := parent_lt pos
      rw [before c (by omega), before (parent c) (by omega)]
      exact heap c pos (by omega) (Nat.zero_le _)
    · have := (parent_eq_iff pos).mp below
      omega
  have ordered := up_ordered keyed (by simp) (by omega) inv
  have length' : (up (list less) (xs ++ [x]) xs.length).length = xs.length + 1 := by simpa using length
  rw [pushed, IsHeap, length']
  exact ordered

/-- The element that takes the place of a swapped-out one starts `down` with every pair below it
in order. -/
theorem downInv_swapAt (heap : IsHeap key xs) {i n : ℕ} (_inside : i ≤ n) (last : n < xs.length) :
    DownInv key (swapAt xs i n) i i n := by
  refine ⟨le_rfl, fun same => absurd rfl same, fun c pos lt below other => ?_, fun same => absurd rfl same⟩
  have above := parent_lt pos
  rw [kAt_swapAt (by omega) last, kAt_swapAt (by omega) last]
  simp [show c ≠ n by omega, show c ≠ i by omega, show parent c ≠ n by omega, other]
  exact heap c pos (by omega) (Nat.zero_le _)

/-- `heap.Pop` on a heap: the root comes off, and the rest is a heap. -/
theorem pop_heap (keyed : Keyed less key xs) (heap : IsHeap key xs) {rest : List α} {x : α}
    (popped : pop (list less) xs = some (rest, x)) :
    IsHeap key rest ∧ (x :: rest).Perm xs ∧ x = xs.getD 0 default := by
  unfold pop at popped
  split at popped
  case isTrue => cases popped
  case isFalse nonempty =>
    simp only [list_len, list_swap, list_pop, Option.some.injEq, Prod.mk.injEq] at popped nonempty
    obtain ⟨rfl, rfl⟩ := popped
    set n := xs.length - 1
    have swapped := (keyed.perm (perm_swapAt (i := 0) (j := n) (by omega) (by omega)))
    obtain ⟨perm, length⟩ := (swapInvariant_perm less xs).downLoop (swapAt xs 0 n) 0 n (by simp; omega)
      (perm_swapAt (by omega) (by omega))
    simp only [list_len, length_swapAt] at length
    have ordered := downLoop_ordered swapped (by simp; omega) (downInv_swapAt heap (Nat.zero_le n) (by omega))
    -- the root went to `n`, where `down` does not reach
    have root : (downLoop (list less) (swapAt xs 0 n) 0 n).1.getD n default = xs.getD 0 default := by
      rw [getD_downLoop (by simp; omega) le_rfl (fun same => absurd rfl same) (.inr (.inr le_rfl)),
        getD_swapAt (by omega) (by omega)]
      simp
    refine (pop_of_ordered perm length (List.ne_nil_of_length_pos (by omega)) ordered).imp_right
      (And.imp_right fun last => ?_)
    rw [down, last, root]

/-- `heap.Remove(h, i)` on a heap: the element at `i` comes off, and the rest is a heap. -/
theorem remove_heap (keyed : Keyed less key xs) (heap : IsHeap key xs) {i : ℕ} {rest : List α} {x : α}
    (removed : remove (list less) xs i = some (rest, x)) :
    IsHeap key rest ∧ (x :: rest).Perm xs ∧ x = xs.getD i default := by
  unfold remove at removed
  split at removed
  case isTrue => cases removed
  case isFalse inside =>
    simp only [list_len, not_le] at inside
    dsimp only [list_len] at removed
    set n := xs.length - 1 with n_def
    have nonempty : xs ≠ [] := List.ne_nil_of_length_pos (by omega)
    split at removed
    case isFalse last =>
      -- the last element: popped where it is
      simp only [ne_eq, not_not] at last
      simp only [list_pop, Option.some.injEq, Prod.mk.injEq] at removed
      obtain ⟨rfl, rfl⟩ := removed
      obtain ⟨split, lastD, -, -⟩ := pop_slice nonempty
      exact ⟨isHeap_dropLast (heap.mono (by omega)), split, by rw [lastD, ← n_def, last]⟩
    case isTrue other =>
      simp only [down, list_swap, list_pop, gt_iff_lt, Option.some.injEq, Prod.mk.injEq] at removed
      have lt : i < n := by omega
      have swappedKeyed := keyed.perm (perm_swapAt (i := i) (j := n) (by omega) (by omega))
      have inv := downInv_swapAt heap lt.le (by omega : n < xs.length)
      obtain ⟨downPerm, downLength⟩ := (swapInvariant_perm less xs).downLoop (swapAt xs i n) i n (by simp; omega)
        (perm_swapAt (by omega) (by omega))
      simp only [list_len, length_swapAt] at downLength
      have ordered := downLoop_ordered swappedKeyed (by simp; omega) inv
      -- the removed element sits at `n` and `down` does not touch it
      have removedAt : (downLoop (list less) (swapAt xs i n) i n).1.getD n default = xs.getD i default := by
        rw [getD_downLoop (by simp; omega) le_rfl (fun same => absurd rfl same) (.inr (.inr le_rfl)),
          getD_swapAt (by omega) (by omega)]
        simp
      have unchanged : ∀ k, k ≠ i → k < n → kAt key (swapAt xs i n) k = kAt key xs k := fun k ki kn => by
        rw [kAt_swapAt (by omega) (by omega)]
        simp [ki, show k ≠ n by omega]
      by_cases moves : i < (downLoop (list less) (swapAt xs i n) i n).2
      · rw [if_neg (by simp [moves])] at removed
        obtain ⟨rfl, rfl⟩ := removed
        -- `down` moved: the smaller child of `i` came up, no less than the parent of `i`
        obtain ⟨inner, -, step⟩ := downLoop_of_moves (list less) (swapAt xs i n) i n moves
        have bounds := child_bounds (list less) (swapAt xs i n) i n inner
        simp only [list_swap] at step
        generalize child (list less) (swapAt xs i n) i n = j at bounds step
        have up : parent j = i := (parent_eq_iff (by omega)).mpr (by omega)
        have atI : kAt key (downLoop (list less) (swapAt xs i n) i n).1 i = kAt key xs j := by
          rw [step, kAt, getD_downLoop (by simp; omega) le_rfl (fun same => absurd rfl same) (.inl (by omega)),
            getD_swapAt (by simp; omega) (by simp; omega)]
          simp only [show i ≠ j by omega, if_false, if_true]
          exact unchanged j (by omega) bounds.2.2
        have outside : ∀ k, (k < i ∨ parent k < i ∧ k ≠ i) → k < n →
            kAt key (downLoop (list less) (swapAt xs i n) i n).1 k = kAt key xs k := fun k out kn => by
          have same := unchanged k (by omega) kn
          simp only [kAt] at same ⊢
          rw [getD_downLoop (by simp; omega) le_rfl (fun same => absurd rfl same) (by omega), same]
        refine (pop_of_ordered downPerm downLength nonempty ?_).imp_right (And.imp_right fun last => ?_)
        · intro c pos cn _
          by_cases below : i ≤ parent c
          · exact ordered c pos cn below
          by_cases ci : c = i
          · subst ci
            rw [atI, outside (parent c) (.inl (by omega)) (by have := parent_lt pos; omega)]
            exact (heap c pos (by omega) (Nat.zero_le _)).trans (up ▸ heap j (by omega) (by omega) (Nat.zero_le _))
          · have above := parent_lt pos
            rw [outside c (.inr ⟨by omega, ci⟩) cn, outside (parent c) (.inl (by omega)) (by omega)]
            exact heap c pos (by omega) (Nat.zero_le _)
        · rw [last, ← n_def, removedAt]
      · rw [if_pos (by simp [moves])] at removed
        obtain ⟨rfl, rfl⟩ := removed
        -- `down` stayed: the element is no greater than its children, and moves up instead
        obtain ⟨stays, notLess⟩ := downLoop_of_stays (list less) (swapAt xs i n) i n (by omega)
        rw [stays] at removedAt ⊢
        dsimp only at removedAt ⊢
        have inv : UpInv key (swapAt xs i n) i n := by
          refine ⟨fun c pos cn ci => ?_, fun moved c pos cn below => ?_⟩
          · have above := parent_lt pos
            by_cases below : parent c = i
            · have inner : 2 * i + 1 < n := by have := (parent_eq_iff pos).mp below; omega
              have atMost : kAt key (swapAt xs i n) i ≤ kAt key (swapAt xs i n) (child (list less) (swapAt xs i n) i n) :=
                not_lt.mp fun lt' => by
                  have bounds := child_bounds (list less) (swapAt xs i n) i n inner
                  rw [← swappedKeyed.less_iff (by simp; omega) (by simp; omega), notLess inner] at lt'
                  exact Bool.noConfusion lt'
              rw [below]
              exact atMost.trans (child_min swappedKeyed (by simp; omega) inner pos cn below)
            · rw [unchanged c ci cn, unchanged (parent c) below (by omega)]
              exact heap c pos (by omega) (Nat.zero_le _)
          · have above := parent_lt pos
            have iPos : 0 < i := Nat.pos_of_ne_zero moved
            rw [unchanged c (by omega) cn, unchanged (parent i) (Nat.ne_of_lt (parent_lt iPos)) (by
              have := parent_lt iPos; omega)]
            exact (heap i iPos (by omega) (Nat.zero_le _)).trans (below ▸ heap c pos (by omega) (Nat.zero_le _))
        obtain ⟨upPerm, upLength⟩ := (swapInvariant_perm less xs).up (swapAt xs i n) i (by simp; omega)
          (perm_swapAt (by omega) (by omega))
        simp only [list_len, length_swapAt] at upLength
        refine (pop_of_ordered upPerm upLength nonempty
          (up_ordered swappedKeyed (by simp [n]) lt inv)).imp_right (And.imp_right fun last => ?_)
        rw [last, ← n_def, getD_up (by simp; omega) lt, removedAt]

/-- The loop of `heap.Init` from parent `k - 1` down to the root, once every pair from `k` on
is in order. -/
theorem downs_ordered {n : ℕ} (k : ℕ) (xs : List α) (keyed : Keyed less key xs) (within : n ≤ xs.length)
    (ordered : OrderedFrom key xs k n) :
    OrderedFrom key ((List.range k).reverse.foldl (fun t i => (down (list less) t i n).1) xs) 0 n := by
  induction k generalizing xs with
  | zero => exact ordered
  | succ k ih =>
    rw [List.range_succ, List.reverse_append, List.reverse_singleton, List.singleton_append, List.foldl_cons]
    obtain ⟨perm, length⟩ := (swapInvariant_perm less xs).downLoop xs k n within (List.Perm.refl _)
    simp only [list_len] at length
    -- `down` from `k` orders the pairs from `k` on, those from `k + 1` on being in order
    have inv : DownInv key xs k k n :=
      ⟨le_rfl, fun same => absurd rfl same, fun c pos lt below other => ordered c pos lt (by omega),
        fun same => absurd rfl same⟩
    exact ih _ (keyed.perm perm) (by simp only [down]; omega) (downLoop_ordered keyed within inv)

/-- `heap.Init` makes a heap of any slice. -/
theorem init_heap (keyed : Keyed less key xs) :
    IsHeap key (init (list less) xs) ∧ (init (list less) xs).Perm xs := by
  obtain ⟨perm, length⟩ := (swapInvariant_perm less xs).init xs (List.Perm.refl _)
  refine ⟨?_, perm⟩
  simp only [list_len] at length
  rw [IsHeap, length]
  apply downs_ordered _ xs keyed le_rfl
  -- no pair has its parent past the middle
  intro c pos lt below
  simp only [list_len] at below
  have := (parent_eq_iff pos).mp rfl
  omega

end Order

end GoHeap
