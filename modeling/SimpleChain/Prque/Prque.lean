import Mathlib
import SimpleChain.Prque.Sstack

/-! # The priority queue of common/prque

`Prque` runs Go's `container/heap` on a block-based `sstack`.  Its results are Go
`interface{}` values; `Iface` tells apart what they hold: nil, a value the user pushed, or the
stack's own `*item`.

While the live priorities fit a window of `2^63` (so that the wrap-around order of `Less` is a
linear order on them) and no value is in the queue twice, every reachable queue is a heap under
`Less` over the slice its stack stands for, and each operation answers from the top of that heap;
the callback's last word on each value stays where that value is (`Sstack.Tracked`).  `Remove`
hands back the stack's `*item`, where `PopItem` hands back the bare value. -/
set_option autoImplicit false

namespace SimpleChain.Common

structure Prque (V : Type) where
  cont : Sstack V

/-- What an `interface{}` result holds. -/
inductive Iface (V : Type) where
  | nil
  | value (v : V)
  | item (x : Option (Item V))
deriving DecidableEq

namespace Prque

variable {V : Type}

def new (setIndex : Bool) : Prque V := ⟨newSstack setIndex⟩

def push (p : Prque V) (data : V) (priority : BitVec 64) : Prque V :=
  ⟨GoHeap.push Sstack.heap p.cont (some ⟨data, priority⟩)⟩

/-- Peek returns the value with the greatest priority but does not pop it off; it dereferences
`blocks[0][0]`. -/
def peek (p : Prque V) : Option (V × BitVec 64) :=
  (p.cont.slotAt 0 0).map fun it => (it.value, it.priority)

def pop (p : Prque V) : Option (Prque V × (V × BitVec 64)) := do
  let r ← GoHeap.pop Sstack.heap p.cont
  let it ← r.2
  pure (⟨r.1⟩, (it.value, it.priority))

def popItem (p : Prque V) : Option (Prque V × Iface V) := do
  let r ← GoHeap.pop Sstack.heap p.cont
  let it ← r.2
  pure (⟨r.1⟩, .value it.value)

/-- Remove removes the element with the given index, and returns what the stack's `Pop` gave. -/
def remove (p : Prque V) (i : ℤ) : Option (Prque V × Iface V) :=
  if i < 0 then some (p, .nil)
  else (GoHeap.remove Sstack.heap p.cont i.toNat).map fun r => (⟨r.1⟩, .item r.2)

def empty (p : Prque V) : Bool := p.cont.len == 0

def size (p : Prque V) : ℕ := p.cont.len

def reset (p : Prque V) : Prque V := ⟨p.cont.reset⟩

inductive Op (V : Type) where
  | push (data : V) (priority : BitVec 64)
  | pop
  | popItem
  | peek
  | remove (i : ℤ)

inductive Out (V : Type) where
  | done
  | pair (v : V) (priority : BitVec 64)
  | iface (x : Iface V)

def step (p : Prque V) : Op V → Option (Prque V × Out V)
  | .push data priority => some (p.push data priority, .done)
  | .pop => p.pop.map fun r => (r.1, .pair r.2.1 r.2.2)
  | .popItem => p.popItem.map fun r => (r.1, .iface r.2)
  | .peek => p.peek.map fun r => (p, .pair r.1 r.2)
  | .remove i => (p.remove i).map fun r => (r.1, .iface r.2)

def items (p : Prque V) : List (Item V) := p.cont.flat.filterMap id

/-! ## The wrap-around order on a window -/

/-- Every item lies less than `2^63` above `lo`. -/
def InWindow (lo : BitVec 64) (xs : List (Option (Item V))) : Prop :=
  ∀ it, some it ∈ xs → (it.priority - lo).toNat < 2 ^ 63

theorem inWindow_iff_all (lo : BitVec 64) (xs : List (Option (Item V))) :
    InWindow lo xs ↔ (xs.all fun x => x.all fun it => decide ((it.priority - lo).toNat < 2 ^ 63)) = true := by
  simp only [InWindow, List.all_eq_true, Option.all_eq_true_iff_get, decide_eq_true_eq]
  constructor
  · intro within x mem isSome
    exact within _ (by simpa using mem)
  · intro within it mem
    exact within _ mem rfl

instance (lo : BitVec 64) (xs : List (Option (Item V))) : Decidable (InWindow lo xs) :=
  decidable_of_iff _ (inWindow_iff_all lo xs).symm

def windowKey (lo : BitVec 64) : Option (Item V) → ℤ
  | some it => -((it.priority - lo).toNat : ℤ)
  | none => 0

theorem before_iff_of_window {lo : BitVec 64} {a b : Item V} (ha : (a.priority - lo).toNat < 2 ^ 63)
    (hb : (b.priority - lo).toNat < 2 ^ 63) :
    a.before b = true ↔ windowKey lo (some a) < windowKey lo (some b) := by
  rw [Item.before, decide_eq_true_iff, TwosComplement.toInt_sub_pos_iff_of_window ha hb]
  simp only [windowKey]
  omega

theorem keyed_of_window {lo : BitVec 64} {xs : List (Option (Item V))} (filled : none ∉ xs)
    (window : InWindow lo xs) : GoHeap.Keyed slotLess (windowKey lo) xs := by
  intro a ha b hb
  obtain ⟨a, rfl⟩ := Option.ne_none_iff_exists'.mp (fun e => filled (e ▸ ha))
  obtain ⟨b, rfl⟩ := Option.ne_none_iff_exists'.mp (fun e => filled (e ▸ hb))
  exact before_iff_of_window (window a ha) (window b hb)

theorem mem_items {p : Prque V} {it : Item V} : it ∈ p.items ↔ some it ∈ p.cont.flat := by
  simp [items]

theorem flat_eq_map_items {p : Prque V} (filled : none ∉ p.cont.flat) : p.cont.flat = p.items.map some := by
  rw [items, List.map_filterMap_some_eq_filter_map_isSome, List.map_id, eq_comm, List.filter_eq_self]
  intro x mem
  cases x with
  | none => exact absurd mem filled
  | some _ => rfl

theorem items_perm {p : Prque V} {t : Sstack V} {it : Item V} (perm : (some it :: t.flat).Perm p.cont.flat) :
    (it :: (⟨t⟩ : Prque V).items).Perm p.items := by
  simpa [items] using perm.filterMap id

/-! ## The heap every reachable queue keeps -/

section Heap
variable [DecidableEq V] {p : Prque V}

/-- What every reachable queue keeps: a valid stack, no nil below its size, the priorities in
a window, and no element before its parent. -/
structure Valid (p : Prque V) : Prop where
  cont : p.cont.Valid
  filled : none ∉ p.cont.flat
  window : ∃ lo, InWindow lo p.cont.flat
  ordered : GoHeap.LessOrdered slotLess p.cont.flat

/-- `it` is in the queue and nothing in it comes before `it`. -/
def Top (p : Prque V) (it : Item V) : Prop := it ∈ p.items ∧ ∀ y ∈ p.items, y.before it = false

theorem new_valid (setIndex : Bool) : (new setIndex : Prque V).Valid where
  cont := Sstack.newSstack_valid setIndex
  filled := by simp [new, newSstack, Sstack.flat]
  window := ⟨0, by simp [InWindow, new, newSstack, Sstack.flat]⟩
  ordered := by simp [GoHeap.LessOrdered, new, newSstack, Sstack.flat]

theorem Valid.size_eq (valid : p.Valid) : p.size = p.items.length := by
  rw [size, Sstack.len, ← Sstack.length_flat, flat_eq_map_items valid.filled, List.length_map]

theorem Valid.root_top (valid : p.Valid) (nonempty : 0 < p.cont.size) :
    ∃ it, p.cont.slot 0 = some it ∧ p.Top it := by
  obtain ⟨lo, window⟩ := valid.window
  have keyed := keyed_of_window valid.filled window
  have heap := keyed.isHeap_iff.mpr valid.ordered
  have root : p.cont.flat.getD 0 default = p.cont.slot 0 := by
    rw [Option.default_eq_none, Sstack.getD_flat nonempty]
  have rootMem : p.cont.slot 0 ∈ p.cont.flat := by
    simp only [Sstack.flat, List.mem_map, List.mem_range]
    exact ⟨0, nonempty, rfl⟩
  obtain ⟨it, atRoot⟩ := Option.ne_none_iff_exists'.mp (fun e => valid.filled (e ▸ rootMem))
  refine ⟨it, atRoot, mem_items.mpr (atRoot ▸ rootMem), fun y mem => ?_⟩
  -- the root's key is the least, so `y` is not farther above the window's base
  have least := heap.root_le_mem (mem_items.mp mem)
  rw [root, atRoot] at least
  have notBefore := mt (before_iff_of_window (window y (mem_items.mp mem)) (window it (atRoot ▸ rootMem))).mp
    (not_lt.mpr least)
  simpa using notBefore

theorem Valid.push (valid : p.Valid) {v : V} {priority : BitVec 64}
    (fresh : ∀ i < p.cont.size, p.cont.valueAt i ≠ some v)
    (window : ∃ lo, InWindow lo (p.cont.flat ++ [some ⟨v, priority⟩])) :
    (p.push v priority).Valid ∧
      (p.push v priority).cont.flat.Perm (p.cont.flat ++ [some ⟨v, priority⟩]) := by
  obtain ⟨lo, window⟩ := window
  have filled : none ∉ p.cont.flat ++ [some ⟨v, priority⟩] := by simpa using valid.filled
  have keyed := keyed_of_window filled window
  have heap := (keyed.subset (List.subset_append_left _ _)).isHeap_iff.mpr valid.ordered
  obtain ⟨heap', perm⟩ := GoHeap.push_heap keyed heap
  rw [← Sstack.simulation.push p.cont _ valid.cont.shaped] at heap' perm
  refine ⟨⟨?_, fun mem => filled (perm.subset mem), ⟨lo, fun it mem => window it (perm.subset mem)⟩,
    (keyed.perm perm).isHeap_iff.mp heap'⟩, perm⟩
  exact Sstack.swapInvariant_valid.push (valid.cont.push fresh) (Sstack.push_spec valid.cont.shaped).2.1

theorem Valid.of_slice (valid : p.Valid) {t : Sstack V} {x : Option (Item V)} (kept : t.Valid)
    (perm : (x :: t.flat).Perm p.cont.flat)
    (heap : ∀ lo, InWindow lo p.cont.flat → GoHeap.IsHeap (windowKey lo) t.flat) :
    (⟨t⟩ : Prque V).Valid ∧ ∃ it, x = some it := by
  obtain ⟨lo, window⟩ := valid.window
  have sub : t.flat ⊆ p.cont.flat := fun y mem => perm.subset (List.mem_cons_of_mem _ mem)
  have keyed := (keyed_of_window valid.filled window).subset sub
  refine ⟨⟨kept, fun mem => valid.filled (sub mem), ⟨lo, fun it mem => window it (sub mem)⟩,
    keyed.isHeap_iff.mp (heap lo window)⟩, ?_⟩
  exact Option.ne_none_iff_exists'.mp fun e => valid.filled (perm.subset (e ▸ List.mem_cons_self))

theorem Valid.heapPop (valid : p.Valid) (nonempty : 0 < p.cont.size) :
    ∃ t it, GoHeap.pop Sstack.heap p.cont = some (t, some it) ∧ (⟨t⟩ : Prque V).Valid ∧
      (some it :: t.flat).Perm p.cont.flat ∧ p.cont.slot 0 = some it := by
  have view := Sstack.simulation.pop p.cont valid.cont.shaped
  obtain ⟨⟨t, x⟩, popped⟩ : ∃ r, GoHeap.pop Sstack.heap p.cont = some r := by
    unfold GoHeap.pop
    rw [if_neg (by simp only [Sstack.heap_len]; omega)]
    exact ⟨_, rfl⟩
  rw [popped, Option.map_some] at view
  have kept := Sstack.swapInvariant_valid.pop (fun _ v nonempty => v.pop nonempty) valid.cont popped
  have onSlice (lo : BitVec 64) (window : InWindow lo p.cont.flat) :=
    GoHeap.pop_heap (keyed_of_window valid.filled window) ((keyed_of_window valid.filled window).isHeap_iff.mpr
      valid.ordered) view.symm
  obtain ⟨lo, window⟩ := valid.window
  obtain ⟨-, perm, root⟩ := onSlice lo window
  obtain ⟨result, it, rfl⟩ := valid.of_slice kept perm fun lo window => (onSlice lo window).1
  rw [Option.default_eq_none, Sstack.getD_flat nonempty] at root
  exact ⟨t, it, popped, result, perm, root.symm⟩

theorem Valid.heapRemove (valid : p.Valid) {i : ℕ} (inside : i < p.cont.size) :
    ∃ t it, GoHeap.remove Sstack.heap p.cont i = some (t, some it) ∧ (⟨t⟩ : Prque V).Valid ∧
      (some it :: t.flat).Perm p.cont.flat ∧ p.cont.slot i = some it := by
  have view := Sstack.simulation.remove p.cont i valid.cont.shaped
  obtain ⟨⟨t, x⟩, removed⟩ : ∃ r, GoHeap.remove Sstack.heap p.cont i = some r := by
    unfold GoHeap.remove
    rw [if_neg (by simp only [Sstack.heap_len]; omega)]
    dsimp only
    split <;> exact ⟨_, rfl⟩
  rw [removed, Option.map_some] at view
  have kept := Sstack.swapInvariant_valid.remove (fun _ v nonempty => v.pop nonempty) valid.cont removed
  have onSlice (lo : BitVec 64) (window : InWindow lo p.cont.flat) :=
    GoHeap.remove_heap (keyed_of_window valid.filled window) ((keyed_of_window valid.filled window).isHeap_iff.mpr
      valid.ordered) view.symm
  obtain ⟨lo, window⟩ := valid.window
  obtain ⟨-, perm, atI⟩ := onSlice lo window
  obtain ⟨result, it, rfl⟩ := valid.of_slice kept perm fun lo window => (onSlice lo window).1
  rw [Option.default_eq_none, Sstack.getD_flat inside] at atI
  exact ⟨t, it, removed, result, perm, atI.symm⟩

/-! ## Calls on a reachable queue -/

/-- What a user may ask: to push a value not in the queue, its priority within `2^63` of the
others'; to pop or peek a queue that is not empty; to remove below the size. -/
def Admissible (p : Prque V) : Op V → Prop
  | .push v priority =>
    (∀ i < p.cont.size, p.cont.valueAt i ≠ some v) ∧ ∃ lo, InWindow lo (p.cont.flat ++ [some ⟨v, priority⟩])
  | .pop | .popItem | .peek => 0 < p.size
  | .remove i => i < p.size

/-- What each call answers, and the items it leaves. -/
def Answers (p : Prque V) : Op V → Prque V → Out V → Prop
  | .push v priority, p', out => out = .done ∧ p'.items.Perm (p.items ++ [⟨v, priority⟩])
  | .pop, p', out => ∃ it, out = .pair it.value it.priority ∧ p.Top it ∧ (it :: p'.items).Perm p.items
  | .popItem, p', out => ∃ it, out = .iface (.value it.value) ∧ p.Top it ∧ (it :: p'.items).Perm p.items
  | .peek, p', out => ∃ it, out = .pair it.value it.priority ∧ p.Top it ∧ p' = p
  | .remove i, p', out =>
    if i < 0 then out = .iface .nil ∧ p' = p
    else ∃ it, out = .iface (.item (some it)) ∧ p.cont.slot i.toNat = some it ∧
      (p.cont.setIndex = true → Sstack.lastIndex p.cont.reports it.value = some i) ∧
      (it :: p'.items).Perm p.items

theorem Valid.pop_answers (valid : p.Valid) (nonempty : 0 < p.size) :
    ∃ p' it, p.pop = some (p', (it.value, it.priority)) ∧ p'.Valid ∧ p.Top it ∧ (it :: p'.items).Perm p.items ∧
      p.popItem = some (p', .value it.value) := by
  obtain ⟨t, it, popped, result, perm, atRoot⟩ := valid.heapPop nonempty
  obtain ⟨top, atRoot', isTop⟩ := valid.root_top nonempty
  have same : top = it := Option.some.inj (atRoot'.symm.trans atRoot)
  refine ⟨⟨t⟩, it, ?_, result, same ▸ isTop, items_perm perm, ?_⟩ <;>
    simp [Prque.pop, Prque.popItem, popped]

theorem Valid.step_answers (valid : p.Valid) {o : Op V} (allowed : p.Admissible o) :
    ∃ p' out, p.step o = some (p', out) ∧ p.Answers o p' out ∧ p'.Valid := by
  cases o with
  | push v priority =>
    obtain ⟨fresh, window⟩ := allowed
    obtain ⟨result, perm⟩ := valid.push fresh window
    refine ⟨_, _, rfl, ⟨rfl, ?_⟩, result⟩
    simpa [items] using perm.filterMap id
  | pop =>
    obtain ⟨p', it, popped, result, top, perm, -⟩ := valid.pop_answers allowed
    exact ⟨p', _, by simp [step, popped], ⟨it, rfl, top, perm⟩, result⟩
  | popItem =>
    obtain ⟨p', it, -, result, top, perm, popped⟩ := valid.pop_answers allowed
    exact ⟨p', _, by simp [step, popped], ⟨it, rfl, top, perm⟩, result⟩
  | peek =>
    obtain ⟨it, atRoot, top⟩ := valid.root_top allowed
    have peeked : p.peek = some (it.value, it.priority) := by
      rw [peek, show p.cont.slotAt 0 0 = p.cont.slot 0 from rfl, atRoot]
      rfl
    exact ⟨p, _, by simp [step, peeked], ⟨it, rfl, top, rfl⟩, valid⟩
  | remove i =>
    by_cases negative : i < 0
    · exact ⟨p, .iface .nil, by simp [step, Prque.remove, negative], by simp [Answers, negative], valid⟩
    · have inside : i.toNat < p.cont.size := by simp only [Admissible, size, Sstack.len] at allowed; omega
      obtain ⟨t, it, removed, result, perm, atI⟩ := valid.heapRemove inside
      have index : ((i.toNat : ℕ) : ℤ) = i := Int.toNat_of_nonneg (by omega)
      refine ⟨⟨t⟩, .iface (.item (some it)), by simp [step, Prque.remove, negative, removed], ?_, result⟩
      rw [Answers, if_neg negative]
      refine ⟨it, rfl, atI, fun on => ?_, items_perm perm⟩
      have := valid.cont.tracked.live on _ inside it.value (by simp [Sstack.valueAt, atI])
      rwa [index] at this

/-- The queues a user can reach from `New` by calls it may make. -/
inductive Reachable (setIndex : Bool) : Prque V → Prop
  | new : Reachable setIndex (new setIndex)
  | step {p p' : Prque V} {o : Op V} {out : Out V} :
      Reachable setIndex p → p.Admissible o → p.step o = some (p', out) → Reachable setIndex p'

theorem Reachable.valid {setIndex : Bool} (reached : Reachable setIndex p) : p.Valid := by
  induction reached with
  | new => exact new_valid setIndex
  | step _ allowed stepped ih =>
    obtain ⟨p'', out', stepped', -, result⟩ := ih.step_answers allowed
    rw [stepped] at stepped'
    cases stepped'
    exact result

/-- Every call a user may make on a reachable queue succeeds and answers from the top of the
heap; `Size` counts the items left, and the callback's last word on each value is where the
value is, or -1 since it left. -/
theorem prque_answers_with_index_tracking {setIndex : Bool} (reached : Reachable setIndex p) (o : Op V)
    (allowed : p.Admissible o) :
    ∃ p' out, p.step o = some (p', out) ∧ p.Answers o p' out ∧ p'.size = p'.items.length ∧
      p'.cont.Tracked := by
  obtain ⟨p', out, stepped, answers, result⟩ := reached.valid.step_answers allowed
  exact ⟨p', out, stepped, answers, result.size_eq, result.cont.tracked⟩

/-- `Push(7, 5)`, `Push(8, 9)`, `Push(9, 1)` on a queue with a callback: 8 at the root, 7 and 9
below it. -/
def threePushes : Prque ℕ := (((new true).push 7 5).push 8 9).push 9 1

/-- `Remove(1)`, the index the callback last gave value 7, takes 7 and leaves 8 and 9. -/
theorem prque_answers_with_index_tracking_after_three_pushes :
    Reachable true threePushes ∧
      ((threePushes.step (.remove 1)).map fun r => r.1.items) = some [⟨8, 9⟩, ⟨9, 1⟩] ∧
      ∃ p' out, threePushes.step (.remove 1) = some (p', out) ∧ threePushes.Answers (.remove 1) p' out ∧
        p'.size = p'.items.length ∧ p'.cont.Tracked := by
  have reached : Reachable true threePushes :=
    .step (o := .push 9 1) (.step (o := .push 8 9) (.step (o := .push 7 5) .new
      ⟨by decide +kernel, 0, by decide +kernel⟩ rfl) ⟨by decide +kernel, 0, by decide +kernel⟩ rfl)
      ⟨by decide +kernel, 0, by decide +kernel⟩ rfl
  exact ⟨reached, by decide +kernel, prque_answers_with_index_tracking reached (.remove 1)
    (by simp only [Admissible]; decide +kernel)⟩

end Heap

/-- `Remove` hands back the stack's `*item`, where `PopItem` hands back the value: after
`Push(7, 5)`, `Remove(0)` gives the item `{7, 5}` and `PopItem()` gives `7`. -/
theorem remove_returns_item_where_popItem_returns_value :
    (((new true : Prque ℕ).push 7 5).remove 0).map Prod.snd = some (.item (some ⟨7, 5⟩)) ∧
      ((new true : Prque ℕ).push 7 5).popItem.map Prod.snd = some (.value 7) := by
  -- the first element stays at the root
  have pushed : (new true : Prque ℕ).push 7 5 = ⟨(newSstack true).push (some ⟨7, 5⟩)⟩ := by
    simp only [Prque.push, GoHeap.push, new]
    rw [GoHeap.up_of_same (by decide)]
    rfl
  rw [pushed]
  constructor
  · decide
  · simp only [Prque.popItem, GoHeap.pop, GoHeap.down_fst]
    rw [GoHeap.downLoop_stop Sstack.heap (.inl (by decide))]
    decide

end Prque

end SimpleChain.Common
