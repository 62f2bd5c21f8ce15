import Mathlib
import SimpleChain.Prque.LazyQueue

/-! # What every lazy queue keeps between calls

`Valid lo q`: both queues and `popQueue` are heaps, the priorities lie in the signed window
`[lo, lo + 2^63)` where the wrap-around order of `sstack` and the plain `<` of `peekIndex` and
`MultiPop` agree, no value is in two places, `odd` follows `indexOffset`, and the callback
knows where each value is.  Each heap operation the lazy queue makes keeps it. -/
set_option autoImplicit false

namespace SimpleChain.Common

namespace LazyQueue

variable {V : Type}

/-! ## Priorities in a signed window -/

/-- `p`, read as an `int64`, lies in `[lo, lo + 2^63)`. -/
def InRange (lo : ℤ) (p : BitVec 64) : Prop := lo ≤ p.toInt ∧ p.toInt < lo + 2 ^ 63

instance (lo : ℤ) (p : BitVec 64) : Decidable (InRange lo p) := inferInstanceAs (Decidable (_ ∧ _))

theorem before_iff_of_range {lo : ℤ} {a b : Item V} (ha : InRange lo a.priority) (hb : InRange lo b.priority) :
    a.before b = true ↔ b.priority.toInt < a.priority.toInt := by
  rw [Item.before, decide_eq_true_iff, TwosComplement.toInt_sub_of_signed_window ha hb]
  omega

/-- A signed window lies in the wrap-around window `Prque.Valid` asks for. -/
theorem inWindow_of_range {lo : ℤ} {xs : List (Option (Item V))}
    (ranged : ∀ it, some it ∈ xs → InRange lo it.priority) :
    Prque.InWindow (BitVec.ofInt 64 (max lo (-2 ^ 63))) xs := by
  intro it mem
  obtain ⟨above, below⟩ := ranged it mem
  have least : -2 ^ 63 ≤ it.priority.toInt := by simpa using it.priority.le_toInt
  have dist := TwosComplement.toNat_sub_ofInt_of_signed_window (w := 63) (x := it.priority)
    (le_max_right lo _) ⟨max_le above least, by omega⟩
  simp only [Nat.reduceAdd] at dist
  omega

/-! ## Items and values -/

/-- The items of `queue[j]`. -/
def items (q : LazyQueue V) (j : Fin 2) : List (Item V) := (⟨q.queue j⟩ : Prque V).items

/-- The items waiting in `popQueue`. -/
def pending (q : LazyQueue V) : List (Item V) := (⟨q.popQueue⟩ : Prque V).items

/-- The values in the two queues. -/
def values (q : LazyQueue V) : List V := (q.items 0).map Item.value ++ (q.items 1).map Item.value

/-- The values in the queues and in `popQueue`. -/
def allValues (q : LazyQueue V) : List V := q.values ++ q.pending.map Item.value

theorem holds_iff {s : Sstack V} {v : V} : s.Holds v ↔ v ∈ (⟨s⟩ : Prque V).items.map Item.value := by
  simp only [Sstack.Holds, Sstack.valueAt, Option.map_eq_some_iff, List.mem_map, Prque.mem_items,
    Sstack.flat, List.mem_range]
  constructor
  · rintro ⟨i, hi, it, slot, rfl⟩
    exact ⟨it, ⟨i, hi, slot⟩, rfl⟩
  · rintro ⟨it, ⟨i, hi, slot⟩, rfl⟩
    exact ⟨i, hi, it, slot, rfl⟩

@[simp] theorem items_setQueue_self (q : LazyQueue V) (j : Fin 2) (s : Sstack V) :
    (q.setQueue j s).items j = (⟨s⟩ : Prque V).items := by
  simp [items]

@[simp] theorem items_setQueue_ne (q : LazyQueue V) {j k : Fin 2} (s : Sstack V) (other : k ≠ j) :
    (q.setQueue j s).items k = q.items k := by
  simp [items, Function.update_of_ne other]

@[simp] theorem pending_setQueue (q : LazyQueue V) (j : Fin 2) (s : Sstack V) :
    (q.setQueue j s).pending = q.pending := rfl

/-- Taking `x` out of `queue[j]` takes it out of the lazy queue. -/
theorem allValues_setQueue_out (q : LazyQueue V) {j : Fin 2} {s : Sstack V} {x : V}
    (perm : (x :: (⟨s⟩ : Prque V).items.map Item.value).Perm ((q.items j).map Item.value)) :
    (x :: (q.setQueue j s).allValues).Perm q.allValues := by
  fin_cases j
  · simp only [allValues, values, Fin.zero_eta, items_setQueue_self, ne_eq, Fin.isValue, one_ne_zero,
      not_false_eq_true, items_setQueue_ne, pending_setQueue, List.append_assoc] at perm ⊢
    exact (perm.append_right _)
  · simp only [allValues, values, Fin.mk_one, items_setQueue_self, ne_eq, Fin.isValue, zero_ne_one,
      not_false_eq_true, items_setQueue_ne, pending_setQueue, List.append_assoc] at perm ⊢
    exact List.perm_middle.symm.trans ((perm.append_right _).append_left _)

/-- Putting `x` into `queue[j]` puts it into the lazy queue. -/
theorem allValues_setQueue_in (q : LazyQueue V) {j : Fin 2} {s : Sstack V} {x : V}
    (perm : ((⟨s⟩ : Prque V).items.map Item.value).Perm (x :: (q.items j).map Item.value)) :
    (q.setQueue j s).allValues.Perm (x :: q.allValues) := by
  fin_cases j
  · simp only [allValues, values, Fin.zero_eta, items_setQueue_self, ne_eq, Fin.isValue, one_ne_zero,
      not_false_eq_true, items_setQueue_ne, pending_setQueue, List.append_assoc] at perm ⊢
    exact perm.append_right _
  · simp only [allValues, values, Fin.mk_one, items_setQueue_self, ne_eq, Fin.isValue, zero_ne_one,
      not_false_eq_true, items_setQueue_ne, pending_setQueue, List.append_assoc] at perm ⊢
    exact ((perm.append_right _).append_left _).trans List.perm_middle

/-- No value of one queue is in the other. -/
theorem apart_of_nodup {q : LazyQueue V} (nodup : q.allValues.Nodup) {j k : Fin 2} (other : k ≠ j) {v : V}
    (held : v ∈ (q.items k).map Item.value) : v ∉ (q.items j).map Item.value := by
  have disjoint := (List.nodup_append.mp (List.nodup_append.mp nodup).1).2.2
  fin_cases j <;> fin_cases k
  · exact absurd rfl other
  · exact fun mem => disjoint v mem v held rfl
  · exact fun mem => disjoint v held v mem rfl
  · exact absurd rfl other

theorem items_eq_nil {s : Sstack V} (empty : s.size = 0) : (⟨s⟩ : Prque V).items = [] := by
  simp [Prque.items, Sstack.flat, empty]

theorem slotAt_zero (s : Sstack V) : s.slotAt 0 0 = s.slot 0 := by
  simp [Sstack.slot]

/-- Nothing in a queue whose priorities lie in the window comes above its top. -/
theorem le_of_top {lo : ℤ} {p : Prque V} {top : Item V} (isTop : p.Top top)
    (ranged : ∀ it ∈ p.items, InRange lo it.priority) : ∀ it ∈ p.items, it.priority.toInt ≤ top.priority.toInt := by
  intro it mem
  have notBefore := isTop.2 it mem
  rw [← Bool.not_eq_true, before_iff_of_range (ranged it mem) (ranged top isTop.1)] at notBefore
  omega

section Valid

variable [DecidableEq V] {lo : ℤ} {q : LazyQueue V}

/-- What every lazy queue keeps between calls, with its priorities in `[lo, lo + 2^63)`. -/
structure Valid (lo : ℤ) (q : LazyQueue V) : Prop where
  heap : ∀ j, (⟨q.queue j⟩ : Prque V).Valid
  called : ∀ j, (q.queue j).setIndex = true
  estimates : ∀ j, ∀ it ∈ q.items j, InRange lo it.priority
  popHeap : (⟨q.popQueue⟩ : Prque V).Valid
  silent : q.popQueue.setIndex = false
  actuals : ∀ it ∈ q.pending, InRange lo it.priority
  nodup : q.allValues.Nodup
  offset : q.indexOffset = 0 ∨ q.indexOffset = 1
  odd : ∀ j : Fin 2, q.odd j = decide (((j : ℕ) : ℤ) ≠ q.indexOffset)
  tracks : q.Tracks

/-- A heap operation on `queue[j]` that keeps the heap, the window and the value it pushes. -/
theorem Valid.setQueue (valid : q.Valid lo) {j : Fin 2} {s : Sstack V} {x : Option V}
    (heap : (⟨s⟩ : Prque V).Valid) (since : Sstack.Since (q.queue j) x s)
    (estimates : ∀ it ∈ (⟨s⟩ : Prque V).items, InRange lo it.priority)
    (nodup : (q.setQueue j s).allValues.Nodup) (stays : ∀ v, x = some v → s.Holds v) :
    (q.setQueue j s).Valid lo := by
  -- the other queue is apart from `queue[j]`, before and after
  have apart : ∀ k, k ≠ j → ∀ v, (q.queue k).Holds v → ¬ (q.queue j).Holds v ∧ ¬ s.Holds v := by
    intro k other v held
    rw [holds_iff] at held
    refine ⟨fun mem => apart_of_nodup valid.nodup other held (holds_iff.mp mem), fun mem => ?_⟩
    have heldAfter : v ∈ ((q.setQueue j s).items k).map Item.value := by rwa [items_setQueue_ne _ _ other]
    exact apart_of_nodup nodup other heldAfter (by rw [items_setQueue_self]; exact holds_iff.mp mem)
  refine ⟨?_, ?_, ?_, valid.popHeap, valid.silent, valid.actuals, nodup, valid.offset, valid.odd,
    valid.tracks.setQueue since (valid.heap j).cont.tracked heap.cont.tracked (valid.called j) apart stays⟩
  · exact (Function.forall_update_iff q.queue fun _ t => (⟨t⟩ : Prque V).Valid).mpr
      ⟨heap, fun k _ => valid.heap k⟩
  · exact (Function.forall_update_iff q.queue fun _ t => t.setIndex = true).mpr
      ⟨since.setIndex.trans (valid.called j), fun k _ => valid.called k⟩
  · exact (Function.forall_update_iff q.queue fun _ t => ∀ it ∈ (⟨t⟩ : Prque V).items, InRange lo it.priority).mpr
      ⟨estimates, fun k _ => valid.estimates k⟩

/-- `Push` of a value in no queue, with its estimate in the window. -/
theorem Valid.push (valid : q.Valid lo) (maxPriority : V → AbsTime → BitVec 64) {v : V}
    (fresh : v ∉ q.allValues) (ranged : InRange lo (maxPriority v q.maxUntil)) :
    (q.push maxPriority v).Valid lo ∧ (q.push maxPriority v).allValues.Perm (v :: q.allValues) := by
  have notHeld : ¬ (q.queue 1).Holds v := fun held =>
    fresh (List.mem_append_left _ (List.mem_append_right _ (holds_iff.mp held)))
  have window : ∀ it, some it ∈ (q.queue 1).flat ++ [some ⟨v, maxPriority v q.maxUntil⟩] →
      InRange lo it.priority := by
    intro it mem
    rcases List.mem_append.mp mem with old | new
    · exact valid.estimates 1 it (Prque.mem_items.mpr old)
    · cases List.mem_singleton.mp new
      exact ranged
  obtain ⟨heap, perm⟩ := (valid.heap 1).push (Sstack.not_holds_iff.mp notHeld) ⟨_, inWindow_of_range window⟩
  have itemsPerm : ((⟨(q.push maxPriority v).queue 1⟩ : Prque V).items).Perm
      (q.items 1 ++ [⟨v, maxPriority v q.maxUntil⟩]) := by
    have filtered := perm.filterMap id
    simp only [List.filterMap_append, List.filterMap_cons, id, List.filterMap_nil] at filtered
    exact filtered
  have valuesPerm := allValues_setQueue_in (j := 1) q (x := v) (by
    refine (itemsPerm.map Item.value).trans ?_
    rw [List.map_append, List.map_singleton]
    exact List.perm_append_singleton v _)
  have nodup : (q.push maxPriority v).allValues.Nodup :=
    valuesPerm.nodup_iff.mpr (List.nodup_cons.mpr ⟨fresh, valid.nodup⟩)
  refine ⟨valid.setQueue heap (Sstack.since_push (valid.heap 1).cont.shaped _)
    (fun it mem => window it (perm.subset (Prque.mem_items.mp mem))) nodup ?_, valuesPerm⟩
  rintro _ ⟨⟩
  exact holds_iff.mpr (List.mem_map.mpr ⟨_, itemsPerm.symm.subset (by simp), rfl⟩)

/-- Taking an item out of `queue[j]`, by `heap.Pop` or `heap.Remove`. -/
theorem Valid.take (valid : q.Valid lo) {j : Fin 2} {s : Sstack V} {it : Item V}
    (heap : (⟨s⟩ : Prque V).Valid) (since : Sstack.Since (q.queue j) none s)
    (perm : (some it :: s.flat).Perm (q.queue j).flat) :
    (q.setQueue j s).Valid lo ∧ (it :: (⟨s⟩ : Prque V).items).Perm (q.items j) ∧
      (it.value :: (q.setQueue j s).allValues).Perm q.allValues := by
  have itemsPerm : (it :: (⟨s⟩ : Prque V).items).Perm (q.items j) := Prque.items_perm (p := ⟨q.queue j⟩) perm
  have valuesPerm := allValues_setQueue_out q (itemsPerm.map Item.value)
  have nodup := (List.nodup_cons.mp (valuesPerm.nodup_iff.mpr valid.nodup)).2
  refine ⟨valid.setQueue heap since (fun it' mem => ?_) nodup (by simp), itemsPerm, valuesPerm⟩
  exact valid.estimates j it' (itemsPerm.subset (List.mem_cons_of_mem _ mem))

/-- `heap.Pop` on `queue[j]` takes its top. -/
theorem Valid.heapPop (valid : q.Valid lo) {j : Fin 2} (nonempty : 0 < (q.queue j).size) :
    ∃ s it, GoHeap.pop Sstack.heap (q.queue j) = some (s, some it) ∧ Prque.Top ⟨q.queue j⟩ it ∧
      s.size + 1 = (q.queue j).size ∧ (q.setQueue j s).Valid lo ∧
      (it :: (⟨s⟩ : Prque V).items).Perm (q.items j) ∧ (it.value :: (q.setQueue j s).allValues).Perm q.allValues := by
  obtain ⟨s, it, popped, heap, perm, root⟩ := (valid.heap j).heapPop nonempty
  obtain ⟨top, atRoot, isTop⟩ := (valid.heap j).root_top nonempty
  rw [root, Option.some.injEq] at atRoot
  subst atRoot
  have size := perm.length_eq
  rw [List.length_cons, Sstack.length_flat, Sstack.length_flat] at size
  exact ⟨s, it, popped, isTop, size, valid.take heap (Sstack.since_heapPop (valid.heap j).cont.shaped popped) perm⟩

/-- `heap.Remove(i)` on `queue[j]` takes the item at `i`. -/
theorem Valid.heapRemove (valid : q.Valid lo) {j : Fin 2} {i : ℕ} (inside : i < (q.queue j).size) :
    ∃ s it, GoHeap.remove Sstack.heap (q.queue j) i = some (s, some it) ∧ (q.queue j).slot i = some it ∧
      (q.setQueue j s).Valid lo ∧ (it :: (⟨s⟩ : Prque V).items).Perm (q.items j) ∧
      (it.value :: (q.setQueue j s).allValues).Perm q.allValues := by
  obtain ⟨s, it, removed, heap, perm, atI⟩ := (valid.heap j).heapRemove inside
  exact ⟨s, it, removed, atI, valid.take heap (Sstack.since_heapRemove (valid.heap j).cont.shaped removed) perm⟩

theorem Tracks.withPending {q : LazyQueue V} (tracks : q.Tracks) (s : Sstack V) :
    ({ q with popQueue := s } : LazyQueue V).Tracks :=
  ⟨tracks.live, tracks.gone⟩

/-- `heap.Push` onto `popQueue` of a value in no queue, with its priority in the window. -/
theorem Valid.pushPending (valid : q.Valid lo) {x : Item V} (fresh : x.value ∉ q.allValues)
    (ranged : InRange lo x.priority) :
    ({ q with popQueue := GoHeap.push Sstack.heap q.popQueue (some x) } : LazyQueue V).Valid lo ∧
      ({ q with popQueue := GoHeap.push Sstack.heap q.popQueue (some x) } : LazyQueue V).pending.Perm
        (x :: q.pending) ∧
      ({ q with popQueue := GoHeap.push Sstack.heap q.popQueue (some x) } : LazyQueue V).allValues.Perm
        (x.value :: q.allValues) := by
  have notHeld : ∀ i < q.popQueue.size, q.popQueue.valueAt i ≠ some x.value :=
    Sstack.not_holds_iff.mp fun held => fresh (List.mem_append_right _ (holds_iff.mp held))
  have window : ∀ y, some y ∈ q.popQueue.flat ++ [some x] → InRange lo y.priority := by
    intro y mem
    rcases List.mem_append.mp mem with old | new
    · exact valid.actuals y (Prque.mem_items.mpr old)
    · cases List.mem_singleton.mp new
      exact ranged
  obtain ⟨heap, perm⟩ := valid.popHeap.push notHeld ⟨_, inWindow_of_range window⟩
  have pendingPerm : (⟨GoHeap.push Sstack.heap q.popQueue (some x)⟩ : Prque V).items.Perm (x :: q.pending) := by
    have filtered := perm.filterMap id
    simp only [List.filterMap_append, List.filterMap_cons, id, List.filterMap_nil] at filtered
    exact filtered.trans (List.perm_append_singleton x _)
  have valuesPerm : (q.values ++ (⟨GoHeap.push Sstack.heap q.popQueue (some x)⟩ : Prque V).items.map
      Item.value).Perm (x.value :: q.allValues) :=
    ((pendingPerm.map Item.value).append_left q.values).trans List.perm_middle
  refine ⟨⟨valid.heap, valid.called, valid.estimates, heap,
    (Sstack.since_push valid.popHeap.cont.shaped x).setIndex.trans valid.silent, fun y mem => ?_,
    valuesPerm.nodup_iff.mpr (List.nodup_cons.mpr ⟨fresh, valid.nodup⟩), valid.offset, valid.odd,
    valid.tracks.withPending _⟩,
    pendingPerm, valuesPerm⟩
  exact window y (perm.subset (Prque.mem_items.mp mem))

/-- `heap.Pop` on `popQueue` takes its top. -/
theorem Valid.popPending (valid : q.Valid lo) (nonempty : 0 < q.popQueue.size) :
    ∃ s it, GoHeap.pop Sstack.heap q.popQueue = some (s, some it) ∧ q.popQueue.slot 0 = some it ∧
      Prque.Top ⟨q.popQueue⟩ it ∧ s.size + 1 = q.popQueue.size ∧
      ({ q with popQueue := s } : LazyQueue V).Valid lo ∧
      (it :: ({ q with popQueue := s } : LazyQueue V).pending).Perm q.pending ∧
      (it.value :: ({ q with popQueue := s } : LazyQueue V).allValues).Perm q.allValues := by
  obtain ⟨s, it, popped, heap, perm, root⟩ := valid.popHeap.heapPop nonempty
  obtain ⟨top, atRoot, isTop⟩ := valid.popHeap.root_top nonempty
  rw [root, Option.some.injEq] at atRoot
  subst atRoot
  have pendingPerm : (it :: (⟨s⟩ : Prque V).items).Perm q.pending := Prque.items_perm (p := ⟨q.popQueue⟩) perm
  have valuesPerm : (it.value :: (q.values ++ (⟨s⟩ : Prque V).items.map Item.value)).Perm q.allValues :=
    List.perm_middle.symm.trans ((pendingPerm.map Item.value).append_left q.values)
  have size := perm.length_eq
  rw [List.length_cons, Sstack.length_flat, Sstack.length_flat] at size
  refine ⟨s, it, popped, root, isTop, size, ⟨valid.heap, valid.called, valid.estimates, heap,
    (Sstack.since_heapPop valid.popHeap.cont.shaped popped).setIndex.trans valid.silent, fun x mem => ?_,
    (List.nodup_cons.mp (valuesPerm.nodup_iff.mpr valid.nodup)).2, valid.offset, valid.odd,
    valid.tracks.withPending _⟩,
    pendingPerm, valuesPerm⟩
  exact valid.actuals x (pendingPerm.subset (List.mem_cons_of_mem _ mem))

theorem Tracks.swap {q : LazyQueue V} (tracks : q.Tracks) (offset : ℤ) (due : AbsTime) :
    ({ q with queue := ![q.queue 1, q.queue 0], odd := ![q.odd 1, q.odd 0]
              indexOffset := offset, maxUntil := due } : LazyQueue V).Tracks where
  live j i v hi atI := by
    fin_cases j
    · exact tracks.live 1 i v hi atI
    · exact tracks.live 0 i v hi atI
  gone v absent := tracks.gone v fun j => by
    fin_cases j
    exacts [absent 1, absent 0]

/-- The end of `Refresh`: the queues trade places as `indexOffset` flips. -/
theorem Valid.swap (valid : q.Valid lo) (due : AbsTime) :
    ({ q with queue := ![q.queue 1, q.queue 0], odd := ![q.odd 1, q.odd 0]
              indexOffset := 1 - q.indexOffset, maxUntil := due } : LazyQueue V).Valid lo ∧
      ({ q with queue := ![q.queue 1, q.queue 0], odd := ![q.odd 1, q.odd 0]
                indexOffset := 1 - q.indexOffset, maxUntil := due } : LazyQueue V).allValues.Perm q.allValues := by
  have perm : ((q.items 1).map Item.value ++ (q.items 0).map Item.value ++ q.pending.map Item.value).Perm
      q.allValues := List.perm_append_comm.append_right _
  refine ⟨⟨fun j => ?_, fun j => ?_, fun j => ?_, valid.popHeap, valid.silent, valid.actuals,
    perm.nodup_iff.mpr valid.nodup, ?_, fun j => ?_, valid.tracks.swap _ _⟩, perm⟩
  · fin_cases j
    exacts [valid.heap 1, valid.heap 0]
  · fin_cases j
    exacts [valid.called 1, valid.called 0]
  · fin_cases j
    exacts [valid.estimates 1, valid.estimates 0]
  · have := valid.offset
    dsimp only
    omega
  · -- the stack at `j` now is the one at `1 - j` before
    fin_cases j <;> rcases valid.offset with off | off <;> simp [valid.odd, off]

/-! ## `peekIndex` and the test of the inner loop -/

/-- The top of `queue[j]`, at its root, has the highest estimate of both queues. -/
def Highest (q : LazyQueue V) (j : Fin 2) (top : Item V) : Prop :=
  0 < (q.queue j).size ∧ (q.queue j).slot 0 = some top ∧
    ∀ k, ∀ it ∈ q.items k, it.priority.toInt ≤ top.priority.toInt

/-- `peekIndex` picks the queue of highest estimate, and `-1` only when both are empty. -/
theorem Valid.peekIndex (valid : q.Valid lo) :
    ∃ next, q.peekIndex = some next ∧ (next = none → q.values = []) ∧
      ∀ j, next = some j → ∃ top, q.Highest j top := by
  have root : ∀ j, 0 < (q.queue j).size → ∃ t, (q.queue j).slot 0 = some t ∧
      ∀ it ∈ q.items j, it.priority.toInt ≤ t.priority.toInt := by
    intro j nonempty
    obtain ⟨t, atRoot, isTop⟩ := (valid.heap j).root_top nonempty
    exact ⟨t, atRoot, le_of_top isTop (valid.estimates j)⟩
  have empty : ∀ j, ¬ (q.queue j).len ≠ 0 → q.items j = [] := fun j none =>
    items_eq_nil (by simpa [Sstack.len] using none)
  unfold LazyQueue.peekIndex
  by_cases has1 : (q.queue 1).len ≠ 0
  · obtain ⟨a, rootA, belowA⟩ := root 1 (Nat.pos_of_ne_zero has1)
    by_cases has0 : (q.queue 0).len ≠ 0
    · obtain ⟨b, rootB, belowB⟩ := root 0 (Nat.pos_of_ne_zero has0)
      simp only [has0, has1, ne_eq, not_false_eq_true, if_true, slotAt_zero, rootA, rootB,
        Option.bind_eq_bind, Option.bind_some, Option.pure_def]
      refine ⟨_, rfl, by simp, fun j chosen => ?_⟩
      -- the queue of the greater top
      by_cases lt : b.priority.slt a.priority
      · rw [if_pos lt, Option.some.injEq] at chosen
        subst chosen
        exact ⟨a, Nat.pos_of_ne_zero has1, rootA, Fin.forall_fin_two.mpr
          ⟨fun it mem => (belowB it mem).trans (BitVec.slt_iff_toInt_lt.mp lt).le, belowA⟩⟩
      · rw [if_neg lt, Option.some.injEq] at chosen
        subst chosen
        have le := not_lt.mp (mt BitVec.slt_iff_toInt_lt.mpr lt)
        exact ⟨b, Nat.pos_of_ne_zero has0, rootB, Fin.forall_fin_two.mpr
          ⟨belowB, fun it mem => (belowA it mem).trans le⟩⟩
    · simp only [has0, has1, ne_eq, not_false_eq_true, if_true, if_false, Option.pure_def]
      refine ⟨_, rfl, by simp, fun j chosen => ?_⟩
      cases chosen
      exact ⟨a, Nat.pos_of_ne_zero has1, rootA, Fin.forall_fin_two.mpr ⟨by simp [empty 0 has0], belowA⟩⟩
  · by_cases has0 : (q.queue 0).len ≠ 0
    · obtain ⟨b, rootB, belowB⟩ := root 0 (Nat.pos_of_ne_zero has0)
      simp only [has0, has1, ne_eq, not_false_eq_true, if_true, if_false, Option.pure_def]
      refine ⟨_, rfl, by simp, fun j chosen => ?_⟩
      cases chosen
      exact ⟨b, Nat.pos_of_ne_zero has0, rootB, Fin.forall_fin_two.mpr ⟨belowB, by simp [empty 1 has1]⟩⟩
    · simp only [has0, has1, if_false, Option.pure_def]
      exact ⟨none, rfl, fun _ => by simp [values, empty 0 has0, empty 1 has1], by simp⟩

/-- The test of `MultiPop`'s inner loop: the top of `popQueue` beats every estimate left. -/
theorem Valid.beats (valid : q.Valid lo) {next : Option (Fin 2)} (peek : q.peekIndex = some next) :
    ∃ b, q.beats next = some b ∧
      (b = true → 0 < q.popQueue.size ∧ ∃ t, q.popQueue.slot 0 = some t ∧
        ∀ k, ∀ it ∈ q.items k, it.priority.toInt < t.priority.toInt) ∧
      (b = false → next = none → q.popQueue.size = 0) := by
  obtain ⟨next', peek', none', some'⟩ := valid.peekIndex
  rw [peek, Option.some.injEq] at peek'
  subst peek'
  unfold LazyQueue.beats
  by_cases waiting : q.popQueue.len ≠ 0
  · obtain ⟨t, rootT, -⟩ := valid.popHeap.root_top (Nat.pos_of_ne_zero waiting)
    rw [if_pos waiting]
    cases next with
    | none =>
        -- no queue is left
        have nil := none' rfl
        simp only [values, List.append_eq_nil_iff, List.map_eq_nil_iff] at nil
        exact ⟨true, rfl, fun _ => ⟨Nat.pos_of_ne_zero waiting, t, rootT,
          Fin.forall_fin_two.mpr ⟨by simp [nil.1], by simp [nil.2]⟩⟩, by simp⟩
    | some j =>
        obtain ⟨a, -, rootA, belowA⟩ := some' j rfl
        refine ⟨a.priority.slt t.priority, ?_, fun lt => ⟨Nat.pos_of_ne_zero waiting, t, rootT, fun k it mem => ?_⟩,
          by simp⟩
        · simp only [slotAt_zero, rootA, rootT, Option.bind_eq_bind, Option.bind_some, Option.pure_def]
        · exact lt_of_le_of_lt (belowA k it mem) (BitVec.slt_iff_toInt_lt.mp lt)
  · rw [if_neg waiting]
    exact ⟨false, rfl, by simp, fun _ _ => by simpa [Sstack.len] using waiting⟩

/-! ## `Remove`, `Update` and `Refresh` -/

theorem virtual_eq (odd : Bool) (i : ℕ) : virtual odd i = ((2 * i + if odd then 1 else 0 : ℕ) : ℤ) := by
  have : (i : ℤ) ≠ -1 := by omega
  cases odd <;> simp only [virtual, this, if_true, if_false, Bool.false_eq_true] <;> push_cast <;> ring

theorem land_one (n : ℕ) : Int.land (n : ℤ) 1 = ((n % 2 : ℕ) : ℤ) := by
  show Int.ofNat (n &&& 1) = _
  rw [Nat.and_one_is_mod]
  rfl

theorem toNat_shiftRight_one (n : ℕ) : ((n : ℤ) >>> 1).toNat = n / 2 := by
  show (Int.ofNat (n >>> 1)).toNat = _
  rw [Nat.shiftRight_eq_div_pow]
  rfl

/-- The low bit of a virtual index and `indexOffset` name the queue it came from. -/
theorem Valid.queueIndex_virtual (valid : q.Valid lo) (j : Fin 2) (i : ℕ) :
    q.queueIndex (virtual (q.odd j) i) = some j := by
  unfold queueIndex
  simp only [virtual_eq, land_one, valid.odd j]
  fin_cases j <;> rcases valid.offset with off | off <;> simp [off] <;> decide

/-- `Remove` of the virtual index of the value at `i` in `queue[j]` takes that value. -/
theorem Valid.remove (valid : q.Valid lo) {j : Fin 2} {i : ℕ} {v : V} (inside : i < (q.queue j).size)
    (atI : (q.queue j).valueAt i = some v) :
    ∃ q', q.remove (virtual (q.odd j) i) = some (q', some v) ∧ q'.Valid lo ∧
      (v :: q'.allValues).Perm q.allValues ∧ q'.popQueue = q.popQueue := by
  obtain ⟨s, it, removed, slotI, valid', -, perm⟩ := valid.heapRemove inside
  have value : it.value = v := by simpa [Sstack.valueAt, slotI] using atI
  subst value
  have half : (virtual (q.odd j) i >>> 1).toNat = i := by
    rw [virtual_eq, toNat_shiftRight_one]
    split <;> omega
  refine ⟨q.setQueue j s, ?_, valid', perm, rfl⟩
  simp only [LazyQueue.remove, not_lt.mpr (virtual_nonneg _ _), if_false, valid.queueIndex_virtual, half,
    removed, Option.bind_eq_bind, Option.bind_some, Option.pure_def]

/-- The queue `NewLazyQueue` builds before its `Refresh`. -/
theorem valid_reset (period : ℤ) (due : AbsTime) :
    ({ queue := ![newSstack true, newSstack true], popQueue := newSstack false, period, maxUntil := due
       indexOffset := 0, odd := ![false, true], reports := [] } : LazyQueue V).reset.Valid lo := by
  have none : ∀ j, (⟨(![newSstack true, newSstack true] : Fin 2 → Sstack V) j⟩ : Prque V).items = [] := by
    intro j
    fin_cases j <;> rfl
  refine ⟨fun j => ?_, fun j => ?_, fun j it mem => ?_, Prque.new_valid false, rfl, fun it mem => ?_, ?_, .inl rfl,
    fun j => ?_, ⟨fun j i v hi => ?_, fun v _ => .inl rfl⟩⟩
  · fin_cases j <;> exact Prque.new_valid true
  · fin_cases j <;> rfl
  · simp [items, reset, none j] at mem
  · simp [pending, reset, Prque.items, Sstack.flat, newSstack] at mem
  · simp [allValues, values, items, reset, pending, Prque.items, Sstack.flat, newSstack]
  · fin_cases j <;> rfl
  · fin_cases j <;> simp [reset, newSstack] at hi

section Estimates

variable {maxPriority : V → AbsTime → BitVec 64} (ranged : ∀ v t, InRange lo (maxPriority v t))
include ranged

/-- `Update` of the virtual index of the value at `i` in `queue[j]` takes it out and pushes it
again. -/
theorem Valid.update (valid : q.Valid lo) {j : Fin 2} {i : ℕ} {v : V} (inside : i < (q.queue j).size)
    (atI : (q.queue j).valueAt i = some v) :
    ∃ q', q.update maxPriority (virtual (q.odd j) i) = some q' ∧ q'.Valid lo ∧
      q'.allValues.Perm q.allValues ∧ q'.popQueue = q.popQueue := by
  obtain ⟨q1, removed, valid1, perm1, pop1⟩ := valid.remove inside atI
  have fresh := (List.nodup_cons.mp (perm1.nodup_iff.mpr valid.nodup)).1
  obtain ⟨valid2, perm2⟩ := valid1.push maxPriority fresh (ranged _ _)
  refine ⟨q1.push maxPriority v, ?_, valid2, perm2.trans perm1, pop1⟩
  simp only [LazyQueue.update, removed, Option.bind_eq_bind, Option.bind_some, Option.pure_def]

/-- The loop of `Refresh` moves every item of `queue[0]` through `Push`. -/
theorem Valid.refreshLoop {fuel : ℕ} (valid : q.Valid lo) (enough : (q.queue 0).size < fuel) :
    ∃ q', refreshLoop maxPriority fuel q = some q' ∧ q'.Valid lo ∧ q'.allValues.Perm q.allValues ∧
      q'.popQueue = q.popQueue := by
  induction fuel generalizing q with
  | zero => omega
  | succ fuel more =>
      by_cases has0 : (q.queue 0).len ≠ 0
      · -- the top of `queue[0]` goes back through `Push`
        obtain ⟨s, it, popped, -, size, valid1, -, perm1⟩ := valid.heapPop (j := 0) (Nat.pos_of_ne_zero has0)
        have fresh := (List.nodup_cons.mp (perm1.nodup_iff.mpr valid.nodup)).1
        obtain ⟨valid2, perm2⟩ := valid1.push maxPriority fresh (ranged _ _)
        have shrunk : (((q.setQueue 0 s).push maxPriority it.value).queue 0).size < fuel := by
          change s.size < fuel
          omega
        obtain ⟨q', loop, valid', perm', pop'⟩ := more valid2 shrunk
        refine ⟨q', ?_, valid', perm'.trans (perm2.trans perm1), pop'⟩
        simp only [LazyQueue.refreshLoop, has0, ne_eq, not_false_eq_true, if_true, popped,
          Option.bind_eq_bind, Option.bind_some]
        exact loop
      · exact ⟨q, by simp [LazyQueue.refreshLoop, has0], valid, List.Perm.refl _, rfl⟩

/-- `Refresh` keeps the lazy queue valid and its values. -/
theorem Valid.refresh (valid : q.Valid lo) (now : AbsTime) :
    ∃ q', q.refresh maxPriority now = some q' ∧ q'.Valid lo ∧ q'.allValues.Perm q.allValues ∧
      q'.popQueue = q.popQueue := by
  have timed : ({ q with maxUntil := now + q.period } : LazyQueue V).Valid lo :=
    ⟨valid.heap, valid.called, valid.estimates, valid.popHeap, valid.silent, valid.actuals, valid.nodup,
      valid.offset, valid.odd, ⟨valid.tracks.live, valid.tracks.gone⟩⟩
  obtain ⟨q1, loop, valid1, perm1, pop1⟩ := timed.refreshLoop ranged (Nat.lt_succ_self _)
  obtain ⟨valid2, perm2⟩ := valid1.swap (q1.maxUntil + q1.period)
  refine ⟨_, ?_, valid2, perm2.trans perm1, pop1⟩
  simp only [LazyQueue.refresh, Sstack.len, loop, Option.bind_eq_bind, Option.bind_some, Option.pure_def]

/-- `NewLazyQueue` builds an empty valid queue. -/
theorem valid_newLazyQueue (period : ℤ) (now : AbsTime) :
    ∃ q : LazyQueue V, newLazyQueue maxPriority period now = some q ∧ q.Valid lo ∧ q.allValues = [] ∧
      q.popQueue.size = 0 := by
  obtain ⟨q, refreshed, valid, perm, pop⟩ := (@valid_reset V _ lo period 0).refresh ranged now
  refine ⟨q, refreshed, valid, List.Perm.eq_nil (perm.trans ?_), by rw [pop]; rfl⟩
  simp [allValues, values, items, reset, pending, Prque.items, Sstack.flat, newSstack]

end Estimates

end Valid

end LazyQueue

end SimpleChain.Common
