import Mathlib
import SimpleChain.Prque.Prque

/-! # The lazy priority queue of common/prque

`LazyQueue` keeps its items in two `sstack`s ordered by an estimate of their priority, the
upper bound `maxPriority` gives until `maxUntil`; `Push` and `Update` always use `queue[1]`, and
`Refresh` moves `queue[0]` over into it and swaps the two.  `MultiPop` takes the item of highest
estimate into a third stack, `popQueue`, ordered by the actual priority at the time of the call,
and hands an item of `popQueue` to the callback once it beats every estimate left.

The stacks report index changes to `setIndex` through `setIndex0` and `setIndex1`, which send the
index `i` of the stack made with `setIndex0` to `2i` and of the other to `2i + 1`; `Remove` finds
the stack of a virtual index by its low bit and `indexOffset`, which `Refresh` flips as it swaps.

The stacks are those of `SimpleChain.Prque.Sstack`; which of `setIndex0`, `setIndex1` each one
calls travels with it in `odd`, and the calls that reach `setIndex` are kept, in order, in
`reports`.  The clock is read by the caller: `Refresh` and `MultiPop` take the time. -/
set_option autoImplicit false

namespace SimpleChain.Common

/-- `mclock.AbsTime`, in nanoseconds. -/
abbrev AbsTime := ℤ

/-- There are two queues; one named instance serves every queue literal. -/
instance queueCount : NeZero 2 := Nat.instNeZeroSucc

structure LazyQueue (V : Type) where
  queue : Fin 2 → Sstack V
  popQueue : Sstack V
  period : ℤ
  maxUntil : AbsTime
  indexOffset : ℤ
  /-- whether the stack at each queue calls `setIndex1` rather than `setIndex0` -/
  odd : Fin 2 → Bool
  /-- the calls made to `setIndex`, oldest first -/
  reports : List (V × ℤ)

namespace LazyQueue

variable {V : Type}

/-- `setIndex0` translates internal queue item index to the virtual index space of LazyQueue -/
def setIndex0 (data : V) (index : ℤ) : V × ℤ :=
  if index = -1 then (data, -1) else (data, index + index)

/-- `setIndex1` translates internal queue item index to the virtual index space of LazyQueue -/
def setIndex1 (data : V) (index : ℤ) : V × ℤ := (data, index + index + 1)

/-- The call a stack makes, as it reaches `setIndex`. -/
def translate (odd : Bool) (call : V × ℤ) : V × ℤ :=
  if odd then setIndex1 call.1 call.2 else setIndex0 call.1 call.2

/-- `queue[j]` becomes `s`, which the code reached from it; the calls made on the way reach
`setIndex` through the stack's translation. -/
def setQueue (q : LazyQueue V) (j : Fin 2) (s : Sstack V) : LazyQueue V :=
  { q with queue := Function.update q.queue j s
           reports := q.reports ++ (s.reports.drop (q.queue j).reports.length).map (translate (q.odd j)) }

/-- Reset clears the contents of the queue. -/
def reset (q : LazyQueue V) : LazyQueue V :=
  { q with queue := ![newSstack true, newSstack true], odd := ![false, true] }

/-- Empty checks whether the priority queue is empty. -/
def empty (q : LazyQueue V) : Bool := (q.queue 0).len == 0 && (q.queue 1).len == 0

/-- Size returns the number of items in the priority queue. -/
def size (q : LazyQueue V) : ℕ := (q.queue 0).len + (q.queue 1).len

/-- `q.queue[index&1^q.indexOffset]`; Go panics on an array index other than 0 and 1. -/
def queueIndex (q : LazyQueue V) (index : ℤ) : Option (Fin 2) :=
  let k := Int.xor (Int.land index 1) q.indexOffset
  if h : 0 ≤ k ∧ k < 2 then some ⟨k.toNat, by omega⟩ else none

/-- Remove removes the item with the given index, and returns its value; nil for a negative
index. -/
def remove (q : LazyQueue V) (index : ℤ) : Option (LazyQueue V × Option V) :=
  if index < 0 then some (q, none)
  else do
    let j ← q.queueIndex index
    let (s, x) ← GoHeap.remove Sstack.heap (q.queue j) (index >>> 1).toNat
    let it ← x
    pure (q.setQueue j s, some it.value)

/-- `peekIndex`: the queue whose top has the highest estimate, `none` for `-1` when both are
empty; Go dereferences `blocks[0][0]`. -/
def peekIndex (q : LazyQueue V) : Option (Option (Fin 2)) :=
  if (q.queue 0).len ≠ 0 then
    if (q.queue 1).len ≠ 0 then do
      let a ← (q.queue 1).slotAt 0 0
      let b ← (q.queue 0).slotAt 0 0
      pure (some (if b.priority.slt a.priority then 1 else 0))
    else pure (some 0)
  else pure (if (q.queue 1).len ≠ 0 then some 1 else none)

/-- The test of the inner loop of `MultiPop`: the top of `popQueue` beats the estimate at the
top of the queue `next`, or no queue is left. -/
def beats (q : LazyQueue V) (next : Option (Fin 2)) : Option Bool :=
  if q.popQueue.len ≠ 0 then
    match next with
    | none => pure true
    | some j => do
      let a ← (q.queue j).slotAt 0 0
      let b ← q.popQueue.slotAt 0 0
      pure (a.priority.slt b.priority)
  else pure false

section Callbacks

variable (priority maxPriority : V → AbsTime → BitVec 64)

/-- Push adds an item to the queue -/
def push (q : LazyQueue V) (data : V) : LazyQueue V :=
  q.setQueue 1 (GoHeap.push Sstack.heap (q.queue 1) (some ⟨data, maxPriority data q.maxUntil⟩))

/-- The loop of `Refresh`: each item of `queue[0]` goes back through `Push`. -/
def refreshLoop : ℕ → LazyQueue V → Option (LazyQueue V)
  | 0, _ => none
  | fuel + 1, q =>
    if (q.queue 0).len ≠ 0 then do
      let (s, x) ← GoHeap.pop Sstack.heap (q.queue 0)
      let it ← x
      refreshLoop fuel ((q.setQueue 0 s).push maxPriority it.value)
    else some q

/-- Refresh should be called at least with the frequency specified by the refreshPeriod
parameter. -/
def refresh (q : LazyQueue V) (now : AbsTime) : Option (LazyQueue V) := do
  let q := { q with maxUntil := now + q.period }
  let q ← refreshLoop maxPriority ((q.queue 0).len + 1) q
  pure { q with queue := ![q.queue 1, q.queue 0], odd := ![q.odd 1, q.odd 0]
                indexOffset := 1 - q.indexOffset, maxUntil := q.maxUntil + q.period }

/-- `NewLazyQueue` creates a new lazy queue -/
def newLazyQueue (period : ℤ) (now : AbsTime) : Option (LazyQueue V) :=
  ({ queue := ![newSstack true, newSstack true], popQueue := newSstack false, period, maxUntil := 0
     indexOffset := 0, odd := ![false, true], reports := [] } : LazyQueue V).reset.refresh maxPriority now

/-- Update updates the upper priority estimate for the item with the given queue index; the
nil that a negative index removes, Go pushes as an item, which is left out. -/
def update (q : LazyQueue V) (index : ℤ) : Option (LazyQueue V) := do
  let (q, data) ← q.remove index
  let v ← data
  pure (q.push maxPriority v)

/-- Pushing back what is left in `popQueue` when the callback declines. -/
def drainLoop : ℕ → LazyQueue V → Option (LazyQueue V)
  | 0, _ => none
  | fuel + 1, q =>
    if q.popQueue.len ≠ 0 then do
      let (s, x) ← GoHeap.pop Sstack.heap q.popQueue
      let it ← x
      drainLoop fuel ({ q with popQueue := s }.push maxPriority it.value)
    else some q

variable (callback : List (V × BitVec 64) → V → BitVec 64 → Bool)

/-- The inner loop of `MultiPop`: the items passed so far, and whether the callback declined.
The callback sees the items passed before. -/
def emitLoop (next : Option (Fin 2)) :
    ℕ → LazyQueue V → List (V × BitVec 64) → Option (LazyQueue V × List (V × BitVec 64) × Bool)
  | 0, _, _ => none
  | fuel + 1, q, passed => do
    if ← q.beats next then
      let (s, x) ← GoHeap.pop Sstack.heap q.popQueue
      let it ← x
      let q := { q with popQueue := s }
      if !callback passed it.value it.priority then
        let q ← drainLoop maxPriority (q.popQueue.len + 1) q
        pure (q, passed ++ [(it.value, it.priority)], true)
      else emitLoop next fuel q (passed ++ [(it.value, it.priority)])
    else pure (q, passed, false)

/-- The outer loop of `MultiPop`, from the queue `peekIndex` chose. -/
def multiPopLoop (now : AbsTime) :
    ℕ → LazyQueue V → List (V × BitVec 64) → Option (Fin 2) → Option (LazyQueue V × List (V × BitVec 64))
  | 0, _, _, _ => none
  | _ + 1, q, passed, none => pure (q, passed)
  | fuel + 1, q, passed, some j => do
    let (s, x) ← GoHeap.pop Sstack.heap (q.queue j)
    let it ← x
    let q := q.setQueue j s
    let q := { q with popQueue := GoHeap.push Sstack.heap q.popQueue (some ⟨it.value, priority it.value now⟩) }
    let next ← q.peekIndex
    let (q, passed, declined) ← emitLoop maxPriority callback next (q.popQueue.len + 1) q passed
    if declined then pure (q, passed) else multiPopLoop now fuel q passed next

/-- MultiPop pops multiple items from the queue, passing them to the callback, until the
callback returns false or no item is left; it returns the items passed, in order. -/
def multiPop (q : LazyQueue V) (now : AbsTime) : Option (LazyQueue V × List (V × BitVec 64)) := do
  let next ← q.peekIndex
  multiPopLoop priority maxPriority callback now (q.size + 1) q [] next

end Callbacks

section Pop

variable (priority maxPriority : V → AbsTime → BitVec 64)

/-- Pop removes and returns the item with the greatest actual priority. -/
def pop (q : LazyQueue V) (now : AbsTime) : Option (LazyQueue V × Option (V × BitVec 64)) := do
  let (q, passed) ← q.multiPop priority maxPriority (fun _ _ _ => false) now
  pure (q, passed.head?)

end Pop

end LazyQueue

/-! ## What a heap operation tells the callback

A heap operation on a stack only swaps elements below its size, then pushes or pops one: every
call it makes to the callback is about a value the stack held before or the value pushed. -/

namespace Sstack

variable {V : Type} {s t : Sstack V}

/-- `v` is in the stack, below its size. -/
def Holds (s : Sstack V) (v : V) : Prop := ∃ i < s.size, s.valueAt i = some v

theorem not_holds_iff {v : V} : ¬ s.Holds v ↔ ∀ i < s.size, s.valueAt i ≠ some v := by
  simp [Holds]

theorem mem_called {b : Bool} {y : Option (Item V)} {k : ℤ} {c : V × ℤ} (mem : c ∈ called b y k) :
    ∃ it, y = some it ∧ c = (it.value, k) := by
  unfold called at mem
  rcases y with _ | it <;> cases b <;> simp_all

/-- Since `s`, through swaps and a push of `x` or pops: the calls come after those `s` made, and
they, like the values held, are about values of `s` or `x`. -/
structure Since (s : Sstack V) (x : Option V) (t : Sstack V) : Prop where
  shaped : t.Shaped
  setIndex : t.setIndex = s.setIndex
  calls : ∃ calls, t.reports = s.reports ++ calls ∧ ∀ c ∈ calls, s.Holds c.1 ∨ x = some c.1
  holds : ∀ v, t.Holds v → s.Holds v ∨ x = some v

theorem Since.refl (shaped : s.Shaped) (x : Option V) : Since s x s :=
  ⟨shaped, rfl, ⟨[], by simp, by simp⟩, fun _ held => .inl held⟩

/-- A call about a value held, made after `t`. -/
theorem Since.extend {x : Option V} (since : Since s x t) {t' : Sstack V} (shaped : t'.Shaped)
    (setIndex : t'.setIndex = t.setIndex) (more : List (V × ℤ)) (reports : t'.reports = t.reports ++ more)
    (about : ∀ c ∈ more, t.Holds c.1 ∨ x = some c.1) (holds : ∀ v, t'.Holds v → t.Holds v ∨ x = some v) :
    Since s x t' := by
  obtain ⟨-, sameIndex, ⟨calls, earlier, old⟩, held⟩ := since
  refine ⟨shaped, setIndex.trans sameIndex, ⟨calls ++ more, by rw [reports, earlier, List.append_assoc], ?_⟩,
    fun v now => (holds v now).elim (held v) .inr⟩
  intro c mem
  rcases List.mem_append.mp mem with before | after
  · exact old c before
  · exact (about c after).elim (held c.1) .inr

theorem since_swapInvariant (s : Sstack V) (x : Option V) : GoHeap.SwapInvariant heap (Since s x) where
  len_swap := simulation.invariant.len_swap
  swap t i j hi hj since := by
    change Since s x (t.swap i j)
    obtain ⟨shaped, size, -, setIndex, reports⟩ := swap_spec since.shaped hi hj
    -- both calls are about the two values swapped, both held
    refine since.extend shaped setIndex _ (by rw [reports, List.append_assoc]) (fun c mem => ?_)
      (fun v ⟨k, hk, atK⟩ => ?_)
    · rcases List.mem_append.mp mem with first | second
      · obtain ⟨it, slot, rfl⟩ := mem_called first
        exact .inl ⟨j, hj, by simp [valueAt, slot]⟩
      · obtain ⟨it, slot, rfl⟩ := mem_called second
        exact .inl ⟨i, hi, by simp [valueAt, slot]⟩
    · rw [size] at hk
      rw [valueAt_swap since.shaped hi hj] at atK
      exact .inl ⟨_, swap_lt hi hj hk, atK⟩

theorem since_push (shaped : s.Shaped) (it : Item V) :
    Since s (some it.value) (GoHeap.push heap s (some it)) := by
  obtain ⟨pushed, size, -, setIndex, reports⟩ := push_spec (x := some it) shaped
  refine (since_swapInvariant s _).push ?_ size
  change Since s _ (s.push (some it))
  refine (Since.refl shaped _).extend pushed setIndex _ reports (fun c mem => ?_) (fun v ⟨k, hk, atK⟩ => ?_)
  · obtain ⟨it', same, rfl⟩ := mem_called mem
    cases same
    exact .inr rfl
  · rw [valueAt_push shaped] at atK
    split at atK
    · cases atK
      exact .inr rfl
    · exact .inl ⟨k, by simp only [size] at hk; omega, atK⟩

/-- What `Pop` after swaps keeps: the value it tells the callback of is held. -/
theorem since_pop {x : Option V} (t : Sstack V) (since : Since s x t) (nonempty : 0 < heap.len t) :
    Since s x (heap.pop t).1 := by
  change Since s x t.pop.1
  obtain ⟨popped, size, value, -, setIndex, reports⟩ := pop_spec since.shaped nonempty
  refine since.extend popped setIndex _ reports (fun c mem => ?_) (fun v ⟨k, hk, atK⟩ => ?_)
  · obtain ⟨it, slot, rfl⟩ := mem_called mem
    rw [value] at slot
    exact .inl ⟨t.size - 1, by simp only [heap_len] at nonempty; omega, by simp [valueAt, slot]⟩
  · rw [valueAt_pop since.shaped nonempty, if_neg (by rw [size] at hk; omega)] at atK
    exact .inl ⟨k, by rw [size] at hk; omega, atK⟩

theorem since_heapPop {x : Option (Item V)} (shaped : s.Shaped) (popped : GoHeap.pop heap s = some (t, x)) :
    Since s none t :=
  (since_swapInvariant s none).pop (fun t since => since_pop t since) (Since.refl shaped none) popped

theorem since_heapRemove {x : Option (Item V)} {i : ℕ} (shaped : s.Shaped)
    (removed : GoHeap.remove heap s i = some (t, x)) : Since s none t :=
  (since_swapInvariant s none).remove (fun t since => since_pop t since) (Since.refl shaped none) removed

end Sstack

/-! ## The virtual index -/

namespace Sstack

variable {V : Type} [DecidableEq V]

theorem foldl_last (rs : List (V × ℤ)) (v : V) (init : Option ℤ) :
    rs.foldl (fun last r => if r.1 = v then some r.2 else last) init = (lastIndex rs v).or init := by
  induction rs generalizing init with
  | nil => rfl
  | cons r rs more =>
      rw [List.foldl_cons, more]
      change _ = (List.foldl _ (if r.1 = v then some r.2 else none) rs).or init
      rw [more]
      split <;> simp

theorem lastIndex_cons (r : V × ℤ) (rs : List (V × ℤ)) (v : V) :
    lastIndex (r :: rs) v = (lastIndex rs v).or (if r.1 = v then some r.2 else none) :=
  foldl_last rs v _

theorem lastIndex_eq_none {rs : List (V × ℤ)} {v : V} : lastIndex rs v = none ↔ ∀ c ∈ rs, c.1 ≠ v := by
  induction rs with
  | nil => simp [lastIndex]
  | cons r rs more =>
      rw [lastIndex_cons]
      split <;> simp_all

theorem lastIndex_append (xs ys : List (V × ℤ)) (v : V) :
    lastIndex (xs ++ ys) v = (lastIndex ys v).or (lastIndex xs v) := by
  rw [lastIndex, List.foldl_append, foldl_last]
  rfl

end Sstack

namespace LazyQueue

variable {V : Type}

/-- The index `k` of a stack, as it reaches `setIndex`. -/
def virtual (odd : Bool) (k : ℤ) : ℤ := if odd then k + k + 1 else if k = -1 then -1 else k + k

theorem translate_eq (odd : Bool) (c : V × ℤ) : translate odd c = (c.1, virtual odd c.2) := by
  unfold translate virtual setIndex0 setIndex1
  cases odd
  · simp only [Bool.false_eq_true, if_false]
    split <;> simp_all
  · rfl

theorem virtual_minus_one (odd : Bool) : virtual odd (-1) = -1 := by
  cases odd <;> simp [virtual]

theorem virtual_nonneg (odd : Bool) (i : ℕ) : 0 ≤ virtual odd i := by
  have : (i : ℤ) ≠ -1 := by omega
  cases odd <;> simp only [virtual, this, if_false, if_true, Bool.false_eq_true] <;> omega

@[simp] theorem setQueue_queue (q : LazyQueue V) (j : Fin 2) (s : Sstack V) :
    (q.setQueue j s).queue = Function.update q.queue j s := rfl

@[simp] theorem setQueue_odd (q : LazyQueue V) (j : Fin 2) (s : Sstack V) : (q.setQueue j s).odd = q.odd := rfl

@[simp] theorem setQueue_indexOffset (q : LazyQueue V) (j : Fin 2) (s : Sstack V) :
    (q.setQueue j s).indexOffset = q.indexOffset := rfl

@[simp] theorem setQueue_popQueue (q : LazyQueue V) (j : Fin 2) (s : Sstack V) :
    (q.setQueue j s).popQueue = q.popQueue := rfl

@[simp] theorem setQueue_maxUntil (q : LazyQueue V) (j : Fin 2) (s : Sstack V) :
    (q.setQueue j s).maxUntil = q.maxUntil := rfl

theorem setQueue_reports (q : LazyQueue V) {j : Fin 2} {s : Sstack V} {calls : List (V × ℤ)}
    (reports : s.reports = (q.queue j).reports ++ calls) :
    (q.setQueue j s).reports = q.reports ++ calls.map (translate (q.odd j)) := by
  rw [setQueue, reports, List.drop_left]

section Tracking

variable [DecidableEq V]

open Sstack in
theorem lastIndex_translate (calls : List (V × ℤ)) (odd : Bool) (v : V) :
    lastIndex (calls.map (translate odd)) v = (lastIndex calls v).map (virtual odd) := by
  induction calls using List.reverseRecOn with
  | nil => rfl
  | append_singleton calls c more =>
      rw [List.map_append, lastIndex_append, lastIndex_append, more]
      simp only [List.map_cons, List.map_nil, translate_eq, lastIndex, List.foldl_cons, List.foldl_nil]
      split <;> simp

/-- The callback was last told each value's virtual index while the value is in a queue, and -1,
if anything, once it is in neither. -/
structure Tracks (q : LazyQueue V) : Prop where
  live : ∀ j i v, i < (q.queue j).size → (q.queue j).valueAt i = some v →
    Sstack.lastIndex q.reports v = some (virtual (q.odd j) i)
  gone : ∀ v, (∀ j, ¬ (q.queue j).Holds v) →
    Sstack.lastIndex q.reports v = none ∨ Sstack.lastIndex q.reports v = some (-1)

/-- A heap operation on one queue keeps the callback's knowledge, while no value is in both
queues and the value pushed, if any, stays. -/
theorem Tracks.setQueue {q : LazyQueue V} (tracks : q.Tracks) {j : Fin 2} {s : Sstack V} {x : Option V}
    (since : Sstack.Since (q.queue j) x s) (before : (q.queue j).Tracked) (after : s.Tracked)
    (called : (q.queue j).setIndex = true)
    (apart : ∀ k, k ≠ j → ∀ v, (q.queue k).Holds v → ¬ (q.queue j).Holds v ∧ ¬ s.Holds v)
    (stays : ∀ v, x = some v → s.Holds v) : (q.setQueue j s).Tracks := by
  obtain ⟨calls, reports, about⟩ := since.calls
  have on : s.setIndex = true := since.setIndex.trans called
  -- the last word on `v`: from this operation's calls, or else from before it
  have global : ∀ v, Sstack.lastIndex (q.setQueue j s).reports v =
      ((Sstack.lastIndex calls v).map (virtual (q.odd j))).or (Sstack.lastIndex q.reports v) := by
    intro v
    rw [setQueue_reports q reports, Sstack.lastIndex_append, lastIndex_translate]
  have own : ∀ v, Sstack.lastIndex s.reports v =
      (Sstack.lastIndex calls v).or (Sstack.lastIndex (q.queue j).reports v) := by
    intro v
    rw [reports, Sstack.lastIndex_append]
  -- a value of another queue is not among the calls
  have silent : ∀ k, k ≠ j → ∀ v, (q.queue k).Holds v → Sstack.lastIndex calls v = none := by
    intro k other v held
    by_contra named
    obtain ⟨c, mem, rfl⟩ : ∃ c ∈ calls, c.1 = v := by
      by_contra none
      exact named (Sstack.lastIndex_eq_none.mpr fun c mem same => none ⟨c, mem, same⟩)
    rcases about c mem with inJ | pushed
    · exact (apart k other _ held).1 inJ
    · exact (apart k other _ held).2 (stays _ pushed)
  refine ⟨fun k i v hi atI => ?_, fun v absent => ?_⟩
  · rw [global v]
    by_cases same : k = j
    · subst same
      simp only [setQueue_queue, Function.update_self] at hi atI
      have last := after.live on i hi v atI
      rw [own v] at last
      cases named : Sstack.lastIndex calls v with
      | some m =>
          rw [named, Option.some_or] at last
          cases last
          rfl
      | none =>
          rw [named, Option.none_or] at last
          -- the value sat at `i` before the operation too
          obtain ⟨i', hi', atI'⟩ : (q.queue k).Holds v := by
            by_contra absent
            rcases before.gone v (Sstack.not_holds_iff.mp absent) with none | minus
            · rw [last] at none; cases none
            · rw [last] at minus; cases minus
          have earlier := before.live called i' hi' v atI'
          rw [last, Option.some.injEq, Nat.cast_inj] at earlier
          subst earlier
          rw [Option.map_none, Option.none_or]
          exact tracks.live k i v hi' atI'
    · simp only [setQueue_queue, Function.update_of_ne same] at hi atI
      rw [silent k same v ⟨i, hi, atI⟩, Option.map_none, Option.none_or]
      exact tracks.live k i v hi atI
  · have notS : ¬ s.Holds v := by simpa using absent j
    rw [global v]
    cases named : Sstack.lastIndex calls v with
    | some m =>
        -- the last call about a value that left is its -1
        rcases after.gone v (Sstack.not_holds_iff.mp notS) with none | minus
        · rw [own v, named, Option.some_or] at none; cases none
        · rw [own v, named, Option.some_or, Option.some.injEq] at minus
          rw [minus, Option.map_some, virtual_minus_one, Option.some_or]
          exact .inr rfl
    | none =>
        rw [Option.map_none, Option.none_or]
        refine tracks.gone v fun k held => ?_
        by_cases same : k = j
        · subst same
          obtain ⟨i, hi, atI⟩ := held
          have last := before.live called i hi v atI
          rcases after.gone v (Sstack.not_holds_iff.mp notS) with none | minus
          · rw [own v, named, Option.none_or, last] at none; cases none
          · rw [own v, named, Option.none_or, last] at minus
            simp at minus
        · exact absent k (by simpa [Function.update_of_ne same] using held)

end Tracking

end LazyQueue

end SimpleChain.Common
