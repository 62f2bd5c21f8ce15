import Mathlib
import SimpleChain.Prque.LazyQueueValid

/-! # `MultiPop` passes items in order of their actual priority

Between two calls of the callback `MultiPop` keeps `Ordered`: the estimates in the queues bound
the actual priorities from above, `popQueue` holds actual priorities, and what the callback was
passed so far is in non-increasing order and above everything left.  An item leaves `popQueue`
only when it beats the highest estimate left, which is where the order comes from; when the
callback declines, the rest of `popQueue` goes back through `Push`. -/
set_option autoImplicit false

namespace SimpleChain.Common

namespace LazyQueue

variable {V : Type} {lo : ℤ} {q : LazyQueue V}

/-- The callback returned true for each item it was passed, given the items passed before. -/
inductive Accepted (callback : List (V × BitVec 64) → V → BitVec 64 → Bool) : List (V × BitVec 64) → Prop
  | nil : Accepted callback []
  | snoc {passed : List (V × BitVec 64)} {a : V × BitVec 64} :
      Accepted callback passed → callback passed a.1 a.2 = true → Accepted callback (passed ++ [a])

theorem mem_allValues {v : V} :
    v ∈ q.allValues ↔ (∃ k, ∃ it ∈ q.items k, it.value = v) ∨ ∃ it ∈ q.pending, it.value = v := by
  simp [allValues, values, Fin.exists_fin_two, or_assoc]

theorem items_setQueue_subset {j : Fin 2} {s : Sstack V} (sub : (⟨s⟩ : Prque V).items ⊆ q.items j) (k : Fin 2) :
    (q.setQueue j s).items k ⊆ q.items k := by
  by_cases same : k = j
  · subst same
    rw [items_setQueue_self]
    exact sub
  · rw [items_setQueue_ne _ _ same]
    exact List.Subset.refl _

theorem allValues_of_idle (idle : q.popQueue.size = 0) : q.allValues = q.values := by
  simp [allValues, pending, items_eq_nil idle]

theorem size_setQueue (q : LazyQueue V) (j : Fin 2) (s : Sstack V) :
    (q.setQueue j s).size + (q.queue j).size = q.size + s.size := by
  fin_cases j <;> simp [size, Sstack.len] <;> omega

/-- Passing `a` moves its value out of the queue and onto the list passed. -/
theorem perm_pass {xs ys : List V} (passed : List (V × BitVec 64)) {a : V × BitVec 64} (perm : (a.1 :: xs).Perm ys) :
    (xs ++ (passed ++ [a]).map Prod.fst).Perm (ys ++ passed.map Prod.fst) := by
  rw [List.map_append, List.map_singleton, ← List.append_assoc]
  exact (List.perm_append_singleton _ _).trans (perm.append_right _)

section Order

variable (priority : V → AbsTime → BitVec 64) (now : AbsTime)

/-- What the callback saw at `now`: actual priorities, in non-increasing order, none below the
actual priority of a value left in `q`. -/
structure Outcome (q : LazyQueue V) (passed : List (V × BitVec 64)) : Prop where
  actual : ∀ a ∈ passed, a.2 = priority a.1 now
  sorted : passed.Pairwise fun a b => b.2.toInt ≤ a.2.toInt
  above : ∀ a ∈ passed, ∀ v ∈ q.allValues, (priority v now).toInt ≤ a.2.toInt

/-- What `MultiPop` keeps between calls of the callback: the outcome so far, estimates that bound
the actual priorities, and actual priorities in `popQueue`. -/
structure Ordered (q : LazyQueue V) (passed : List (V × BitVec 64)) : Prop extends Outcome priority now q passed where
  sound : ∀ j, ∀ it ∈ q.items j, (priority it.value now).toInt ≤ it.priority.toInt
  pending : ∀ it ∈ q.pending, it.priority = priority it.value now

variable {priority now}

theorem Outcome.perm {q' : LazyQueue V} {passed : List (V × BitVec 64)} (outcome : Outcome priority now q passed)
    (perm : q'.allValues.Perm q.allValues) : Outcome priority now q' passed :=
  ⟨outcome.actual, outcome.sorted, fun a mem v held => outcome.above a mem v (perm.subset held)⟩

/-- An item moves from a queue into `popQueue` with its actual priority. -/
theorem Ordered.shift {q' : LazyQueue V} {passed : List (V × BitVec 64)} (ordered : Ordered priority now q passed)
    {v : V} (values : q'.allValues ⊆ q.allValues) (pending : q'.pending ⊆ ⟨v, priority v now⟩ :: q.pending)
    (items : ∀ k, q'.items k ⊆ q.items k) : Ordered priority now q' passed where
  actual := ordered.actual
  sorted := ordered.sorted
  above a mem w held := ordered.above a mem w (values held)
  sound k it mem := ordered.sound k it (items k mem)
  pending it mem := by
    rcases List.mem_cons.mp (pending mem) with rfl | old
    · rfl
    · exact ordered.pending it old

/-- The top of `popQueue`, above every estimate left, is passed. -/
theorem Ordered.emit {q' : LazyQueue V} {passed : List (V × BitVec 64)} (ordered : Ordered priority now q passed)
    (ranged : ∀ it ∈ q.pending, InRange lo it.priority) {t : Item V} (top : Prque.Top ⟨q.popQueue⟩ t)
    (beats : ∀ k, ∀ it ∈ q.items k, it.priority.toInt < t.priority.toInt) (items : ∀ k, q'.items k ⊆ q.items k)
    (pending : q'.pending ⊆ q.pending) (values : q'.allValues ⊆ q.allValues) :
    Ordered priority now q' (passed ++ [(t.value, t.priority)]) := by
  have actualT : t.priority = priority t.value now := ordered.pending t top.1
  -- everything left is at most `t`: estimates lie below it, and `popQueue` holds nothing above it
  have below : ∀ v ∈ q'.allValues, (priority v now).toInt ≤ t.priority.toInt := by
    intro v held
    rcases mem_allValues.mp held with ⟨k, it, mem, rfl⟩ | ⟨it, mem, rfl⟩
    · exact (ordered.sound k it (items k mem)).trans (beats k it (items k mem)).le
    · rw [← ordered.pending it (pending mem)]
      exact le_of_top top ranged it (pending mem)
  refine ⟨⟨fun a mem => ?_, ?_, fun a mem v held => ?_⟩, fun k it mem => ordered.sound k it (items k mem),
    fun it mem => ordered.pending it (pending mem)⟩
  · rcases List.mem_append.mp mem with old | new
    · exact ordered.actual a old
    · rw [List.mem_singleton.mp new]
      exact actualT
  · refine List.pairwise_append.mpr ⟨ordered.sorted, List.pairwise_singleton _ _, fun a old b new => ?_⟩
    rw [List.mem_singleton.mp new, actualT]
    exact ordered.above a old t.value (mem_allValues.mpr (.inr ⟨t, top.1, rfl⟩))
  · rcases List.mem_append.mp mem with old | new
    · exact ordered.above a old v (values held)
    · rw [List.mem_singleton.mp new]
      exact below v held

end Order

section Loops

variable [DecidableEq V] {maxPriority : V → AbsTime → BitVec 64} (ranged : ∀ v t, InRange lo (maxPriority v t))
include ranged

/-- Pushing back what is left in `popQueue`. -/
theorem Valid.drainLoop {fuel : ℕ} (valid : q.Valid lo) (enough : q.popQueue.size < fuel) :
    ∃ q', drainLoop maxPriority fuel q = some q' ∧ q'.Valid lo ∧ q'.allValues.Perm q.allValues ∧
      q'.popQueue.size = 0 := by
  induction fuel generalizing q with
  | zero => omega
  | succ fuel more =>
      by_cases waiting : q.popQueue.len ≠ 0
      · obtain ⟨s, it, popped, -, -, size, valid1, -, perm1⟩ := valid.popPending (Nat.pos_of_ne_zero waiting)
        have fresh := (List.nodup_cons.mp (perm1.nodup_iff.mpr valid.nodup)).1
        obtain ⟨valid2, perm2⟩ := valid1.push maxPriority fresh (ranged _ _)
        obtain ⟨q', loop, valid', perm', idle⟩ := more valid2 (by change s.size < fuel; omega)
        refine ⟨q', ?_, valid', perm'.trans (perm2.trans perm1), idle⟩
        simp only [LazyQueue.drainLoop, waiting, ne_eq, not_false_eq_true, if_true, popped,
          Option.bind_eq_bind, Option.bind_some]
        exact loop
      · exact ⟨q, by simp [LazyQueue.drainLoop, waiting], valid, List.Perm.refl _, by simpa [Sstack.len] using waiting⟩

variable (priority : V → AbsTime → BitVec 64) (now : AbsTime)
  (callback : List (V × BitVec 64) → V → BitVec 64 → Bool)

/-- The inner loop of `MultiPop`.  While the callback accepts, only `popQueue` changes; once it
declines, `popQueue` is empty again. -/
theorem Valid.emitLoop {fuel : ℕ} {next : Option (Fin 2)} {passed : List (V × BitVec 64)} (valid : q.Valid lo)
    (peek : q.peekIndex = some next) (enough : q.popQueue.size < fuel) (accepted : Accepted callback passed) :
    ∃ q' passed' declined, emitLoop maxPriority callback next fuel q passed = some (q', passed', declined) ∧
      q'.Valid lo ∧ (q'.allValues ++ passed'.map Prod.fst).Perm (q.allValues ++ passed.map Prod.fst) ∧
      (declined = false → q' = { q with popQueue := q'.popQueue } ∧ Accepted callback passed' ∧
        (next = none → q'.popQueue.size = 0)) ∧
      (declined = true → q'.popQueue.size = 0 ∧
        ∃ pre a, passed' = pre ++ [a] ∧ Accepted callback pre ∧ callback pre a.1 a.2 = false) ∧
      (Ordered priority now q passed →
        Outcome priority now q' passed' ∧ (declined = false → Ordered priority now q' passed')) := by
  induction fuel generalizing q passed with
  | zero => omega
  | succ fuel more =>
      obtain ⟨b, beats, won, lost⟩ := valid.beats peek
      cases b with
      | false =>
          refine ⟨q, passed, false, by simp [LazyQueue.emitLoop, beats], valid, List.Perm.refl _,
            fun _ => ⟨rfl, accepted, lost rfl⟩, by simp, fun ordered => ⟨ordered.toOutcome, fun _ => ordered⟩⟩
      | true =>
          obtain ⟨nonempty, t, root, above⟩ := won rfl
          obtain ⟨s, it, popped, root', top, size, valid1, pendingPerm, perm1⟩ := valid.popPending nonempty
          rw [root, Option.some.injEq] at root'
          subst root'
          have ordered1 : Ordered priority now q passed →
              Ordered priority now { q with popQueue := s } (passed ++ [(t.value, t.priority)]) := fun ordered =>
            ordered.emit valid.actuals top above (fun _ _ mem => mem)
              (fun _ mem => pendingPerm.subset (List.mem_cons_of_mem _ mem))
              (fun _ mem => perm1.subset (List.mem_cons_of_mem _ mem))
          by_cases declines : callback passed t.value t.priority = false
          · -- the rest of `popQueue` goes back, and `MultiPop` returns
            obtain ⟨q', drained, valid', perm', idle⟩ := valid1.drainLoop ranged (Nat.lt_succ_self _)
            have drained' : LazyQueue.drainLoop maxPriority (s.len + 1) { q with popQueue := s } = some q' := drained
            refine ⟨q', passed ++ [(t.value, t.priority)], true, ?_, valid',
              (perm'.append_right _).trans (perm_pass passed perm1), by simp,
              fun _ => ⟨idle, passed, _, rfl, accepted, declines⟩,
              fun ordered => ⟨(ordered1 ordered).toOutcome.perm perm', by simp⟩⟩
            simp only [LazyQueue.emitLoop, beats, popped, declines, Option.bind_eq_bind, Option.bind_some,
              Bool.not_false, if_true, drained', Option.bind_some, Option.pure_def]
          · have accepts : callback passed t.value t.priority = true := by simpa using declines
            obtain ⟨q', passed', declined, loop, valid', perm', kept, stopped, order⟩ :=
              more valid1 peek (by change s.size < fuel; omega) (Accepted.snoc (a := (t.value, t.priority)) accepted accepts)
            refine ⟨q', passed', declined, ?_, valid', perm'.trans (perm_pass passed perm1), kept, stopped,
              fun ordered => order (ordered1 ordered)⟩
            simp only [LazyQueue.emitLoop, beats, popped, accepts, Option.bind_eq_bind, Option.bind_some,
              Bool.not_true, if_true, Bool.false_eq_true, if_false]
            exact loop

/-- The outer loop of `MultiPop`, from the queue `peekIndex` chose: each round moves the top of
the queue of highest estimate into `popQueue`, then runs the inner loop. -/
theorem Valid.multiPopLoop {fuel : ℕ} {next : Option (Fin 2)} {passed : List (V × BitVec 64)}
    (actuals : ∀ v t, InRange lo (priority v t)) (valid : q.Valid lo) (peek : q.peekIndex = some next)
    (idle : next = none → q.popQueue.size = 0) (enough : q.size < fuel) (accepted : Accepted callback passed) :
    ∃ q' passed', multiPopLoop priority maxPriority callback now fuel q passed next = some (q', passed') ∧
      q'.Valid lo ∧ q'.popQueue.size = 0 ∧
      (q'.allValues ++ passed'.map Prod.fst).Perm (q.allValues ++ passed.map Prod.fst) ∧
      (q'.values = [] ∧ Accepted callback passed' ∨
        ∃ pre a, passed' = pre ++ [a] ∧ Accepted callback pre ∧ callback pre a.1 a.2 = false) ∧
      (Ordered priority now q passed → Outcome priority now q' passed') := by
  induction fuel generalizing q passed next with
  | zero => omega
  | succ fuel more =>
      obtain ⟨next', peek', none', some'⟩ := valid.peekIndex
      rw [peek, Option.some.injEq] at peek'
      subst peek'
      cases next with
      | none =>
          exact ⟨q, passed, by simp [LazyQueue.multiPopLoop], valid, idle rfl, List.Perm.refl _,
            .inl ⟨none' rfl, accepted⟩, fun ordered => ordered.toOutcome⟩
      | some j =>
          obtain ⟨top, nonempty, -, -⟩ := some' j rfl
          -- the top of `queue[j]` moves into `popQueue` with its actual priority
          obtain ⟨s, it, popped, -, size1, valid1, itemsPerm1, perm1⟩ := valid.heapPop nonempty
          have fresh := (List.nodup_cons.mp (perm1.nodup_iff.mpr valid.nodup)).1
          obtain ⟨valid2, pendingPerm2, perm2⟩ :=
            valid1.pushPending (x := ⟨it.value, priority it.value now⟩) fresh (actuals _ _)
          have moved := perm2.trans perm1
          have ordered2 := fun ordered : Ordered priority now q passed =>
            ordered.shift moved.subset pendingPerm2.subset
              (items_setQueue_subset fun _ mem => itemsPerm1.subset (List.mem_cons_of_mem _ mem))
          obtain ⟨next2, peek2, -, -⟩ := valid2.peekIndex
          obtain ⟨q3, passed3, declined, emitted, valid3, perm3, kept, stopped, order3⟩ :=
            valid2.emitLoop ranged priority now callback peek2 (Nat.lt_succ_self _ : _ < Sstack.len _ + 1) accepted
          cases declined with
          | true =>
              refine ⟨q3, passed3, ?_, valid3, (stopped rfl).1, perm3.trans (moved.append_right _), .inr (stopped rfl).2,
                fun ordered => (order3 (ordered2 ordered)).1⟩
              simp only [LazyQueue.multiPopLoop, popped, Option.bind_eq_bind, Option.bind_some, peek2, emitted,
                if_true, Option.pure_def]
          | false =>
              obtain ⟨frame, accepted3, idle3⟩ := kept rfl
              have peek3 : q3.peekIndex = some next2 := by
                rw [frame]
                exact peek2
              have size3 : q3.size < fuel := by
                have := size_setQueue q j s
                rw [frame]
                change (q.setQueue j s).size < fuel
                omega
              obtain ⟨q', passed', loop, valid', idle', perm', ends, order'⟩ := more valid3 peek3 idle3 size3 accepted3
              refine ⟨q', passed', ?_, valid', idle', perm'.trans (perm3.trans (moved.append_right _)), ends,
                fun ordered => order' ((order3 (ordered2 ordered)).2 rfl)⟩
              simp only [LazyQueue.multiPopLoop, popped, Option.bind_eq_bind, Option.bind_some, peek2, emitted,
                Bool.false_eq_true, if_false]
              exact loop

/-- `MultiPop` from a queue with `popQueue` empty: it returns, with `popQueue` empty again, the
values left and those passed making up those there were, having passed items until the callback
declined one or none was left; and if every estimate bounded the actual priority at `now`, in
order of actual priority, none below a value left. -/
theorem Valid.multiPop (actuals : ∀ v t, InRange lo (priority v t)) (valid : q.Valid lo)
    (idle : q.popQueue.size = 0) :
    ∃ q' passed, q.multiPop priority maxPriority callback now = some (q', passed) ∧ q'.Valid lo ∧
      q'.popQueue.size = 0 ∧ (q'.values ++ passed.map Prod.fst).Perm q.values ∧
      (q'.values = [] ∧ Accepted callback passed ∨
        ∃ pre a, passed = pre ++ [a] ∧ Accepted callback pre ∧ callback pre a.1 a.2 = false) ∧
      ((∀ j, ∀ it ∈ q.items j, (priority it.value now).toInt ≤ it.priority.toInt) →
        Outcome priority now q' passed) := by
  obtain ⟨next, peek, -, -⟩ := valid.peekIndex
  obtain ⟨q', passed, loop, valid', idle', perm, ends, order⟩ :=
    valid.multiPopLoop ranged priority now callback actuals peek (fun _ => idle) (Nat.lt_succ_self _) .nil
  refine ⟨q', passed, by simp only [LazyQueue.multiPop, peek, Option.bind_eq_bind, Option.bind_some]; exact loop,
    valid', idle', ?_, ends, fun sound => order ⟨⟨by simp, by simp, by simp⟩, sound, fun it mem => ?_⟩⟩
  · simpa [allValues_of_idle idle', allValues_of_idle idle] using perm
  · simp [pending, items_eq_nil idle] at mem

end Loops

/-! ## Every interleaving of the public methods -/

section Reachable

variable [DecidableEq V] (priority maxPriority : V → AbsTime → BitVec 64)

/-- The queues a user reaches from `NewLazyQueue` by `Push` of a value not in the queue, `Remove`
of a negative index or of the index the callback was last given for a value in the queue, `Update`
of such an index, `Refresh` and `MultiPop`. -/
inductive Reachable : LazyQueue V → Prop
  | new {period now : ℤ} {q : LazyQueue V} : newLazyQueue maxPriority period now = some q → Reachable q
  | push {q : LazyQueue V} {v : V} : Reachable q → v ∉ q.values → Reachable (q.push maxPriority v)
  | remove {q q' : LazyQueue V} {index : ℤ} {x : Option V} : Reachable q →
      (index < 0 ∨ ∃ v ∈ q.values, Sstack.lastIndex q.reports v = some index) →
      q.remove index = some (q', x) → Reachable q'
  | update {q q' : LazyQueue V} {index : ℤ} : Reachable q →
      (∃ v ∈ q.values, Sstack.lastIndex q.reports v = some index) → q.update maxPriority index = some q' →
      Reachable q'
  | refresh {q q' : LazyQueue V} {now : AbsTime} : Reachable q → q.refresh maxPriority now = some q' → Reachable q'
  | multiPop {q q' : LazyQueue V} {callback : List (V × BitVec 64) → V → BitVec 64 → Bool} {now : AbsTime}
      {passed : List (V × BitVec 64)} : Reachable q → q.multiPop priority maxPriority callback now = some (q', passed) →
      Reachable q'

variable {priority maxPriority}

/-- A value in the queue sits where the index the callback was last given for it says. -/
theorem Valid.located (valid : q.Valid lo) {v : V} (held : v ∈ q.values) :
    ∃ j i, i < (q.queue j).size ∧ (q.queue j).valueAt i = some v ∧
      Sstack.lastIndex q.reports v = some (virtual (q.odd j) i) := by
  obtain ⟨j, mem⟩ : ∃ j, v ∈ (q.items j).map Item.value := by
    rcases List.mem_append.mp held with first | second
    exacts [⟨0, first⟩, ⟨1, second⟩]
  obtain ⟨i, hi, atI⟩ := holds_iff.mpr mem
  exact ⟨j, i, hi, atI, valid.tracks.live j i v hi atI⟩

/-- Every reachable queue is valid, with `popQueue` empty. -/
theorem Reachable.valid (ranged : ∀ v t, InRange lo (priority v t) ∧ InRange lo (maxPriority v t))
    (reached : Reachable priority maxPriority q) : q.Valid lo ∧ q.popQueue.size = 0 := by
  have estimates : ∀ v t, InRange lo (maxPriority v t) := fun v t => (ranged v t).2
  induction reached with
  | new made =>
      obtain ⟨q', made', valid, -, idle⟩ := valid_newLazyQueue estimates _ _
      rw [made, Option.some.injEq] at made'
      subst made'
      exact ⟨valid, idle⟩
  | push _ fresh holds =>
      obtain ⟨valid, idle⟩ := holds
      exact ⟨(valid.push _ (by rwa [allValues_of_idle idle]) (estimates _ _)).1, idle⟩
  | remove _ allowed removed holds =>
      obtain ⟨valid, idle⟩ := holds
      rcases allowed with negative | ⟨v, held, last⟩
      · -- a negative index leaves the queue as it is
        simp only [LazyQueue.remove, negative, if_true, Option.some.injEq, Prod.mk.injEq] at removed
        obtain ⟨rfl, -⟩ := removed
        exact ⟨valid, idle⟩
      · obtain ⟨j, i, hi, atI, located⟩ := valid.located held
        rw [located, Option.some.injEq] at last
        subst last
        obtain ⟨q'', removed', valid', -, pop'⟩ := valid.remove hi atI
        rw [removed', Option.some.injEq, Prod.mk.injEq] at removed
        obtain ⟨rfl, -⟩ := removed
        exact ⟨valid', pop' ▸ idle⟩
  | update _ allowed updated holds =>
      obtain ⟨valid, idle⟩ := holds
      obtain ⟨v, held, last⟩ := allowed
      obtain ⟨j, i, hi, atI, located⟩ := valid.located held
      rw [located, Option.some.injEq] at last
      subst last
      obtain ⟨q'', updated', valid', -, pop'⟩ := valid.update estimates hi atI
      rw [updated', Option.some.injEq] at updated
      subst updated
      exact ⟨valid', pop' ▸ idle⟩
  | refresh _ refreshed holds =>
      obtain ⟨valid, idle⟩ := holds
      obtain ⟨q'', refreshed', valid', -, pop'⟩ := valid.refresh estimates _
      rw [refreshed', Option.some.injEq] at refreshed
      subst refreshed
      exact ⟨valid', pop' ▸ idle⟩
  | multiPop _ popped holds =>
      obtain ⟨valid, idle⟩ := holds
      obtain ⟨q'', passed', popped', valid', idle', -⟩ :=
        valid.multiPop estimates priority _ _ (fun v t => (ranged v t).1) idle
      rw [popped', Option.some.injEq, Prod.mk.injEq] at popped
      obtain ⟨rfl, -⟩ := popped
      exact ⟨valid', idle'⟩

/-- From any queue reached through `Push`, `Remove`, `Update`, `Refresh` and `MultiPop`, with every
priority and estimate in a signed window of `2^63` values: when every estimate bounds its item's
actual priority at `now`, `MultiPop` returns having passed items with their actual priority, in
non-increasing order, each once, none below a value left; the queue keeps exactly the values not
passed, and the callback accepted every item but perhaps the last, which it declined, or the queue
is empty.  And the index the callback was last given for a value in the queue makes `Remove` take
that value, and `Update` push it again. -/
theorem multiPop_passes_in_priority_order_and_indexes_locate
    (priority maxPriority : V → AbsTime → BitVec 64) (lo : ℤ)
    (ranged : ∀ v t, InRange lo (priority v t) ∧ InRange lo (maxPriority v t))
    (reached : Reachable priority maxPriority q) :
    (∀ callback now, (∀ j, ∀ it ∈ q.items j, (priority it.value now).toInt ≤ it.priority.toInt) →
      ∃ q' passed, q.multiPop priority maxPriority callback now = some (q', passed) ∧
        (∀ a ∈ passed, a.2 = priority a.1 now) ∧ passed.Pairwise (fun a b => b.2.toInt ≤ a.2.toInt) ∧
        (passed.map Prod.fst).Nodup ∧ (∀ a ∈ passed, ∀ v ∈ q'.values, (priority v now).toInt ≤ a.2.toInt) ∧
        (q'.values ++ passed.map Prod.fst).Perm q.values ∧
        (q'.values = [] ∧ Accepted callback passed ∨
          ∃ pre a, passed = pre ++ [a] ∧ Accepted callback pre ∧ callback pre a.1 a.2 = false)) ∧
    ∀ v ∈ q.values, ∃ index, Sstack.lastIndex q.reports v = some index ∧
      (∃ q', q.remove index = some (q', some v) ∧ (v :: q'.values).Perm q.values) ∧
      ∃ q', q.update maxPriority index = some q' ∧ q'.values.Perm q.values := by
  obtain ⟨valid, idle⟩ := reached.valid ranged
  have estimates : ∀ v t, InRange lo (maxPriority v t) := fun v t => (ranged v t).2
  refine ⟨fun callback now sound => ?_, fun v held => ?_⟩
  · obtain ⟨q', passed, popped, -, idle', perm, ends, order⟩ :=
      valid.multiPop estimates priority now callback (fun v t => (ranged v t).1) idle
    obtain ⟨actual, sorted, above⟩ := order sound
    have nodup : (q'.values ++ passed.map Prod.fst).Nodup :=
      perm.nodup_iff.mpr (allValues_of_idle idle ▸ valid.nodup)
    refine ⟨q', passed, popped, actual, sorted, (List.nodup_append.mp nodup).2.1,
      fun a mem v left => above a mem v (by rwa [allValues_of_idle idle']), perm, ends⟩
  · obtain ⟨j, i, hi, atI, last⟩ := valid.located held
    obtain ⟨q1, removed, -, perm1, pop1⟩ := valid.remove hi atI
    obtain ⟨q2, updated, -, perm2, pop2⟩ := valid.update estimates hi atI
    have idle1 : q1.popQueue.size = 0 := by rw [pop1]; exact idle
    have idle2 : q2.popQueue.size = 0 := by rw [pop2]; exact idle
    refine ⟨_, last, ⟨q1, removed, ?_⟩, q2, updated, ?_⟩
    · rwa [allValues_of_idle idle1, allValues_of_idle idle] at perm1
    · rwa [allValues_of_idle idle2, allValues_of_idle idle] at perm2

/-- The actual priorities of three values, and the estimates `maxPriority` gives for them. -/
def actualOf (v : Fin 3) (_ : AbsTime) : BitVec 64 := ![3, 9, 6] v

def estimateOf (v : Fin 3) (_ : AbsTime) : BitVec 64 := ![4, 9, 8] v

theorem three_values_ranged (v : Fin 3) (t : AbsTime) : InRange 0 (actualOf v t) ∧ InRange 0 (estimateOf v t) := by
  unfold actualOf estimateOf
  fin_cases v <;> decide

/-- `Push(0)`, `Refresh`, `Push(1)`, `Push(2)` from `NewLazyQueue`: value 0 waits in one stack with
its estimate 4, values 1 and 2 in the other with 9 and 8.  A callback that takes one item is
passed value 1, then value 2, which it declines; `Pop` takes value 1. -/
theorem three_values_reachable : ∃ q : LazyQueue (Fin 3), Reachable actualOf estimateOf q ∧
    q.values = [0, 1, 2] ∧ (∀ j, ∀ it ∈ q.items j, (actualOf it.value 0).toInt ≤ it.priority.toInt) ∧
    (q.multiPop actualOf estimateOf (fun pre _ _ => pre.isEmpty) 0).map (fun r => (r.2, r.1.values)) =
      some ([(1, 9), (2, 6)], [0]) ∧
    (q.pop actualOf estimateOf 0).map (fun r => (r.2, r.1.values)) = some (some (1, 9), [0, 2]) := by
  refine ⟨((((((newLazyQueue estimateOf 1 0).get (by decide +kernel)).push estimateOf 0).refresh estimateOf 0).get
    (by decide +kernel)).push estimateOf 1).push estimateOf 2, ?_, by decide +kernel, by decide +kernel,
    by decide +kernel, by decide +kernel⟩
  exact .push (.push (.refresh (.push (.new (Option.some_get _).symm) (by decide +kernel)) (Option.some_get _).symm)
    (by decide +kernel)) (by decide +kernel)

theorem multiPop_passes_in_priority_order_and_indexes_locate_of_three_values :
    ∃ q : LazyQueue (Fin 3), Reachable actualOf estimateOf q ∧
      (∀ j, ∀ it ∈ q.items j, (actualOf it.value 0).toInt ≤ it.priority.toInt) ∧
      (q.multiPop actualOf estimateOf (fun pre _ _ => pre.isEmpty) 0).map (fun r => (r.2, r.1.values)) =
        some ([(1, 9), (2, 6)], [0]) ∧
      (∀ callback now, (∀ j, ∀ it ∈ q.items j, (actualOf it.value now).toInt ≤ it.priority.toInt) →
        ∃ q' passed, q.multiPop actualOf estimateOf callback now = some (q', passed) ∧
          (∀ a ∈ passed, a.2 = actualOf a.1 now) ∧ passed.Pairwise (fun a b => b.2.toInt ≤ a.2.toInt) ∧
          (passed.map Prod.fst).Nodup ∧ (∀ a ∈ passed, ∀ v ∈ q'.values, (actualOf v now).toInt ≤ a.2.toInt) ∧
          (q'.values ++ passed.map Prod.fst).Perm q.values ∧
          (q'.values = [] ∧ Accepted callback passed ∨
            ∃ pre a, passed = pre ++ [a] ∧ Accepted callback pre ∧ callback pre a.1 a.2 = false)) ∧
      ∀ v ∈ q.values, ∃ index, Sstack.lastIndex q.reports v = some index ∧
        (∃ q', q.remove index = some (q', some v) ∧ (v :: q'.values).Perm q.values) ∧
        ∃ q', q.update estimateOf index = some q' ∧ q'.values.Perm q.values := by
  obtain ⟨q, reached, -, sound, passed, -⟩ := three_values_reachable
  exact ⟨q, reached, sound, passed,
    multiPop_passes_in_priority_order_and_indexes_locate actualOf estimateOf 0 three_values_ranged reached⟩

/-- `sstack` orders by the sign of the difference of two priorities, `MultiPop` compares with `<`:
with both estimates at the top of `int64` and the actual priorities at its two ends, the two items
meet in `popQueue`, which passes `-2^63` before `2^63 - 1`. -/
theorem multiPop_passes_lower_priority_first_across_int64 :
    ∃ q : LazyQueue (Fin 2),
      Reachable (fun v _ => ![BitVec.ofInt 64 (2 ^ 63 - 1), BitVec.ofInt 64 (-2 ^ 63)] v)
        (fun _ _ => BitVec.ofInt 64 (2 ^ 63 - 1)) q ∧
      (∀ j, ∀ it ∈ q.items j,
        (![BitVec.ofInt 64 (2 ^ 63 - 1), BitVec.ofInt 64 (-2 ^ 63)] it.value).toInt ≤ it.priority.toInt) ∧
      (q.multiPop (fun v _ => ![BitVec.ofInt 64 (2 ^ 63 - 1), BitVec.ofInt 64 (-2 ^ 63)] v)
        (fun _ _ => BitVec.ofInt 64 (2 ^ 63 - 1)) (fun _ _ _ => true) 0).map (fun r => r.2.map fun a => a.2.toInt) =
        some [-2 ^ 63, 2 ^ 63 - 1] := by
  -- `Push(0)`, `Refresh`, `Push(1)`: one item in each queue, both estimated at `2^63 - 1`
  refine ⟨(((((newLazyQueue (fun _ _ => BitVec.ofInt 64 (2 ^ 63 - 1)) 1 0).get (by decide +kernel)).push
      (fun _ _ => BitVec.ofInt 64 (2 ^ 63 - 1)) 0).refresh (fun _ _ => BitVec.ofInt 64 (2 ^ 63 - 1)) 0).get
        (by decide +kernel)).push (fun _ _ => BitVec.ofInt 64 (2 ^ 63 - 1)) 1, ?_, by decide +kernel, by decide +kernel⟩
  exact .push (.refresh (.push (.new (Option.some_get _).symm) (by decide +kernel))
    (Option.some_get _).symm) (by decide +kernel)

omit [DecidableEq V] in
/-- Only the empty list is accepted by a callback that declines everything. -/
theorem accepted_declining {passed : List (V × BitVec 64)} (accepted : Accepted (fun _ _ _ => false) passed) :
    passed = [] := by
  cases accepted with
  | nil => rfl
  | snoc _ accepts => cases accepts

/-- `Pop` from a non-empty reachable queue, its priorities in the window and its estimates bounding
the actual priorities at `now`: it takes a value of the greatest actual priority, with that
priority, and leaves the others. -/
theorem pop_takes_greatest_actual_priority (priority maxPriority : V → AbsTime → BitVec 64) (lo : ℤ)
    (ranged : ∀ v t, InRange lo (priority v t) ∧ InRange lo (maxPriority v t))
    (reached : Reachable priority maxPriority q) (now : AbsTime)
    (sound : ∀ j, ∀ it ∈ q.items j, (priority it.value now).toInt ≤ it.priority.toInt) (nonempty : q.values ≠ []) :
    ∃ q' v, q.pop priority maxPriority now = some (q', some (v, priority v now)) ∧ (v :: q'.values).Perm q.values ∧
      ∀ w ∈ q'.values, (priority w now).toInt ≤ (priority v now).toInt := by
  obtain ⟨valid, idle⟩ := reached.valid ranged
  obtain ⟨q', passed, popped, -, idle', perm, ends, order⟩ :=
    valid.multiPop (fun v t => (ranged v t).2) priority now (fun _ _ _ => false) (fun v t => (ranged v t).1) idle
  obtain ⟨actual, -, above⟩ := order sound
  -- the callback declines the first item it is passed
  rcases ends with ⟨empty, accepted⟩ | ⟨pre, a, rfl, accepted, -⟩
  · rw [empty, accepted_declining accepted] at perm
    exact absurd (List.Perm.nil_eq perm).symm nonempty
  · obtain rfl := accepted_declining accepted
    rw [List.nil_append] at perm actual above popped
    have first := actual a (List.mem_singleton_self a)
    refine ⟨q', a.1, ?_, ?_, fun w left => ?_⟩
    · rw [← first]
      simp only [LazyQueue.pop, popped, Option.bind_eq_bind, Option.bind_some, List.head?_cons, Option.pure_def]
    · simpa using (List.perm_append_singleton a.1 q'.values).symm.trans perm
    · rw [← first]
      exact above a (List.mem_singleton_self a) w (by rwa [allValues_of_idle idle'])

theorem pop_takes_greatest_actual_priority_of_three_values :
    ∃ q : LazyQueue (Fin 3), Reachable actualOf estimateOf q ∧ q.values = [0, 1, 2] ∧
      (∀ j, ∀ it ∈ q.items j, (actualOf it.value 0).toInt ≤ it.priority.toInt) ∧
      (q.pop actualOf estimateOf 0).map (fun r => (r.2, r.1.values)) = some (some (1, 9), [0, 2]) ∧
      ∃ q' v, q.pop actualOf estimateOf 0 = some (q', some (v, actualOf v 0)) ∧ (v :: q'.values).Perm q.values ∧
        ∀ w ∈ q'.values, (actualOf w 0).toInt ≤ (actualOf v 0).toInt := by
  obtain ⟨q, reached, values, sound, -, popped⟩ := three_values_reachable
  have nonempty : q.values ≠ [] := by simp [values]
  exact ⟨q, reached, values, sound, popped,
    pop_takes_greatest_actual_priority actualOf estimateOf 0 three_values_ranged reached 0 sound nonempty⟩

end Reachable

end LazyQueue

end SimpleChain.Common
