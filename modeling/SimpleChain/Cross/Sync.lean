import Mathlib
import SimpleChain.Cross.Pool

/-! # Importing a peer's cross transactions (`cross/backend/synchronise/sync.go`)

`syncCrossTransaction` skips the pending entries and hands the others to the
store's `Writes` one block height at a time: the closure `syncByBlockNum`
collects entries of one `BlockNum`, and on the first entry of another height
returns a copy of the collected ones and restarts from the new entry; the entries
left after the loop are written last.  The calls are exactly the maximal runs of
equal `BlockNum` of the non-pending entries, `List.splitBy` of them, whose
characterisation is Mathlib's `List.splitBy_eq_iff`, and the count returned is
the number of entries in the runs the store accepted (`syncCrossTransaction_eq`).
This holds of any list, sorted or not.

The store is any state with a `Writes` that may change it and may fail. -/
set_option autoImplicit false

namespace SimpleChain.Cross

/-- `syncByBlockNum`: the list it keeps, and its result, `none` for nil.  The result is a copy
(`make` and `copy`), so resetting the list to `[:0]` cannot change it. -/
def syncByBlockNum (syncList : List CrossTransactionWithSignatures)
    (ctx : CrossTransactionWithSignatures) :
    List CrossTransactionWithSignatures × Option (List CrossTransactionWithSignatures) :=
  -- `len(*syncList) > 0 && ctx.BlockNum != (*syncList)[len(*syncList)-1].BlockNum`
  match syncList.getLast? with
  | some last => if ctx.blockNum ≠ last.blockNum then ([ctx], some syncList) else (syncList ++ [ctx], none)
  | none => ([ctx], none)

structure SyncState (ω : Type) where
  localList : List CrossTransactionWithSignatures
  success : Nat
  store : ω

section Sync
variable {ω ε : Type} (writes : ω → List CrossTransactionWithSignatures → ω × Option ε)

def syncStep (st : SyncState ω) (ctx : CrossTransactionWithSignatures) : SyncState ω :=
  if ctx.status = ctxStatusPending then st
  else
    match syncByBlockNum st.localList ctx with
    | (localList, none) => { st with localList := localList }
    | (localList, some syncList) =>
      match writes st.store syncList with
      | (store, some _) => { st with localList := localList, store := store }
      | (store, none) => ⟨localList, st.success + syncList.length, store⟩

/-- The write of the entries left after the loop. -/
def syncRemains (st : SyncState ω) : ω × Nat :=
  if st.localList.length > 0 then
    match writes st.store st.localList with
    | (store, none) => (store, st.success + st.localList.length)
    | (store, some _) => (store, st.success)
  else (st.store, st.success)

def syncCrossTransaction (store : ω) (ctxList : List CrossTransactionWithSignatures) : ω × Nat :=
  syncRemains writes (ctxList.foldl (syncStep writes) ⟨[], 0, store⟩)

/-- One `Writes` call per run, in order: the store after the last, and the entries of the runs
it accepted. -/
def writeRuns (store : ω) : List (List CrossTransactionWithSignatures) → ω × Nat
  | [] => (store, 0)
  | run :: runs =>
    let (store', err) := writes store run
    let (final, n) := writeRuns store' runs
    (final, (if err.isNone then run.length else 0) + n)

/-- Entries of one height, compared as `syncByBlockNum` compares them. -/
def sameHeight (a b : CrossTransactionWithSignatures) : Bool :=
  a.blockNum == b.blockNum

def notPending (ctx : CrossTransactionWithSignatures) : Bool :=
  ctx.status != ctxStatusPending

/-! ## The loop, from a state holding a run -/

theorem syncStep_pending (st : SyncState ω) {ctx : CrossTransactionWithSignatures}
    (pending : notPending ctx = false) : syncStep writes st ctx = st := by
  simp only [notPending, bne_eq_false_iff_eq] at pending
  simp [syncStep, pending]

theorem syncStep_same (st : SyncState ω) {ctx last : CrossTransactionWithSignatures}
    (keep : notPending ctx = true) (at_ : st.localList.getLast? = some last)
    (same : ctx.blockNum = last.blockNum) :
    syncStep writes st ctx = { st with localList := st.localList ++ [ctx] } := by
  simp only [notPending, bne_iff_ne, ne_eq] at keep
  simp [syncStep, keep, syncByBlockNum, at_, same]

theorem syncStep_other (st : SyncState ω) {ctx last : CrossTransactionWithSignatures}
    (keep : notPending ctx = true) (at_ : st.localList.getLast? = some last)
    (other : ctx.blockNum ≠ last.blockNum) :
    syncStep writes st ctx =
      ⟨[ctx], st.success + (if (writes st.store st.localList).2.isNone then st.localList.length else 0),
        (writes st.store st.localList).1⟩ := by
  simp only [notPending, bne_iff_ne, ne_eq] at keep
  simp only [syncStep, keep, if_false, syncByBlockNum, at_, ne_eq, other, not_false_eq_true, if_true]
  rcases writes st.store st.localList with ⟨store', _ | e⟩ <;> rfl

/-- Run lemma: from a state whose list is a nonempty run `cur`, the rest of the loop and the
final write make the calls of the maximal runs of `cur` followed by the non-pending entries. -/
theorem sync_from_run (xs : List CrossTransactionWithSignatures) :
    ∀ st : SyncState ω, st.localList ≠ [] → st.localList.IsChain (fun a b => sameHeight a b) →
      syncRemains writes (xs.foldl (syncStep writes) st) =
        ((writeRuns writes st.store ((st.localList ++ xs.filter notPending).splitBy sameHeight)).1,
          st.success +
            (writeRuns writes st.store ((st.localList ++ xs.filter notPending).splitBy sameHeight)).2) := by
  induction xs with
  | nil =>
    intro st nonempty chain
    rw [List.filter_nil, List.append_nil, List.splitBy_of_isChain nonempty chain]
    have pos : st.localList.length > 0 := List.length_pos_of_ne_nil nonempty
    simp only [List.foldl_nil, syncRemains, pos, if_true, writeRuns, Nat.add_zero]
    rcases writes st.store st.localList with ⟨store', _ | e⟩ <;> rfl
  | cons x xs ih =>
    intro st nonempty chain
    obtain ⟨last, at_⟩ := Option.ne_none_iff_exists'.mp (List.getLast?_eq_none_iff.not.mpr nonempty)
    rw [List.foldl_cons]
    by_cases keep : notPending x = true
    · rw [List.filter_cons_of_pos keep]
      by_cases same : x.blockNum = last.blockNum
      · -- `x` extends the run
        rw [syncStep_same writes st keep at_ same, ih _ (by simp)]
        · simp only [List.append_assoc, List.singleton_append]
        · rw [List.isChain_append]
          refine ⟨chain, List.isChain_singleton x, fun a mem b mem' => ?_⟩
          rw [at_, Option.mem_some_iff] at mem
          rw [List.head?_cons, Option.mem_some_iff] at mem'
          simp [sameHeight, ← mem, ← mem', same]
      · -- `x` opens the next run: the current one is written
        have cut : (st.localList ++ x :: xs.filter notPending).splitBy sameHeight =
            st.localList :: ([x] ++ xs.filter notPending).splitBy sameHeight := by
          rw [List.splitBy_append_cons _ (by simp [at_, sameHeight, Ne.symm same]),
            List.splitBy_of_isChain nonempty chain]
          rfl
        rw [syncStep_other writes st keep at_ same, ih _ (by simp) (List.isChain_singleton x), cut]
        simp only [writeRuns]
        rw [Nat.add_assoc]
    · rw [List.filter_cons_of_neg keep, syncStep_pending writes st (by simpa using keep)]
      exact ih st nonempty chain

/-- `syncCrossTransaction` calls `Writes` once for each maximal run of equal `BlockNum` among the
non-pending entries, in order, and counts the entries of the runs it accepted. -/
theorem syncCrossTransaction_eq (store : ω) (ctxList : List CrossTransactionWithSignatures) :
    syncCrossTransaction writes store ctxList =
      writeRuns writes store ((ctxList.filter notPending).splitBy sameHeight) := by
  unfold syncCrossTransaction
  suffices h : ∀ success, syncRemains writes (ctxList.foldl (syncStep writes) ⟨[], success, store⟩) =
      ((writeRuns writes store ((ctxList.filter notPending).splitBy sameHeight)).1,
        success + (writeRuns writes store ((ctxList.filter notPending).splitBy sameHeight)).2) by
    rw [h 0, Nat.zero_add]
  -- the loop before the first non-pending entry leaves the state as it is
  induction ctxList with
  | nil => intro success; simp [syncRemains, writeRuns]
  | cons x xs ih =>
    intro success
    rw [List.foldl_cons]
    by_cases keep : notPending x = true
    · have first : syncStep writes ⟨[], success, store⟩ x = ⟨[x], success, store⟩ := by
        simp only [notPending, bne_iff_ne, ne_eq] at keep
        simp [syncStep, keep, syncByBlockNum]
      rw [first, List.filter_cons_of_pos keep,
        sync_from_run writes xs ⟨[x], success, store⟩ (by simp) (List.isChain_singleton x)]
      rfl
    · rw [List.filter_cons_of_neg keep, syncStep_pending writes _ (by simpa using keep)]
      exact ih success

end Sync

end SimpleChain.Cross
