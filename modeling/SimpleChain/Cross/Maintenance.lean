import Mathlib
import SimpleChain.Cross.PoolSafety

/-! # Rollback and expiry

`Rollback` removes the invalid signatures by their indexes one after another.
Each `RemoveSignature` closes the gap it leaves, so from the second index on the
positions have moved: the index that meant the signature at `j` now names the
one at `j + 1`, which goes instead, and the invalid one stays.

The expiry timer cleans `queued` below `CurrentBlockNumber() - expireQueueNumber`,
computed in `uint64`: near the start of the chain the difference wraps to a
number above every block number and the whole queue goes.  The thresholds of
the second cleaning are computed only when `currentNum > expireNum`, and there
they remove exactly what they should.

`RemoveUnderNum` walks the block-number index from its start and removes every
entry up to its bound, but the ids it names as its result are never collected:
its named result `removed` stays nil. -/
set_option autoImplicit false

namespace SimpleChain.Cross

open CtxSortedByBlockNum

/-! ## `Rollback` -/

theorem removeSignature_of_lt {cws : CrossTransactionWithSignatures} {index : Nat}
    (lt : index < cws.signatures.length) :
    (cws.removeSignature index).signatures = cws.signatures.eraseIdx index := by
  simp [CrossTransactionWithSignatures.removeSignature, lt]

/-- After removing the indexes `i < j`, the signature found at `j` before is still there, one
place down: the second removal took its successor. -/
theorem removeSignatures_keeps_second {cws : CrossTransactionWithSignatures} {i j : Nat}
    (before : i < j) (inside : j + 1 < cws.signatures.length) :
    ([i, j].foldl CrossTransactionWithSignatures.removeSignature cws).signatures[j - 1]? =
      cws.signatures[j]? := by
  have first : i < cws.signatures.length := by omega
  have second : j < (cws.removeSignature i).signatures.length := by
    rw [removeSignature_of_lt first, List.length_eraseIdx_of_lt first]
    omega
  simp only [List.foldl_cons, List.foldl_nil]
  rw [removeSignature_of_lt second, List.getElem?_eraseIdx_of_lt (by omega),
    removeSignature_of_lt first, List.getElem?_eraseIdx_of_ge (by omega), Nat.sub_add_cancel (by omega)]

def threeSigned : CrossTransactionWithSignatures :=
  ⟨0, 0, 0, 0, ctxStatusPending, 7, [⟨27, 1, 1⟩, ⟨27, 2, 2⟩, ⟨27, 3, 3⟩]⟩

/-- Rolling back `threeSigned` with the invalid indexes `[0, 1]` puts the entry back in
`pending` with the second signature, which was invalid, and without the third, which was
valid. -/
theorem rollback_keeps_invalid_signature (pool : CrossPool) :
    (({ pool with pending := .empty } : CrossPool).rollback threeSigned [0, 1]).pending.get
      threeSigned.id = some { threeSigned with signatures := [⟨27, 2, 2⟩] } := by
  simp only [CrossPool.rollback]
  rfl

/-! ## The expiry timer -/

/-- Below block 63 no queued entry survives the timer unless its block number is above
`2^64 - 63 + currentNum`. -/
theorem expire_queued_early (pool : CrossPool) {currentNum : Nat} (early : currentNum < 63)
    (expireNum : Int) :
    ∀ ctx ∈ (pool.expire currentNum expireNum).queued.items, 2 ^ 64 - 63 + currentNum < ctx.blockNum := by
  have wrap : (currentNum + 2 ^ 64 - expireQueueNumber) % 2 ^ 64 = 2 ^ 64 - 63 + currentNum := by
    unfold expireQueueNumber
    rw [Nat.mod_eq_of_lt (by omega)]
    omega
  intro ctx member
  unfold CrossPool.expire at member
  simp only [wrap] at member
  split_ifs at member <;> simp only [removeUnderNum, List.mem_filter, decide_eq_true_eq] at member
  · exact member.2
  · exact member.1.2
  · exact member.2

/-- From block 63 on, and with an expiry number below the current block, exactly the entries
up to the thresholds go. -/
theorem expire_of_le (pool : CrossPool) {currentNum : Nat} (late : 63 ≤ currentNum)
    (fits : currentNum < 2 ^ 64) {e : Nat} (below : e < currentNum) :
    (pool.expire currentNum e).queued.items =
        pool.queued.items.filter (fun ctx => currentNum - e < ctx.blockNum &&
          currentNum - 63 < ctx.blockNum) ∧
      (pool.expire currentNum e).pending.items =
        pool.pending.items.filter fun ctx => currentNum - e < ctx.blockNum := by
  have wrap : (currentNum + 2 ^ 64 - expireQueueNumber) % 2 ^ 64 = currentNum - 63 := by
    unfold expireQueueNumber
    rw [show currentNum + 2 ^ 64 - 63 = (currentNum - 63) + 2 ^ 64 by omega, Nat.add_mod_right,
      Nat.mod_eq_of_lt (by omega)]
  have notNeg : ¬ (e : Int) < 0 := by omega
  unfold CrossPool.expire
  simp only [wrap, Int.toNat_natCast, notNeg, below, if_false, if_true, removeUnderNum,
    List.filter_filter, and_self]

def queuedAt (pool : CrossPool) (blockNum : Nat) : CrossPool :=
  { pool with queued := ⟨[{ threeSigned with blockNum := blockNum }], by simp⟩ }

/-- At block 10, with expiry switched off, the timer empties a queue holding an entry of
block 5. -/
theorem expire_early_empties_queue (pool : CrossPool) :
    (queuedAt pool 5).queued.items ≠ [] ∧ ((queuedAt pool 5).expire 10 (-1)).queued.items = [] := by
  refine ⟨by simp [queuedAt], List.eq_nil_iff_forall_not_mem.mpr fun ctx member => ?_⟩
  have above := expire_queued_early (queuedAt pool 5) (by decide) (-1) ctx member
  have held : ctx ∈ (queuedAt pool 5).queued.items := by
    simp only [CrossPool.expire, queuedAt, removeUnderNum] at member ⊢
    simp_all
  simp [queuedAt, threeSigned] at held
  subst held
  simp at above

/-! ## `RemoveUnderNum` on the map and its index -/

/-- `CtxSortedByBlockNum` as the source keeps it: the entries by id, and the red-black tree
by block number as the list its iterator visits. -/
structure CtxSortedIndex where
  items : GoMap Hash CrossTransactionWithSignatures
  index : List (Nat × Hash)

namespace CtxSortedIndex

/-- `index.Put(k, v)` of the multimap: after the entries whose key is at most `k`. -/
def indexPut (index : List (Nat × Hash)) (k : Nat) (v : Hash) : List (Nat × Hash) :=
  index.takeWhile (fun e => e.1 ≤ k) ++ (k, v) :: index.dropWhile (fun e => e.1 ≤ k)

def put (m : CtxSortedIndex) (ctx : CrossTransactionWithSignatures) : CtxSortedIndex :=
  match m.items.lookup ctx.id with
  | some _ => m
  | none => { items := m.items.insert ctx.id ctx, index := indexPut m.index ctx.blockNum ctx.id }

/-- The walk of `RemoveUnderNum` from the start of the index. -/
def removeUnderNumLoop (num : Nat) :
    List (Nat × Hash) → GoMap Hash CrossTransactionWithSignatures →
      List (Nat × Hash) × GoMap Hash CrossTransactionWithSignatures
  | [], items => ([], items)
  | (number, id) :: rest, items =>
    if number > num then ((number, id) :: rest, items)
    else removeUnderNumLoop num rest (items.erase id)

/-- `RemoveUnderNum` with its result: the named result `removed` is never assigned. -/
def removeUnderNum (m : CtxSortedIndex) (num : Nat) : CtxSortedIndex × List Hash :=
  let (index, items) := removeUnderNumLoop num m.index m.items
  ({ items := items, index := index }, [])

/-- The walk stops at the first entry above the bound and deletes the ids before it. -/
theorem removeUnderNumLoop_eq (num : Nat) (index : List (Nat × Hash))
    (items : GoMap Hash CrossTransactionWithSignatures) :
    removeUnderNumLoop num index items =
      (index.dropWhile (fun e => e.1 ≤ num),
        (index.takeWhile fun e => e.1 ≤ num).foldl (fun items e => items.erase e.2) items) := by
  induction index generalizing items with
  | nil => rfl
  | cons e rest ih =>
    obtain ⟨number, id⟩ := e
    by_cases above : number > num
    · have : ¬ number ≤ num := by omega
      simp [removeUnderNumLoop, above, this]
    · have : number ≤ num := by omega
      simp [removeUnderNumLoop, above, this, ih]

theorem removeUnderNum_reported (m : CtxSortedIndex) (num : Nat) : (m.removeUnderNum num).2 = [] :=
  rfl

end CtxSortedIndex

def expiredAt (blockNum : Nat) : CrossTransactionWithSignatures :=
  { threeSigned with blockNum := blockNum }

/-- An entry of block 5 put into an empty map goes with `RemoveUnderNum(10)`, and the call
reports no id. -/
theorem removeUnderNum_drops_unreported :
    (CtxSortedIndex.put ⟨∅, []⟩ (expiredAt 5)).items.lookup (expiredAt 5).id ≠ none ∧
      ((CtxSortedIndex.put ⟨∅, []⟩ (expiredAt 5)).removeUnderNum 10).1.items.lookup (expiredAt 5).id = none ∧
      ((CtxSortedIndex.put ⟨∅, []⟩ (expiredAt 5)).removeUnderNum 10).2 = [] := by
  simp [CtxSortedIndex.put, CtxSortedIndex.removeUnderNum, CtxSortedIndex.removeUnderNumLoop_eq,
    CtxSortedIndex.indexPut, expiredAt, threeSigned, AList.lookup, AList.singleton, AList.erase]

end SimpleChain.Cross
