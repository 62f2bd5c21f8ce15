import Mathlib
import SimpleChain.Dpos.Types
import SimpleChain.Lib.GoSort

/-! # Electing the signer queue (`signer_queue.go`)

At the end of every loop the block producer writes a new signer queue into the
header, and `verifySeal` recomputes it with `createSignerQueue`.  Every
`LCRS`-th loop the queue is re-elected from the tally: candidates are ranked by
stake weighted with their punishment credit (`TallySlice.less`, stake first,
address as tie-break), taken in the tiered 10/6/4/1 selection when there are
more than thirty of them, and shuffled by pairing each with a recent block hash
and sorting on the hash (`SignerSlice.less`).  Other loops only reshuffle the
current signers.

The two `sort.Sort` calls are arbitrary routines honouring the library's
contract (`GoSort`). -/
set_option autoImplicit false

namespace SimpleChain.Dpos

structure TallyItem where
  addr : Address
  stake : Int
deriving DecidableEq, Repr

abbrev TallySlice := List TallyItem

/-- `TallySlice.Less`: larger stake first, larger address first among equal stakes. -/
def TallySlice.less (a b : TallyItem) : Bool :=
  if a.stake > b.stake then true
  else if a.stake < b.stake then false
  else decide (a.addr > b.addr)

structure SignerItem where
  addr : Address
  hash : Hash
deriving DecidableEq, Repr

abbrev SignerSlice := List SignerItem

/-- `SignerSlice.Less`: larger hash first; items with equal hashes are unordered. -/
def SignerSlice.less (a b : SignerItem) : Bool := decide (a.hash > b.hash)

theorem TallySlice.less_iff (a b : TallyItem) :
    TallySlice.less a b = true ↔
      b.stake < a.stake ∨ (a.stake = b.stake ∧ b.addr.toNat < a.addr.toNat) := by
  unfold TallySlice.less
  split_ifs with gt lt
  · simp only [true_iff]
    exact Or.inl gt
  · simp only [false_iff]
    omega
  · simp only [decide_eq_true_eq, BitVec.lt_def]
    constructor
    · intro addrGt
      omega
    · intro ordered
      omega

theorem TallySlice.less_strictWeak : StrictWeakLess TallySlice.less where
  asymm := by
    intro a b hab
    cases hba : TallySlice.less b a
    · rfl
    · rw [TallySlice.less_iff] at hab hba
      omega
  negTrans := by
    intro a b c hac
    rw [TallySlice.less_iff] at hac
    by_cases hab : TallySlice.less a b = true
    · exact Or.inl hab
    · right
      rw [TallySlice.less_iff] at hab ⊢
      omega

/-- `TallySlice.Less` orders any two distinct items. -/
theorem TallySlice.less_total (a b : TallyItem) (hab : TallySlice.less a b = false)
    (hba : TallySlice.less b a = false) : a = b := by
  have notAB : ¬ (b.stake < a.stake ∨ (a.stake = b.stake ∧ b.addr.toNat < a.addr.toNat)) := by
    rw [← TallySlice.less_iff]
    simp [hab]
  have notBA : ¬ (a.stake < b.stake ∨ (b.stake = a.stake ∧ a.addr.toNat < b.addr.toNat)) := by
    rw [← TallySlice.less_iff]
    simp [hba]
  have stakeEq : a.stake = b.stake := by omega
  have addrEq : a.addr = b.addr := by
    apply BitVec.eq_of_toNat_eq
    omega
  cases a
  cases b
  simp_all

theorem SignerSlice.less_strictWeak : StrictWeakLess SignerSlice.less where
  asymm := by
    intro a b hab
    simp only [SignerSlice.less, decide_eq_true_eq, decide_eq_false_iff_not, BitVec.lt_def]
      at hab ⊢
    omega
  negTrans := by
    intro a b c hac
    simp only [SignerSlice.less, decide_eq_true_eq, BitVec.lt_def] at hac ⊢
    omega

/-! ## The snapshot side -/

/-- `isCandidate` -/
def Snapshot.isCandidate (s : Snapshot) (address : Address) : Bool :=
  (s.candidates.lookup address).isSome

/-- The credit a candidate's stake is weighted with in `buildTallySlice`. -/
def creditWeight (punished : Option Nat) : Int :=
  match punished with
  | some count =>
      if count > defaultFullCredit - minCalSignerQueueCredit then minCalSignerQueueCredit
      else defaultFullCredit - count
  | none => defaultFullCredit

/-- The body of `buildTallySlice`'s loop: the item of one tally entry, its
stake weighted with the candidate's credit. -/
def Snapshot.tallyItem (s : Snapshot) (entry : Σ _ : Address, Int) : Option TallyItem :=
  if !candidateNeedPD || s.isCandidate entry.1 then
    some ⟨entry.1, entry.2 * creditWeight (s.punished.lookup entry.1)⟩
  else none

/-- `buildTallySlice`: one item per tally entry, in map order. -/
def Snapshot.buildTallySlice (s : Snapshot) : TallySlice :=
  s.tally.entries.filterMap s.tallyItem

/-- `s.HistoryHash[len(s.HistoryHash)-1-i]`, a panic when the index leaves the slice. -/
def historyHashAt (historyHash : List Hash) (i : Nat) : Except DposError Hash :=
  match historyHash.reverse[i]? with
  | some hash => .ok hash
  | none => .error .panicIndexOutOfRange

/-- Pair the `i`-th item with `HistoryHash[len-1-i]`, as each selection loop does. -/
def signerItems (historyHash : List Hash) (addrs : List Address) :
    Except DposError SignerSlice :=
  (addrs.zipIdx).mapM fun pair => do
    let hash ← historyHashAt historyHash pair.2
    pure ⟨pair.1, hash⟩

/-- Go's `a % b` on `uint64`, a panic when `b` is zero. -/
def modU64 (a b : Nat) : Except DposError Nat :=
  if b = 0 then .error .panicDivideByZero else .ok (a % b)

section Queue
variable (sortTally : GoSort TallyItem TallySlice.less)
  (sortSigner : GoSort SignerItem SignerSlice.less)

/-- The tiered selection used when a full official queue of 21 is elected from
more than thirty candidates. -/
def officialSignerSlice (historyHash : List Hash) (tallySlice : TallySlice) :
    Except DposError SignerSlice := do
  let firstLevel ← signerItems historyHash
    ((tallySlice.take defaultOfficialFirstLevelCount).map TallyItem.addr)
  let secondLevel ← signerItems historyHash
    (((tallySlice.drop defaultOfficialFirstLevelCount).take
      (defaultOfficialSecondLevelCount - defaultOfficialFirstLevelCount)).map TallyItem.addr)
  let thirdLevel ← signerItems historyHash
    (((tallySlice.drop defaultOfficialSecondLevelCount).take
      (defaultOfficialThirdLevelCount - defaultOfficialSecondLevelCount)).map TallyItem.addr)
  let maxValidCount := min defaultOfficialMaxValidCount tallySlice.length
  let lastLevel ← signerItems historyHash
    (((tallySlice.drop defaultOfficialThirdLevelCount).take
      (maxValidCount - defaultOfficialThirdLevelCount)).map TallyItem.addr)
  let lastChoice := (sortSigner.run lastLevel).take 1
  pure (firstLevel ++ (sortSigner.run secondLevel).take 6 ++ (sortSigner.run thirdLevel).take 4 ++
    lastChoice)

/-- The items shuffled into the new queue, before the final sort. -/
def Snapshot.signerSlice (s : Snapshot) : Except DposError SignerSlice := do
  let recalculate ← modU64 (s.number + 1) (mulU64 s.config.maxSignerCount s.lcrs)
  if recalculate = 0 then
    let tallySlice := sortTally.run s.buildTallySlice
    let queueLength := min s.config.maxSignerCount tallySlice.length
    if queueLength = defaultOfficialMaxSignerCount ∧
        tallySlice.length > defaultOfficialThirdLevelCount then
      officialSignerSlice sortSigner s.historyHash tallySlice
    else
      signerItems s.historyHash ((tallySlice.take queueLength).map TallyItem.addr)
  else
    signerItems s.historyHash s.signers

/-- `createSignerQueue`: `MaxSignerCount` addresses cycling through the sorted
signer slice. -/
def Snapshot.createSignerQueue (s : Snapshot) : Except DposError (List Address) := do
  if (s.number + 1) % s.config.maxSignerCount ≠ 0 then throw .createSignerQueueNotAllowed
  let last ← historyHashAt s.historyHash 0
  if s.hash ≠ last then throw .createSignerQueueNotAllowed
  let items ← s.signerSlice sortTally sortSigner
  match sortSigner.run items with
  | [] => throw .signerQueueEmpty
  | first :: rest =>
      pure ((List.range s.config.maxSignerCount).map fun i =>
        ((first :: rest).getD (i % (rest.length + 1)) first).addr)

/-- `verifySignerQueue` -/
def Snapshot.verifySignerQueue (s : Snapshot) (signerQueue : List Address) :
    Except DposError Unit := do
  if signerQueue.length > s.config.maxSignerCount then throw .invalidSignerQueue
  let sq ← s.createSignerQueue sortTally sortSigner
  if sq.length = 0 ∨ sq.length ≠ signerQueue.length then throw .invalidSignerQueue
  if (signerQueue.zip sq).any (fun pair => pair.1 != pair.2) then throw .invalidSignerQueue
  pure ()

end Queue

end SimpleChain.Dpos
