import Mathlib
import SimpleChain.Lib.Loop

/-! # Memory expansion gas (`core/vm/gas_table.go`, `core/vm/common.go`, `core/vm/memory.go`)

Each round of `EVMInterpreter.Run` for an operation that touches memory rounds the size it needs
up to whole words (`toWordSize`, then `SafeMul` by 32), charges `memoryGasCost` for it, and then
resizes the memory to that size.  `memoryGasCost` charges the difference between the quadratic fee
`C(w) = 3w + ⌊w²/512⌋` of the new word count and the fee `lastGasCost` it charged last, all in
`uint64`.  That the subtraction never wraps rests on `lastGasCost` being `C` of the current word
count, which only holds because every charge is followed by the matching `Resize`: it is the
invariant `Memory.Inv` of every memory a run reaches, and `gas + C(words)` is what a run keeps.

The contents of the store play no part here: a `Memory` is the store's length and
`lastGasCost`. -/
set_option autoImplicit false

namespace SimpleChain.Vm

open GoLoop

inductive VmError
  /-- `errGasUintOverflow` -/
  | gasUintOverflow
  /-- `ErrOutOfGas` -/
  | outOfGas
  deriving DecidableEq, Repr

structure Memory where
  len : ℕ
  lastGasCost : UInt64
  deriving DecidableEq, Repr

def newMemory : Memory := ⟨0, 0⟩

def MaxUint64 : UInt64 := 0xFFFFFFFFFFFFFFFF

def MemoryGas : UInt64 := 3

def QuadCoeffDiv : UInt64 := 512

def safeMul (x y : UInt64) : UInt64 × Bool :=
  if x = 0 ∨ y = 0 then (0, false) else (x * y, y > MaxUint64 / x)

def toWordSize (size : UInt64) : UInt64 :=
  if size > MaxUint64 - 31 then MaxUint64 / 32 + 1 else (size + 31) / 32

def memoryGasCost (mem : Memory) (newMemSize : UInt64) : Except VmError (UInt64 × Memory) :=
  if newMemSize = 0 then .ok (0, mem)
  else if newMemSize > 0x1FFFFFFFE0 then .error .gasUintOverflow
  else
    let newMemSizeWords := toWordSize newMemSize
    let newMemSize := newMemSizeWords * 32
    if newMemSize > UInt64.ofNat mem.len then
      let square := newMemSizeWords * newMemSizeWords
      let linCoef := newMemSizeWords * MemoryGas
      let quadCoef := square / QuadCoeffDiv
      let newTotalFee := linCoef + quadCoef
      let fee := newTotalFee - mem.lastGasCost
      .ok (fee, { mem with lastGasCost := newTotalFee })
    else .ok (0, mem)

def Memory.resize (mem : Memory) (size : UInt64) : Memory :=
  if UInt64.ofNat mem.len < size then { mem with len := size.toNat } else mem

/-- The memory part of one round of `Run` for an operation whose dynamic gas is its memory gas
(`pureMemoryGascost`): the size in words, the charge (`UseGas`), the `Resize`.  `memSize` is what
the operation's `memorySize` asked for. -/
def expandMemory (gas : UInt64) (mem : Memory) (memSize : UInt64) : Except VmError (UInt64 × Memory) :=
  let (memorySize, overflow) := safeMul (toWordSize memSize) 32
  if overflow then .error .gasUintOverflow
  else
    match memoryGasCost mem memorySize with
    | .error _ => .error .outOfGas
    | .ok (dynamicCost, mem) =>
      if gas < dynamicCost then .error .outOfGas
      else .ok (gas - dynamicCost, if memorySize > 0 then mem.resize memorySize else mem)

/-- A run of such rounds on a fresh memory, with `gas` to spend. -/
def memoryRun (gas : UInt64) (sizes : List UInt64) : Except VmError (UInt64 × Memory) :=
  sizes.foldlM (fun state memSize => expandMemory state.1 state.2 memSize) (gas, newMemory)

/-! ## The fee -/

/-- `C(w)`, the fee for `w` words of memory. -/
def memoryCost (w : ℕ) : ℕ :=
  3 * w + w * w / 512

theorem memoryCost_mono {a b : ℕ} (le : a ≤ b) : memoryCost a ≤ memoryCost b := by
  have square : a * a / 512 ≤ b * b / 512 := Nat.div_le_div_right (Nat.mul_le_mul le le)
  unfold memoryCost
  omega

/-- What every memory a run reaches satisfies. -/
structure Memory.Inv (mem : Memory) : Prop where
  aligned : mem.len % 32 = 0
  bounded : mem.len ≤ 0x1FFFFFFFE0
  paid : mem.lastGasCost.toNat = memoryCost (mem.len / 32)

theorem newMemory_inv : newMemory.Inv :=
  ⟨rfl, by decide, rfl⟩

/-! ## `uint64` arithmetic below the overflow threshold -/

theorem toWordSize_toNat {size : UInt64} (small : size ≤ 0x1FFFFFFFE0) :
    (toWordSize size).toNat = (size.toNat + 31) / 32 := by
  have bound : size.toNat ≤ 0x1FFFFFFFE0 := UInt64.le_iff_toNat_le.mp small
  have notHuge : ¬ size > MaxUint64 - 31 := by
    simp only [MaxUint64, gt_iff_lt, UInt64.reduceSub, UInt64.lt_iff_toNat_lt, UInt64.reduceToNat]
    omega
  rw [toWordSize, if_neg notHuge, UInt64.toNat_div, UInt64.toNat_add]
  simp only [UInt64.reduceToNat]
  rw [Nat.mod_eq_of_lt (by omega)]

/-- Below `0xFFFFFFFF` words the fee is computed without overflow: the square fits. -/
theorem totalFee_toNat {w : UInt64} (small : w.toNat ≤ 0xFFFFFFFF) :
    (w * MemoryGas + w * w / QuadCoeffDiv).toNat = memoryCost w.toNat := by
  have square : w.toNat * w.toNat ≤ 0xFFFFFFFF * 0xFFFFFFFF := Nat.mul_le_mul small small
  simp only [UInt64.toNat_add, UInt64.toNat_mul, UInt64.toNat_div, MemoryGas, QuadCoeffDiv,
    UInt64.reduceToNat, memoryCost]
  generalize w.toNat * w.toNat = sq at square ⊢
  omega

theorem toWordSize_zero : toWordSize 0 = 0 := by
  decide

theorem toWordSize_le {size : UInt64} (small : size ≤ 0x1FFFFFFFE0) : (toWordSize size).toNat ≤ 0xFFFFFFFF := by
  have bound : size.toNat ≤ 0x1FFFFFFFE0 := UInt64.le_iff_toNat_le.mp small
  rw [toWordSize_toNat small]
  omega

/-- The growth test of `memoryGasCost`, in words. -/
theorem grows_iff {mem : Memory} (inv : mem.Inv) {newMemSize : UInt64} (small : newMemSize ≤ 0x1FFFFFFFE0) :
    toWordSize newMemSize * 32 > UInt64.ofNat mem.len ↔ mem.len / 32 < (toWordSize newMemSize).toNat := by
  have words := toWordSize_le small
  have aligned := inv.aligned
  have bounded := inv.bounded
  rw [gt_iff_lt, UInt64.lt_iff_toNat_lt, UInt64.toNat_ofNat', UInt64.toNat_mul]
  simp only [UInt64.reduceToNat]
  rw [Nat.mod_eq_of_lt (by omega), Nat.mod_eq_of_lt (by omega)]
  omega

/-! ## `memoryGasCost` -/

theorem memoryGasCost_eq_error_iff {mem : Memory} {newMemSize : UInt64} {e : VmError} :
    memoryGasCost mem newMemSize = .error e ↔ 0x1FFFFFFFE0 < newMemSize ∧ e = .gasUintOverflow := by
  unfold memoryGasCost
  by_cases zero : newMemSize = 0
  · subst zero
    simp
  · by_cases big : newMemSize > 0x1FFFFFFFE0
    · simp [zero, big, eq_comm]
    · simp only [zero, big, if_false]
      split <;> simp

/-- A charge from a reachable memory tops the fee paid so far up to `C` of the larger of the
two word counts, without wrapping, and records that as `lastGasCost`. -/
theorem memoryGasCost_ok {mem : Memory} (inv : mem.Inv) {newMemSize fee : UInt64} {mem' : Memory}
    (charged : memoryGasCost mem newMemSize = .ok (fee, mem')) :
    mem'.len = mem.len ∧
      fee.toNat + memoryCost (mem.len / 32) =
        memoryCost (max (toWordSize newMemSize).toNat (mem.len / 32)) ∧
      mem'.lastGasCost.toNat = memoryCost (max (toWordSize newMemSize).toNat (mem.len / 32)) := by
  unfold memoryGasCost at charged
  dsimp only at charged
  split_ifs at charged with zero big grow
  · cases charged
    subst zero
    simp [toWordSize_zero, inv.paid]
  · -- the memory grows: the new fee is `C` of the new word count, above the one paid
    cases charged
    have small : newMemSize ≤ 0x1FFFFFFFE0 := UInt64.not_lt.mp big
    have more := (grows_iff inv small).mp grow
    have total := totalFee_toNat (toWordSize_le small)
    have paidLe : mem.lastGasCost ≤ toWordSize newMemSize * MemoryGas +
        toWordSize newMemSize * toWordSize newMemSize / QuadCoeffDiv := by
      rw [UInt64.le_iff_toNat_le, total, inv.paid]
      exact memoryCost_mono more.le
    have mono := memoryCost_mono more.le
    refine ⟨rfl, ?_, ?_⟩
    · rw [UInt64.toNat_sub_of_le _ _ paidLe, total, inv.paid, max_eq_left more.le]
      omega
    · rw [max_eq_left more.le]
      exact total
  · -- the memory is large enough already: nothing to pay
    cases charged
    have small : newMemSize ≤ 0x1FFFFFFFE0 := UInt64.not_lt.mp big
    have noMore := Nat.not_lt.mp (mt (grows_iff inv small).mpr grow)
    simp [max_eq_right noMore, inv.paid]

/-! ## One round and a run -/

theorem safeMul_toNat {x y product : UInt64} (exact : safeMul x y = (product, false)) :
    product.toNat = x.toNat * y.toNat := by
  unfold safeMul at exact
  split_ifs at exact with zero
  · cases exact
    rcases zero with rfl | rfl <;> simp
  · simp only [Prod.mk.injEq, decide_eq_false_iff_not] at exact
    obtain ⟨rfl, fits⟩ := exact
    have positive : 0 < x.toNat := by
      simp only [not_or] at zero
      exact Nat.pos_of_ne_zero (fun eq => zero.1 (UInt64.toNat_inj.mp (by simpa using eq)))
    have le : y.toNat * x.toNat ≤ 2 ^ 64 - 1 := by
      have := UInt64.not_lt.mp fits
      rw [UInt64.le_iff_toNat_le, UInt64.toNat_div] at this
      exact (Nat.le_div_iff_mul_le positive).mp (by simpa [MaxUint64] using this)
    rw [UInt64.toNat_mul, Nat.mod_eq_of_lt (by rw [Nat.mul_comm]; omega)]

theorem resize_len {mem : Memory} (fits : mem.len < 2 ^ 64) (size : UInt64) :
    (mem.resize size).len = max mem.len size.toNat := by
  unfold Memory.resize
  split_ifs with grows
  · rw [UInt64.lt_iff_toNat_lt, UInt64.toNat_ofNat', Nat.mod_eq_of_lt fits] at grows
    simp [grows.le]
  · rw [UInt64.lt_iff_toNat_lt, UInt64.toNat_ofNat', Nat.mod_eq_of_lt fits] at grows
    simp [Nat.not_lt.mp grows]

@[simp] theorem resize_lastGasCost (mem : Memory) (size : UInt64) :
    (mem.resize size).lastGasCost = mem.lastGasCost := by
  unfold Memory.resize
  split_ifs <;> rfl

/-- One round keeps the invariant and turns gas into paid memory fee one for one. -/
theorem expandMemory_step {gas : UInt64} {mem : Memory} (inv : mem.Inv) {memSize gas' : UInt64}
    {mem' : Memory} (round : expandMemory gas mem memSize = .ok (gas', mem')) :
    mem'.Inv ∧ gas'.toNat + memoryCost (mem'.len / 32) = gas.toNat + memoryCost (mem.len / 32) := by
  unfold expandMemory at round
  rcases hm : safeMul (toWordSize memSize) 32 with ⟨memorySize, overflow⟩
  rw [hm] at round
  dsimp only at round
  cases overflow with
  | true => simp at round
  | false =>
    simp only [Bool.false_eq_true, if_false] at round
    have product := safeMul_toNat hm
    cases charged : memoryGasCost mem memorySize with
    | error e => rw [charged] at round; cases round
    | ok result =>
      obtain ⟨fee, mem₁⟩ := result
      rw [charged] at round
      dsimp only at round
      obtain ⟨len₁, paidFee, paid₁⟩ := memoryGasCost_ok inv charged
      split_ifs at round with poor positive <;>
        simp only [Except.ok.injEq, Prod.mk.injEq] at round <;> obtain ⟨rfl, rfl⟩ := round <;>
        rw [UInt64.toNat_sub_of_le _ _ (UInt64.not_lt.mp poor)]
      all_goals have feeLe : fee.toNat ≤ gas.toNat := UInt64.le_iff_toNat_le.mp (UInt64.not_lt.mp poor)
      · -- the memory is resized to the words charged for
        have small : memorySize ≤ 0x1FFFFFFFE0 := by
          refine UInt64.not_lt.mp fun big => ?_
          have failed : memoryGasCost mem memorySize = .error .gasUintOverflow :=
            memoryGasCost_eq_error_iff.mpr ⟨big, rfl⟩
          rw [charged] at failed
          cases failed
        have bound := UInt64.le_iff_toNat_le.mp small
        have words : (toWordSize memorySize).toNat = (toWordSize memSize).toNat := by
          rw [toWordSize_toNat small, product]
          simp only [UInt64.reduceToNat]
          omega
        have aligned := inv.aligned
        have bounded := inv.bounded
        have resized : (mem₁.resize memorySize).len / 32 =
            max (toWordSize memorySize).toNat (mem.len / 32) := by
          rw [resize_len (by omega) memorySize, len₁, words, product]
          simp only [UInt64.reduceToNat]
          omega
        refine ⟨⟨?_, ?_, ?_⟩, ?_⟩
        · rw [resize_len (by omega) memorySize, len₁, product]
          simp only [UInt64.reduceToNat]
          omega
        · rw [resize_len (by omega) memorySize, len₁]
          exact max_le inv.bounded (by simpa using bound)
        · rw [resize_lastGasCost, paid₁, resized]
        · rw [resized]
          omega
      · -- nothing asked: no fee and no resize
        have empty : memorySize = 0 := by
          simpa [gt_iff_lt, UInt64.lt_iff_toNat_lt, ← UInt64.toNat_inj] using positive
        subst empty
        simp only [toWordSize_zero, UInt64.toNat_zero, Nat.zero_max] at paidFee paid₁
        exact ⟨⟨len₁ ▸ inv.aligned, len₁ ▸ inv.bounded, len₁ ▸ paid₁⟩, by rw [len₁]; omega⟩

/-- Every memory a run reaches satisfies the invariant, and the gas spent is `C` of its words. -/
theorem memoryRun_inv (gas : UInt64) (sizes : List UInt64) {gas' : UInt64} {mem : Memory}
    (run : memoryRun gas sizes = .ok (gas', mem)) :
    mem.Inv ∧ gas'.toNat + memoryCost (mem.len / 32) = gas.toNat :=
  foldlM_invariant (fun state => state.2.Inv ∧ state.1.toNat + memoryCost (state.2.len / 32) = gas.toNat)
    _ sizes (gas, newMemory) (gas', mem)
    (fun _ _ _ _ ⟨inv, spent⟩ round =>
      ⟨(expandMemory_step inv round).1, (expandMemory_step inv round).2.trans spent⟩)
    ⟨newMemory_inv, by simp [newMemory, memoryCost]⟩ run

theorem memoryGasCost_never_wraps (gas : UInt64) (sizes : List UInt64) (gas' : UInt64) (mem : Memory)
    (run : memoryRun gas sizes = .ok (gas', mem)) :
    mem.lastGasCost.toNat = memoryCost (mem.len / 32) ∧ mem.len % 32 = 0 ∧
      gas'.toNat + memoryCost (mem.len / 32) = gas.toNat ∧
      ∀ newMemSize : UInt64,
        (memoryGasCost mem newMemSize = .error .gasUintOverflow ↔ 0x1FFFFFFFE0 < newMemSize) ∧
        ∀ fee mem', memoryGasCost mem newMemSize = .ok (fee, mem') →
          fee.toNat + memoryCost (mem.len / 32) =
            memoryCost (max (toWordSize newMemSize).toNat (mem.len / 32)) := by
  obtain ⟨inv, spent⟩ := memoryRun_inv gas sizes run
  refine ⟨inv.paid, inv.aligned, spent, fun newMemSize => ⟨?_, fun fee mem' charged => ?_⟩⟩
  · rw [memoryGasCost_eq_error_iff]
    simp
  · exact (memoryGasCost_ok inv charged).2.1

theorem memoryGasCost_never_wraps_after_three_requests :
    memoryRun 1000 [64, 32, 96] = .ok (991, ⟨96, 9⟩) ∧
      (991 : UInt64).toNat + memoryCost ((⟨96, 9⟩ : Memory).len / 32) = (1000 : UInt64).toNat :=
  have run : memoryRun 1000 [64, 32, 96] = .ok (991, ⟨96, 9⟩) := by decide
  ⟨run, (memoryGasCost_never_wraps 1000 [64, 32, 96] 991 ⟨96, 9⟩ run).2.2.1⟩

end SimpleChain.Vm
