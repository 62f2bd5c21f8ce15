import Mathlib

/-! # Jump-destination analysis (`core/vm/analysis.go`)

`codeBitmap` marks every byte of `code` that is the immediate data of a PUSH1..PUSH32, one bit
per byte, most significant bit first; `codeSegment` reads a mark back, and a jump is let through
only to an unmarked `JUMPDEST`.  The marks are written eight at a time by `set8`, which straddles
two bytes, and one at a time by `set`; a PUSH near the end writes past the code, into the four
spare bytes of the bitmap.  Go's run-time index check is the `none` of every write.

The left-to-right decoding of the code is the orbit of 0 under "skip this instruction and its
immediates"; a growing step cuts the numbers into the intervals between consecutive points of
its orbit, and that is what makes "not a mark" the same as "an instruction start". -/
set_option autoImplicit false

/-! ## Orbits of a growing step -/

namespace Orbit

section Growing
variable {f : ℕ → ℕ} (grows : ∀ n, n < f n)
include grows

theorem iterate_strictMono : StrictMono fun k => f^[k] 0 :=
  strictMono_nat_of_lt_succ fun k => by
    rw [Function.iterate_succ_apply']
    exact grows _

/-- A later point of the orbit is at least the step from an earlier one. -/
theorem step_le_of_lt {i j : ℕ} (lt : f^[i] 0 < f^[j] 0) : f (f^[i] 0) ≤ f^[j] 0 := by
  have ij : i < j := (iterate_strictMono grows).lt_iff_lt.mp lt
  rw [← Function.iterate_succ_apply' f i]
  exact (iterate_strictMono grows).monotone ij

/-- Every number lies in the interval from one point of the orbit to the next. -/
theorem exists_segment (q : ℕ) : ∃ k, f^[k] 0 ≤ q ∧ q < f^[k + 1] 0 := by
  induction q with
  | zero => exact ⟨0, le_rfl, by simpa using grows 0⟩
  | succ q ih =>
    obtain ⟨k, le, lt⟩ := ih
    rcases Nat.lt_or_ge (q + 1) (f^[k + 1] 0) with inside | reached
    · exact ⟨k, by omega, inside⟩
    · refine ⟨k + 1, by omega, ?_⟩
      rw [Function.iterate_succ_apply']
      have next := grows (f^[k + 1] 0)
      omega

end Growing

end Orbit

namespace SimpleChain.Vm

/-! ## The model -/

def PUSH1 : UInt8 := 0x60

def PUSH32 : UInt8 := 0x7f

/-- A bit vector over the bytes of a program; a set bit marks PUSH data. -/
structure Bitvec where
  bytes : List UInt8

/-- `(*bits)[i] |= mask`; an index past the end of the slice is Go's run-time panic. -/
def Bitvec.orAt (bits : Bitvec) (i : ℕ) (mask : UInt8) : Option Bitvec :=
  if i < bits.bytes.length then some ⟨bits.bytes.modify i (· ||| mask)⟩ else none

def Bitvec.set (bits : Bitvec) (pos : ℕ) : Option Bitvec :=
  bits.orAt (pos / 8) (0x80 >>> (pos % 8).toUInt8)

def Bitvec.set8 (bits : Bitvec) (pos : ℕ) : Option Bitvec := do
  let bits ← bits.orAt (pos / 8) (0xFF >>> (pos % 8).toUInt8)
  bits.orAt (pos / 8 + 1) (~~~(0xFF >>> (pos % 8).toUInt8))

def Bitvec.codeSegment (bits : Bitvec) (pos : ℕ) : Option Bool :=
  bits.bytes[pos / 8]?.map fun b => (b &&& (0x80 >>> (pos % 8).toUInt8)) == 0

/-- `for ; numbits >= 8; numbits -= 8 { bits.set8(pc); pc += 8 }`, which runs `numbits / 8`
times. -/
def Bitvec.set8Run (bits : Bitvec) (pc : ℕ) : ℕ → Option Bitvec
  | 0 => some bits
  | count + 1 => do (← bits.set8 pc).set8Run (pc + 8) count

/-- `for ; numbits > 0; numbits-- { bits.set(pc); pc++ }` -/
def Bitvec.setRun (bits : Bitvec) (pc : ℕ) : ℕ → Option Bitvec
  | 0 => some bits
  | count + 1 => do (← bits.set pc).setRun (pc + 1) count

/-- The loop of `codeBitmap` from `pc` on.  Each round moves `pc` forward, so `fuel` of
`len(code)` never runs out before `pc` leaves the code. -/
def codeBitmapLoop (code : List UInt8) : ℕ → ℕ → Bitvec → Option Bitvec
  | 0, _, bits => some bits
  | fuel + 1, pc, bits =>
    match code[pc]? with
    | none => some bits
    | some op =>
      if PUSH1 ≤ op ∧ op ≤ PUSH32 then
        let numbits := (op - PUSH1 + 1).toNat
        do
          let bits ← bits.set8Run (pc + 1) (numbits / 8)
          let bits ← bits.setRun (pc + 1 + numbits / 8 * 8) (numbits % 8)
          codeBitmapLoop code fuel (pc + 1 + numbits) bits
      else codeBitmapLoop code fuel (pc + 1) bits

/-- The bitmap is 4 bytes longer than necessary, for a PUSH32 at the end of the code. -/
def codeBitmap (code : List UInt8) : Option Bitvec :=
  codeBitmapLoop code code.length 0 ⟨List.replicate (code.length / 8 + 1 + 4) 0⟩

/-! ## The decoding of the code -/

def immediateSize (op : UInt8) : ℕ :=
  if PUSH1 ≤ op ∧ op ≤ PUSH32 then (op - PUSH1 + 1).toNat else 0

/-- The start of the instruction after the one at `pc`; past the end the code reads as STOP. -/
def nextInstr (code : List UInt8) (pc : ℕ) : ℕ :=
  pc + 1 + immediateSize (code.getD pc 0)

/-- `p` starts an instruction of the left-to-right decoding of `code`. -/
def InstrStart (code : List UInt8) (p : ℕ) : Prop :=
  ∃ k, (nextInstr code)^[k] 0 = p

/-- `q` is an immediate byte of the instruction at `p`. -/
def DataOf (code : List UInt8) (p q : ℕ) : Prop :=
  InstrStart code p ∧ p < code.length ∧ p < q ∧ q < nextInstr code p

/-- Bit `q` of the vector, most significant bit of each byte first. -/
def Bitvec.bit (bits : Bitvec) (q : ℕ) : Bool :=
  (bits.bytes.getD (q / 8) 0).toBitVec.getMsbD (q % 8)

theorem nextInstr_grows (code : List UInt8) (pc : ℕ) : pc < nextInstr code pc := by
  unfold nextInstr
  omega

theorem instrStart_zero (code : List UInt8) : InstrStart code 0 :=
  ⟨0, rfl⟩

theorem InstrStart.next {code : List UInt8} {p : ℕ} (start : InstrStart code p) :
    InstrStart code (nextInstr code p) := by
  obtain ⟨k, rfl⟩ := start
  exact ⟨k + 1, Function.iterate_succ_apply' _ k 0⟩

/-- Two instruction starts are at least one instruction apart. -/
theorem InstrStart.next_le {code : List UInt8} {p q : ℕ} (hp : InstrStart code p)
    (hq : InstrStart code q) (lt : p < q) : nextInstr code p ≤ q := by
  obtain ⟨i, rfl⟩ := hp
  obtain ⟨j, rfl⟩ := hq
  exact Orbit.step_le_of_lt (nextInstr_grows code) lt

/-- The starts from `pc` on are `pc` and the starts from the next instruction on. -/
theorem dataOf_from_iff {code : List UInt8} {pc q : ℕ} (start : InstrStart code pc) :
    (∃ p, pc ≤ p ∧ DataOf code p q) ↔
      (pc < code.length ∧ pc < q ∧ q < nextInstr code pc) ∨
        ∃ p, nextInstr code pc ≤ p ∧ DataOf code p q := by
  constructor
  · rintro ⟨p, le, data⟩
    rcases le.eq_or_lt with rfl | lt
    · exact .inl data.2
    · exact .inr ⟨p, start.next_le data.1 lt, data⟩
  · rintro (⟨inside, after, before⟩ | ⟨p, le, data⟩)
    · exact ⟨pc, le_rfl, start, inside, after, before⟩
    · exact ⟨p, (nextInstr_grows code pc).le.trans le, data⟩

/-- A byte of the code is an instruction start or an immediate, never both. -/
theorem instrStart_iff_not_data {code : List UInt8} {q : ℕ} (inCode : q < code.length) :
    InstrStart code q ↔ ¬ ∃ p, DataOf code p q := by
  constructor
  · rintro start ⟨p, hp, -, after, before⟩
    exact absurd (hp.next_le start after) (by omega)
  · intro notData
    obtain ⟨k, le, lt⟩ := Orbit.exists_segment (nextInstr_grows code) q
    rw [Function.iterate_succ_apply'] at lt
    rcases le.eq_or_lt with eq | after
    · exact ⟨k, eq⟩
    · exact absurd ⟨_, ⟨k, rfl⟩, by omega, after, lt⟩ notData

theorem immediateSize_le (op : UInt8) : immediateSize op ≤ 32 := by
  unfold immediateSize
  split
  · next push =>
    have bounds : 96 ≤ op.toNat ∧ op.toNat ≤ 127 := by
      simpa [PUSH1, PUSH32, UInt8.le_iff_toNat_le] using push
    rw [UInt8.toNat_add, UInt8.toNat_sub_of_le _ _ push.1]
    simp only [PUSH1, UInt8.reduceToNat]
    omega
  · omega

/-! ## The masks -/

theorem getMsbD_128 (j : ℕ) : (128#8).getMsbD j = decide (j = 0) := by
  rcases Nat.lt_or_ge j 8 with lt | ge
  · interval_cases j <;> rfl
  · simp [BitVec.getMsbD, show ¬ j < 8 by omega, show j ≠ 0 by omega]

theorem getMsbD_255 (j : ℕ) : (255#8).getMsbD j = decide (j < 8) := by
  rcases Nat.lt_or_ge j 8 with lt | ge
  · interval_cases j <;> rfl
  · simp [BitVec.getMsbD, show ¬ j < 8 by omega]

section Masks
variable {i : ℕ} (hi : i < 8) (k : ℕ)
include hi

/-- The mask of `set`: the one bit `i`. -/
theorem getMsbD_bitMask : ((0x80 : UInt8) >>> i.toUInt8).toBitVec.getMsbD k = decide (k = i) := by
  simp [getMsbD_128, Nat.mod_eq_of_lt hi]
  grind

/-- The first mask of `set8`: bits `i` to 7. -/
theorem getMsbD_lowMask : ((0xFF : UInt8) >>> i.toUInt8).toBitVec.getMsbD k = decide (i ≤ k ∧ k < 8) := by
  simp [getMsbD_255, Nat.mod_eq_of_lt hi]
  grind

/-- The second mask of `set8`: bits 0 to `i - 1`. -/
theorem getMsbD_highMask : (~~~((0xFF : UInt8) >>> i.toUInt8)).toBitVec.getMsbD k = decide (k < i) := by
  simp [getMsbD_255, Nat.mod_eq_of_lt hi]
  grind

omit k in
/-- The test of `codeSegment` reads bit `i`. -/
theorem and_bitMask_eq_zero (b : UInt8) :
    ((b &&& (0x80 : UInt8) >>> i.toUInt8) == 0) = !b.toBitVec.getMsbD i := by
  rw [Bool.eq_iff_iff, beq_iff_eq, ← UInt8.toBitVec_inj]
  simp only [UInt8.toBitVec_and, UInt8.toBitVec_shiftRight, UInt8.toBitVec_zero, Bool.not_eq_true']
  constructor
  · intro zero
    have atBit := congrArg (·.getMsbD i) zero
    simpa [getMsbD_128, Nat.mod_eq_of_lt hi, hi] using atBit
  · intro clear
    apply BitVec.eq_of_getMsbD_eq
    intro j lt
    simp [getMsbD_128, Nat.mod_eq_of_lt hi]
    grind

end Masks

/-! ## The writes -/

namespace Bitvec

theorem bit_orAt {bits : Bitvec} {i : ℕ} (lt : i < bits.bytes.length) (mask : UInt8) (q : ℕ) :
    (Bitvec.mk (bits.bytes.modify i (· ||| mask))).bit q =
      (bits.bit q || decide (q / 8 = i) && mask.toBitVec.getMsbD (q % 8)) := by
  simp only [bit, List.getD_eq_getElem?_getD, List.getElem?_modify]
  by_cases same : q / 8 = i
  · subst same
    simp [List.getElem?_eq_getElem lt]
  · simp [Ne.symm same, same]

theorem codeSegment_eq {bits : Bitvec} {pos : ℕ} (lt : pos / 8 < bits.bytes.length) :
    bits.codeSegment pos = some !(bits.bit pos) := by
  simp [codeSegment, bit, List.getElem?_eq_getElem lt, and_bitMask_eq_zero (Nat.mod_lt pos (by omega))]

/-- A successful write keeps the length and only adds the bits `marked` says. -/
def Marks (bits bits' : Bitvec) (marked : ℕ → Prop) : Prop :=
  bits'.bytes.length = bits.bytes.length ∧ ∀ q, bits'.bit q = true ↔ bits.bit q = true ∨ marked q

theorem Marks.trans {bits bits' bits'' : Bitvec} {marked marked' : ℕ → Prop}
    (first : Marks bits bits' marked) (second : Marks bits' bits'' marked') :
    Marks bits bits'' fun q => marked q ∨ marked' q :=
  ⟨second.1.trans first.1, fun q => by rw [second.2, first.2, or_assoc]⟩

theorem Marks.congr {bits bits' : Bitvec} {marked marked' : ℕ → Prop} (marks : Marks bits bits' marked)
    (same : ∀ q, marked q ↔ marked' q) : Marks bits bits' marked' :=
  ⟨marks.1, fun q => by rw [marks.2, same]⟩

theorem orAt_marks {bits : Bitvec} {i : ℕ} (lt : i < bits.bytes.length) (mask : UInt8) :
    ∃ bits', bits.orAt i mask = some bits' ∧
      Marks bits bits' fun q => q / 8 = i ∧ mask.toBitVec.getMsbD (q % 8) = true :=
  ⟨_, if_pos lt, by simp, fun q => by simp [bit_orAt lt]⟩

theorem set_marks {bits : Bitvec} {pos : ℕ} (lt : pos < 8 * bits.bytes.length) :
    ∃ bits', bits.set pos = some bits' ∧ Marks bits bits' (· = pos) := by
  obtain ⟨bits', wrote, marks⟩ := orAt_marks (show pos / 8 < bits.bytes.length by omega)
    ((0x80 : UInt8) >>> (pos % 8).toUInt8)
  refine ⟨bits', wrote, marks.congr fun q => ?_⟩
  rw [getMsbD_bitMask (Nat.mod_lt pos (by omega)), decide_eq_true_eq]
  omega

theorem set8_marks {bits : Bitvec} {pos : ℕ} (lt : pos / 8 + 1 < bits.bytes.length) :
    ∃ bits', bits.set8 pos = some bits' ∧ Marks bits bits' fun q => pos ≤ q ∧ q < pos + 8 := by
  obtain ⟨bits₁, low, first⟩ := orAt_marks (show pos / 8 < bits.bytes.length by omega)
    ((0xFF : UInt8) >>> (pos % 8).toUInt8)
  obtain ⟨bits', high, second⟩ := orAt_marks (show pos / 8 + 1 < bits₁.bytes.length by rw [first.1]; omega)
    (~~~((0xFF : UInt8) >>> (pos % 8).toUInt8))
  refine ⟨bits', by simp [set8, low, high], (first.trans second).congr fun q => ?_⟩
  rw [getMsbD_lowMask (Nat.mod_lt pos (by omega)), getMsbD_highMask (Nat.mod_lt pos (by omega)),
    decide_eq_true_eq, decide_eq_true_eq]
  omega

theorem Marks.of_forall_not {bits : Bitvec} {marked : ℕ → Prop} (none : ∀ q, ¬ marked q) :
    Marks bits bits marked :=
  ⟨rfl, fun q => by simp [none q]⟩

theorem setRun_marks : ∀ (count pc : ℕ) (bits : Bitvec), pc + count ≤ 8 * bits.bytes.length →
    ∃ bits', bits.setRun pc count = some bits' ∧ Marks bits bits' fun q => pc ≤ q ∧ q < pc + count
  | 0, pc, bits, _ => ⟨bits, rfl, rfl, fun q => by simp⟩
  | count + 1, pc, bits, fits => by
    obtain ⟨bits₁, wrote, first⟩ := set_marks (show pc < 8 * bits.bytes.length by omega)
    obtain ⟨bits', rest, later⟩ := setRun_marks count (pc + 1) bits₁ (by rw [first.1]; omega)
    refine ⟨bits', by simp [setRun, wrote, rest], (first.trans later).congr fun q => ?_⟩
    omega

theorem set8Run_marks : ∀ (count pc : ℕ) (bits : Bitvec), pc / 8 + count < bits.bytes.length →
    ∃ bits', bits.set8Run pc count = some bits' ∧ Marks bits bits' fun q => pc ≤ q ∧ q < pc + 8 * count
  | 0, pc, bits, _ => ⟨bits, rfl, rfl, fun q => by simp⟩
  | count + 1, pc, bits, fits => by
    obtain ⟨bits₁, wrote, first⟩ := set8_marks (show pc / 8 + 1 < bits.bytes.length by omega)
    obtain ⟨bits', rest, later⟩ := set8Run_marks count (pc + 8) bits₁ (by rw [first.1]; omega)
    refine ⟨bits', by simp [set8Run, wrote, rest], (first.trans later).congr fun q => ?_⟩
    omega

end Bitvec

/-! ## The loop -/

/-- One round of the loop marks the immediates of the instruction at `pc` and goes on from the
next one; an instruction other than a PUSH has none. -/
theorem codeBitmapLoop_succ {code : List UInt8} {fuel pc : ℕ} {bits : Bitvec} {op : UInt8}
    (atPc : code[pc]? = some op) :
    codeBitmapLoop code (fuel + 1) pc bits =
      (bits.set8Run (pc + 1) (immediateSize op / 8) >>= fun bits =>
        bits.setRun (pc + 1 + immediateSize op / 8 * 8) (immediateSize op % 8) >>= fun bits =>
          codeBitmapLoop code fuel (nextInstr code pc) bits) := by
  have next : nextInstr code pc = pc + 1 + immediateSize op := by
    simp [nextInstr, List.getD_eq_getElem?_getD, atPc]
  rw [next]
  by_cases push : PUSH1 ≤ op ∧ op ≤ PUSH32
  · simp only [codeBitmapLoop, atPc, immediateSize, if_pos push]
  · simp [codeBitmapLoop, atPc, immediateSize, push, Bitvec.set8Run, Bitvec.setRun]

/-- From an instruction start `pc` on, the loop marks exactly the immediates of the instructions
from `pc` on, and every write stays inside a bitmap of `len(code)/8 + 5` bytes. -/
theorem codeBitmapLoop_marks (code : List UInt8) :
    ∀ (fuel pc : ℕ) (bits : Bitvec), code.length ≤ pc + fuel → InstrStart code pc →
      code.length / 8 + 5 ≤ bits.bytes.length →
      ∃ bits', codeBitmapLoop code fuel pc bits = some bits' ∧
        bits.Marks bits' fun q => ∃ p, pc ≤ p ∧ DataOf code p q
  | 0, pc, bits, ended, _, _ =>
    ⟨bits, rfl, Bitvec.Marks.of_forall_not fun _ ⟨_, le, data⟩ => absurd data.2.1 (by omega)⟩
  | fuel + 1, pc, bits, ended, start, room => by
    cases atPc : code[pc]? with
    | none =>
      have past : code.length ≤ pc := List.getElem?_eq_none_iff.mp atPc
      exact ⟨bits, by simp [codeBitmapLoop, atPc],
        Bitvec.Marks.of_forall_not fun _ ⟨_, le, data⟩ => absurd data.2.1 (by omega)⟩
    | some op =>
      have inCode : pc < code.length := (List.getElem?_eq_some_iff.mp atPc).1
      have next : nextInstr code pc = pc + 1 + immediateSize op := by
        simp [nextInstr, List.getD_eq_getElem?_getD, atPc]
      have size := immediateSize_le op
      -- the PUSH data ends at most 32 bytes past the code: inside the 4 spare bytes
      obtain ⟨bits₁, run8, marks₁⟩ :=
        Bitvec.set8Run_marks (immediateSize op / 8) (pc + 1) bits (by omega)
      obtain ⟨bits₂, run1, marks₂⟩ :=
        Bitvec.setRun_marks (immediateSize op % 8) (pc + 1 + immediateSize op / 8 * 8) bits₁
          (by rw [marks₁.1]; omega)
      obtain ⟨bits', rest, marks'⟩ := codeBitmapLoop_marks code fuel (nextInstr code pc) bits₂
        (by omega) start.next (by rw [marks₂.1, marks₁.1]; exact room)
      refine ⟨bits', by simp [codeBitmapLoop_succ atPc, run8, run1, rest],
        ((marks₁.trans marks₂).trans marks').congr fun q => ?_⟩
      rw [dataOf_from_iff start]
      exact or_congr (by omega) Iff.rfl

theorem codeBitmap_marks (code : List UInt8) :
    ∃ bits, codeBitmap code = some bits ∧ bits.bytes.length = code.length / 8 + 5 ∧
      ∀ q, bits.bit q = true ↔ ∃ p, DataOf code p q := by
  obtain ⟨bits, loop, marks⟩ := codeBitmapLoop_marks code code.length 0
    ⟨List.replicate (code.length / 8 + 1 + 4) 0⟩ (by omega) (instrStart_zero code) (by simp)
  refine ⟨bits, loop, by simp [marks.1], fun q => ?_⟩
  rw [marks.2]
  simp [Bitvec.bit]

instance (code : List UInt8) : DecidablePred (InstrStart code) := fun p =>
  decidable_of_iff (∃ k < p + 1, (nextInstr code)^[k] 0 = p)
    ⟨fun ⟨k, _, eq⟩ => ⟨k, eq⟩, fun ⟨k, eq⟩ =>
      have le : k ≤ (nextInstr code)^[k] 0 := (Orbit.iterate_strictMono (nextInstr_grows code)).id_le k
      ⟨k, by omega, eq⟩⟩

theorem codeBitmap_marks_push_data (code : List UInt8) :
    ∃ bits, codeBitmap code = some bits ∧ bits.bytes.length = code.length / 8 + 5 ∧
      ∀ p < code.length, bits.codeSegment p = some (decide (InstrStart code p)) := by
  obtain ⟨bits, loop, length, marks⟩ := codeBitmap_marks code
  refine ⟨bits, loop, length, fun p inCode => ?_⟩
  rw [Bitvec.codeSegment_eq (by omega)]
  congr 1
  rw [Bool.eq_iff_iff, Bool.not_eq_true', decide_eq_true_eq, instrStart_iff_not_data inCode, ← marks]
  simp

/-- `PUSH1 0x5b; JUMPDEST`: the pushed `0x5b` is data, the second one is a jump destination. -/
example : (codeBitmap [0x60, 0x5b, 0x5b]).map (fun bits => (bits.codeSegment 1, bits.codeSegment 2)) =
    some (some false, some true) := by
  decide

end SimpleChain.Vm
