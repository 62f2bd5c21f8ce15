import Mathlib
import SimpleChain.Lib.Loop

/-! # Sparse bitset compression (`common/bitutil/compress.go`)

`CompressBytes` replaces a byte string by the bitset of its non-zero positions (most significant
bit first), itself compressed the same way, followed by the non-zero bytes; it keeps the input when
that is not shorter.  `DecompressBytes` reads the input back against a known target length.  The
light client decompresses bloom bit vectors it receives from the network, so the decoder must fail
cleanly on any input: its index operations are modelled as failing with `panicIndexOutOfRange`
where Go would panic, and `decompressBytes_outcome` is that this never happens.

Byte strings are lists of `UInt8`; a Go `nil` and an empty slice are both `[]`. -/
set_option autoImplicit false

namespace SimpleChain.Bitutil

open GoLoop

inductive CompressError
  /-- `errMissingData`: "missing bytes on input" -/
  | missingData
  /-- `errUnreferencedData`: "extra bytes on input" -/
  | unreferencedData
  /-- `errExceededTarget`: "target data size exceeded" -/
  | exceededTarget
  /-- `errZeroContent`: "zero byte in input content" -/
  | zeroContent
  /-- a Go run-time panic: index out of range -/
  | panicIndexOutOfRange
  deriving DecidableEq, Repr

/-- `s[i]`, panicking outside the slice. -/
def index (s : List UInt8) (i : ℕ) : Except CompressError UInt8 :=
  match s[i]? with
  | some b => pure b
  | none => throw .panicIndexOutOfRange

/-- `s[i] = b`, panicking outside the slice. -/
def store (s : List UInt8) (i : ℕ) (b : UInt8) : Except CompressError (List UInt8) :=
  if i < s.length then pure (s.set i b) else throw .panicIndexOutOfRange

/-- `1 << byte(7-i%8)`: the bit of position `i` in its bitset byte, most significant first. -/
def bitMask (i : ℕ) : UInt8 := 1 <<< UInt8.ofNat (7 - i % 8)

/-! ## Compression -/

/-- The loop `for i, b := range data` of `bitsetEncodeBytes`, from index `i` on: the bitset of
set bytes and the non-zero bytes gathered so far. -/
def encodeLoop : ℕ → List UInt8 → List UInt8 × List UInt8 → List UInt8 × List UInt8
  | _, [], acc => acc
  | i, b :: rest, (nonZeroBitset, nonZeroBytes) =>
    encodeLoop (i + 1) rest
      (if b ≠ 0 then (nonZeroBitset.modify (i / 8) (· ||| bitMask i), nonZeroBytes ++ [b])
       else (nonZeroBitset, nonZeroBytes))

/-- Setting bits never changes the bitset's length. -/
theorem length_encodeLoop (i : ℕ) (data : List UInt8) (acc : List UInt8 × List UInt8) :
    (encodeLoop i data acc).1.length = acc.1.length := by
  induction data generalizing i acc with
  | nil => rfl
  | cons b rest ih =>
    obtain ⟨nonZeroBitset, nonZeroBytes⟩ := acc
    rw [encodeLoop, ih]
    split <;> simp

def bitsetEncodeBytes (data : List UInt8) : List UInt8 :=
  if data.length = 0 then []
  else if data.length = 1 then
    if data.headD 0 = 0 then [] else data
  else
    let gathered := encodeLoop 0 data (List.replicate ((data.length + 7) / 8) 0, [])
    if gathered.2.length = 0 then []
    else bitsetEncodeBytes gathered.1 ++ gathered.2
termination_by data.length
decreasing_by
  rw [length_encodeLoop, List.length_replicate]
  omega

def CompressBytes (data : List UInt8) : List UInt8 :=
  let out := bitsetEncodeBytes data
  if out.length < data.length then out else data

/-! ## Decompression -/

/-- One iteration of the loop `for i := 0; i < 8*len(nonZeroBitset); i++` of
`bitsetDecodePartialBytes`: at a set bit, the next input byte goes to slot `i`. -/
def decodeStep (data nonZeroBitset : List UInt8) (state : List UInt8 × ℕ) (i : ℕ) :
    Except CompressError (List UInt8 × ℕ) := do
  let (decomp, ptr) := state
  let byte ← index nonZeroBitset (i / 8)
  if byte &&& bitMask i ≠ 0 then
    if ptr ≥ data.length then throw .missingData
    else if i ≥ decomp.length then throw .exceededTarget
    else do
      let b ← index data ptr
      if b = 0 then throw .zeroContent
      else do
        let decomp ← store decomp i b
        pure (decomp, ptr + 1)
  else pure (decomp, ptr)

/-- The output and the number of input bytes it was read from; on an error Go's size is not
looked at, so it is left out. -/
def bitsetDecodePartialBytes (data : List UInt8) (target : ℕ) :
    Except CompressError (List UInt8 × ℕ) :=
  if target = 0 then pure ([], 0)
  else
    let decomp := List.replicate target 0
    if data.length = 0 then pure (decomp, 0)
    else if target = 1 then do
      let first ← index data 0
      let decomp ← store decomp 0 first
      if first ≠ 0 then pure (decomp, 1) else pure (decomp, 0)
    else do
      let (nonZeroBitset, ptr) ← bitsetDecodePartialBytes data ((target + 7) / 8)
      (List.range (8 * nonZeroBitset.length)).foldlM (decodeStep data nonZeroBitset) (decomp, ptr)
termination_by target
decreasing_by omega

def bitsetDecodeBytes (data : List UInt8) (target : ℕ) : Except CompressError (List UInt8) := do
  let (out, size) ← bitsetDecodePartialBytes data target
  if size ≠ data.length then throw .unreferencedData else pure out

/-- `DecompressBytes` for a target `target ≥ 0` (Go's `make` panics on a negative one). -/
def DecompressBytes (data : List UInt8) (target : ℕ) : Except CompressError (List UInt8) :=
  if data.length > target then throw .exceededTarget
  else if data.length = target then pure data
  else bitsetDecodeBytes data target

/-! ## Bits of a bitset -/

/-- Bit `i` of a bitset: bit `7 - i % 8` of byte `i / 8`, read as zero past the end. -/
def bitAt (bitset : List UInt8) (i : ℕ) : Bool := (bitset.getD (i / 8) 0).toNat.testBit (7 - i % 8)

theorem toNat_bitMask (i : ℕ) : (bitMask i).toNat = 2 ^ (7 - i % 8) := by
  have small : 2 ^ (7 - i % 8) < 2 ^ 8 := Nat.pow_lt_pow_right (by decide) (by omega)
  rw [bitMask, UInt8.toNat_shiftLeft, UInt8.toNat_ofNat', Nat.mod_eq_of_lt (by omega : 7 - i % 8 < 2 ^ 8),
    Nat.mod_eq_of_lt (by omega : 7 - i % 8 < 8), UInt8.toNat_one, Nat.one_shiftLeft, Nat.mod_eq_of_lt small]

/-- The decoder's test `b & (1 << (7 - i % 8)) != 0` reads bit `i`. -/
theorem and_bitMask_ne_zero (b : UInt8) (i : ℕ) : b &&& bitMask i ≠ 0 ↔ b.toNat.testBit (7 - i % 8) := by
  rw [Ne, ← UInt8.toNat_inj, UInt8.toNat_and, toNat_bitMask, Nat.and_two_pow, UInt8.toNat_zero]
  cases b.toNat.testBit (7 - i % 8) <;> simp

theorem testBit_or_bitMask (b : UInt8) (i j : ℕ) (low : j < 8) :
    (b ||| bitMask i).toNat.testBit (7 - j) = (b.toNat.testBit (7 - j) || decide (j = i % 8)) := by
  rw [UInt8.toNat_or, toNat_bitMask, Nat.testBit_or, Nat.testBit_two_pow]
  congr 1
  apply decide_eq_decide.mpr
  omega

@[simp] theorem bitAt_replicate_zero (n i : ℕ) : bitAt (List.replicate n 0) i = false := by
  simp [bitAt, List.getD_eq_getElem?_getD, List.getElem?_replicate]
  split <;> simp

/-- Setting the bit of position `i` inside the bitset sets that one bit. -/
theorem bitAt_modify (bitset : List UInt8) {i : ℕ} (inside : i / 8 < bitset.length) (j : ℕ) :
    bitAt (bitset.modify (i / 8) (· ||| bitMask i)) j = (bitAt bitset j || decide (j = i)) := by
  simp only [bitAt, List.getD_eq_getElem?_getD, List.getElem?_modify]
  by_cases same : i / 8 = j / 8
  · rw [← same, List.getElem?_eq_getElem inside]
    simp only [Option.map_eq_map, Option.map_some, Option.getD_some, ↓reduceIte]
    rw [testBit_or_bitMask _ _ _ (Nat.mod_lt _ (by decide))]
    congr 1
    apply decide_eq_decide.mpr
    omega
  · have other : j ≠ i := fun eq => same (eq ▸ rfl)
    simp [same, other]

/-- `bitset` marks the non-zero bytes of `data`: the bitset `bitsetEncodeBytes` builds. -/
structure Marks (bitset data : List UInt8) : Prop where
  length_eq : bitset.length = (data.length + 7) / 8
  bitAt_eq : ∀ j, bitAt bitset j = decide (data.getD j 0 ≠ 0)

/-! ## The compression loop -/

theorem encodeLoop_nonZeroBytes (i : ℕ) (data : List UInt8) (acc : List UInt8 × List UInt8) :
    (encodeLoop i data acc).2 = acc.2 ++ data.filter (· ≠ 0) := by
  induction data generalizing i acc with
  | nil => simp [encodeLoop]
  | cons b rest ih =>
    obtain ⟨nonZeroBitset, nonZeroBytes⟩ := acc
    rw [encodeLoop, ih]
    by_cases zero : b = 0 <;> simp [zero]

theorem getD_cons_sub (b : UInt8) (rest : List UInt8) {i j : ℕ} (le : i ≤ j) :
    (b :: rest).getD (j - i) 0 = if j = i then b else rest.getD (j - (i + 1)) 0 := by
  split
  case isTrue same => simp [same]
  case isFalse other =>
    rw [show j - i = j - (i + 1) + 1 by omega]
    rfl

/-- The loop from position `i` sets the bits of the non-zero bytes it passes. -/
theorem bitAt_encodeLoop (i : ℕ) (data bitset bytes : List UInt8) (inside : i + data.length ≤ 8 * bitset.length)
    (j : ℕ) :
    bitAt (encodeLoop i data (bitset, bytes)).1 j = (bitAt bitset j || decide (i ≤ j ∧ data.getD (j - i) 0 ≠ 0)) := by
  induction data generalizing i bitset bytes with
  | nil => simp [encodeLoop]
  | cons b rest ih =>
    simp only [List.length_cons] at inside
    have here : i / 8 < bitset.length := by omega
    rw [encodeLoop]
    split
    case isTrue nonzero =>
      rw [ih _ _ _ (by rw [List.length_modify]; omega), bitAt_modify _ here]
      rcases Nat.lt_or_ge j i with before | after
      · simp [Nat.not_le.mpr before, show ¬ i + 1 ≤ j by omega, show j ≠ i by omega]
      · rw [getD_cons_sub b rest after]
        by_cases same : j = i
        · simp [same, nonzero]
        · simp [same, after, show i + 1 ≤ j by omega]
    case isFalse zero =>
      rw [ih _ _ _ (by omega)]
      rcases Nat.lt_or_ge j i with before | after
      · simp [Nat.not_le.mpr before, show ¬ i + 1 ≤ j by omega]
      · rw [getD_cons_sub b rest after]
        by_cases same : j = i
        · simp [same, not_not.mp zero]
        · simp [same, after, show i + 1 ≤ j by omega]

theorem marks_encodeLoop (data : List UInt8) :
    Marks (encodeLoop 0 data (List.replicate ((data.length + 7) / 8) 0, [])).1 data where
  length_eq := by rw [length_encodeLoop, List.length_replicate]
  bitAt_eq j := by
    rw [bitAt_encodeLoop _ _ _ _ (by rw [List.length_replicate]; omega)]
    simp

/-- `CompressBytes`' recursion: past one byte, a string with a non-zero byte compresses to the
compressed bitset of its non-zero bytes, then those bytes. -/
theorem bitsetEncodeBytes_of_two_le {data : List UInt8} (two : 2 ≤ data.length) (nonzero : ∃ b ∈ data, b ≠ 0) :
    ∃ bitset, Marks bitset data ∧
      bitsetEncodeBytes data = bitsetEncodeBytes bitset ++ data.filter (· ≠ 0) := by
  have gathered := encodeLoop_nonZeroBytes 0 data (List.replicate ((data.length + 7) / 8) 0, [])
  have some : data.filter (· ≠ 0) ≠ [] := by
    obtain ⟨b, mem, ne⟩ := nonzero
    exact List.ne_nil_of_mem (List.mem_filter.mpr ⟨mem, by simpa using ne⟩)
  refine ⟨_, marks_encodeLoop data, ?_⟩
  rw [bitsetEncodeBytes, if_neg (by omega), if_neg (by omega)]
  simp only [List.nil_append] at gathered
  simp only [gathered, List.length_eq_zero_iff, some, if_false]

/-- A string of zero bytes compresses to nothing. -/
theorem bitsetEncodeBytes_of_zero {data : List UInt8} (zero : ∀ b ∈ data, b = 0) : bitsetEncodeBytes data = [] := by
  have none : data.filter (· ≠ 0) = [] := List.filter_eq_nil_iff.mpr (by simpa using zero)
  rw [bitsetEncodeBytes]
  split
  case isTrue => rfl
  split
  case isTrue one =>
    obtain ⟨b, rfl⟩ := List.length_eq_one_iff.mp one
    simp [zero]
  have gathered := encodeLoop_nonZeroBytes 0 data (List.replicate ((data.length + 7) / 8) 0, [])
  simp only [List.nil_append, none] at gathered
  simp [gathered]

/-! ## The decompression loop on a compressed string -/

theorem index_eq_ok {s : List UInt8} {i : ℕ} (lt : i < s.length) : index s i = pure s[i] := by
  simp [index, List.getElem?_eq_getElem lt]

theorem store_eq_ok {s : List UInt8} {i : ℕ} (lt : i < s.length) (b : UInt8) : store s i b = pure (s.set i b) := by
  simp [store, lt]

/-- The decoder's output once the first `k` positions of `d` are written. -/
def filled (d : List UInt8) (k : ℕ) : List UInt8 := d.take k ++ List.replicate (d.length - k) 0

@[simp] theorem length_filled (d : List UInt8) (k : ℕ) : (filled d k).length = d.length := by
  simp only [filled, List.length_append, List.length_take, List.length_replicate]
  omega

theorem filled_of_le {d : List UInt8} {k : ℕ} (le : d.length ≤ k) : filled d k = d := by
  simp [filled, List.take_of_length_le le, Nat.sub_eq_zero_of_le le]

theorem filled_succ {d : List UInt8} {k : ℕ} (lt : k < d.length) :
    filled d (k + 1) = (filled d k).set k d[k] := by
  have rest : d.length - k = d.length - (k + 1) + 1 := by omega
  rw [filled, filled, rest, List.replicate_succ, List.set_append_right _ _ (by simp),
    List.take_add_one, List.getElem?_eq_getElem lt]
  simp only [List.length_take, Nat.min_eq_left lt.le, Nat.sub_self, List.set_cons_zero, Option.toList_some,
    List.append_assoc, List.singleton_append]

theorem filled_succ_of_zero {d : List UInt8} {k : ℕ} (zero : d.getD k 0 = 0) : filled d (k + 1) = filled d k := by
  rcases Nat.lt_or_ge k d.length with lt | ge
  · rw [List.getD_eq_getElem _ _ lt] at zero
    have rest : d.length - k = d.length - (k + 1) + 1 := by omega
    rw [filled, filled, rest, List.replicate_succ, List.take_add_one, List.getElem?_eq_getElem lt, zero]
    simp
  · rw [filled_of_le ge, filled_of_le (by omega)]

theorem filter_take_succ (d : List UInt8) (k : ℕ) :
    (d.take (k + 1)).filter (· ≠ 0) =
      (d.take k).filter (· ≠ 0) ++ if d.getD k 0 ≠ 0 then [d.getD k 0] else [] := by
  rcases Nat.lt_or_ge k d.length with lt | ge
  · rw [List.take_add_one, List.getElem?_eq_getElem lt, List.getD_eq_getElem _ _ lt, List.filter_append]
    by_cases zero : d[k] = 0 <;> simp [zero]
  · rw [List.take_of_length_le (by omega), List.take_of_length_le ge, List.getD_eq_default _ _ ge]
    simp

/-- Past the non-zero bytes of the first `k` positions, the next one is that of position `k`. -/
theorem getElem?_filter_take {d : List UInt8} {k : ℕ} (lt : k < d.length) (nonzero : d[k] ≠ 0) :
    (d.filter (· ≠ 0))[((d.take k).filter (· ≠ 0)).length]? = some d[k] := by
  have split : d.filter (· ≠ 0) = (d.take k).filter (· ≠ 0) ++ d[k] :: (d.drop (k + 1)).filter (· ≠ 0) := by
    conv_lhs => rw [← List.take_append_drop k d]
    rw [List.drop_eq_getElem_cons lt, List.filter_append, List.filter_cons_of_pos (by simpa using nonzero)]
  rw [split, List.getElem?_append_right le_rfl, Nat.sub_self]
  rfl

theorem Marks.bit_iff {bitset d : List UInt8} (marks : Marks bitset d) {k : ℕ} (inside : k / 8 < bitset.length) :
    bitset[k / 8] &&& bitMask k ≠ 0 ↔ d.getD k 0 ≠ 0 := by
  have bit := marks.bitAt_eq k
  rw [bitAt, List.getD_eq_getElem _ _ inside] at bit
  rw [and_bitMask_ne_zero, bit, decide_eq_true_iff]

section Loop
variable {d bitset pre rest : List UInt8}

/-- One iteration at position `k` writes byte `k` of `d` when it is non-zero, and takes it from
the input. -/
theorem decodeStep_marks (marks : Marks bitset d) {k : ℕ} (hk : k < 8 * bitset.length) :
    decodeStep (pre ++ d.filter (· ≠ 0) ++ rest) bitset
        (filled d k, pre.length + ((d.take k).filter (· ≠ 0)).length) k =
      .ok (filled d (k + 1), pre.length + ((d.take (k + 1)).filter (· ≠ 0)).length) := by
  have inside : k / 8 < bitset.length := by omega
  rw [filter_take_succ, decodeStep]
  simp only [index_eq_ok inside, pure_bind]
  by_cases nonzero : d.getD k 0 ≠ 0
  · have lt : k < d.length := by
      by_contra ge
      exact nonzero (List.getD_eq_default _ _ (Nat.not_lt.mp ge))
    rw [List.getD_eq_getElem _ _ lt] at nonzero
    -- the pointer stands on byte `k` of `d` among the input's non-zero bytes
    have next := getElem?_filter_take lt nonzero
    have counted : ((d.take k).filter (· ≠ 0)).length < (d.filter (· ≠ 0)).length :=
      (List.getElem?_eq_some_iff.mp next).1
    have input : (pre ++ d.filter (· ≠ 0) ++ rest)[pre.length + ((d.take k).filter (· ≠ 0)).length]? = some d[k] := by
      rw [List.append_assoc, List.getElem?_append_right (by omega), Nat.add_sub_cancel_left,
        List.getElem?_append_left counted, next]
    have ptr := (List.getElem?_eq_some_iff.mp input).1
    rw [if_pos ((marks.bit_iff inside).mpr (by rwa [List.getD_eq_getElem _ _ lt])), if_neg (by omega),
      if_neg (by simp; omega), index_eq_ok ptr, (List.getElem?_eq_some_iff.mp input).2]
    simp only [pure_bind]
    rw [if_neg nonzero, store_eq_ok (by simpa using lt)]
    rw [List.getD_eq_getElem _ _ lt]
    simp [filled_succ lt, nonzero, Nat.add_assoc]
  · have zero : d.getD k 0 = 0 := not_not.mp nonzero
    rw [if_neg (mt (marks.bit_iff inside).mp nonzero), filled_succ_of_zero zero]
    simpa [List.getD_eq_getElem?_getD] using zero

/-- The loop over the first `k` bits writes the first `k` positions of `d`. -/
theorem decodeLoop_marks (marks : Marks bitset d) :
    ∀ k ≤ 8 * bitset.length,
      (List.range k).foldlM (decodeStep (pre ++ d.filter (· ≠ 0) ++ rest) bitset)
          (List.replicate d.length 0, pre.length) =
        .ok (filled d k, pre.length + ((d.take k).filter (· ≠ 0)).length)
  | 0, _ => by simp [filled]
  | k + 1, hk => by
    rw [List.range_succ, List.foldlM_append, decodeLoop_marks marks k (by omega), ok_bind]
    simp only [List.foldlM_cons, List.foldlM_nil]
    rw [decodeStep_marks marks (by omega), ok_bind]
    rfl

end Loop

/-- A string with a non-zero byte has a bitset with a non-zero byte. -/
theorem Marks.exists_ne_zero {bitset d : List UInt8} (marks : Marks bitset d) (nonzero : ∃ b ∈ d, b ≠ 0) :
    ∃ b ∈ bitset, b ≠ 0 := by
  obtain ⟨b, mem, ne⟩ := nonzero
  obtain ⟨k, lt, rfl⟩ := List.mem_iff_getElem.mp mem
  have inside : k / 8 < bitset.length := by rw [marks.length_eq]; omega
  have set := marks.bitAt_eq k
  rw [List.getD_eq_getElem _ _ lt, decide_eq_true ne, bitAt, List.getD_eq_getElem _ _ inside] at set
  refine ⟨bitset[k / 8], List.getElem_mem inside, fun zero => ?_⟩
  rw [zero] at set
  simp at set

/-! ## The round trip -/

/-- The decoder reads back a compressed string with a non-zero byte, whatever follows it, and
reports the compressed length. -/
theorem bitsetDecodePartialBytes_encode (d : List UInt8) (nonzero : ∃ b ∈ d, b ≠ 0) (rest : List UInt8) :
    bitsetDecodePartialBytes (bitsetEncodeBytes d ++ rest) d.length = .ok (d, (bitsetEncodeBytes d).length) := by
  -- strong induction on the length: the bitset is shorter than the string past one byte
  induction length : d.length using Nat.strong_induction_on generalizing d rest with
  | _ n ih =>
    obtain ⟨b, mem, ne⟩ := nonzero
    rcases Nat.lt_or_ge n 2 with small | two
    · -- one non-zero byte is its own encoding
      obtain ⟨c, rfl⟩ : ∃ c, d = [c] := by
        have one : d.length = 1 := by have := List.length_pos_of_mem mem; omega
        exact List.length_eq_one_iff.mp one
      obtain rfl : b = c := by simpa using mem
      subst length
      have own : bitsetEncodeBytes [b] = [b] := by simp [bitsetEncodeBytes, ne]
      rw [own, bitsetDecodePartialBytes]
      simp [index_eq_ok, store_eq_ok, ne, List.set]
    · obtain ⟨bitset, marks, encoded⟩ := bitsetEncodeBytes_of_two_le (by omega) ⟨b, mem, ne⟩
      have shorter : bitset.length < n := by rw [marks.length_eq]; omega
      have inner := ih _ shorter bitset (marks.exists_ne_zero ⟨b, mem, ne⟩) (d.filter (· ≠ 0) ++ rest) rfl
      have someByte : d.filter (· ≠ 0) ≠ [] := List.ne_nil_of_mem (List.mem_filter.mpr ⟨mem, by simpa using ne⟩)
      have nonempty : (bitsetEncodeBytes bitset ++ (d.filter (· ≠ 0) ++ rest)).length ≠ 0 := by
        have := List.length_pos_of_ne_nil someByte
        simp only [List.length_append]
        omega
      have target : (n + 7) / 8 = bitset.length := by rw [marks.length_eq, length]
      rw [encoded, List.append_assoc, bitsetDecodePartialBytes, if_neg (by omega), if_neg nonempty,
        if_neg (by omega), target, inner, ok_bind]
      dsimp only
      rw [← length, ← List.append_assoc, decodeLoop_marks marks _ le_rfl, filled_of_le (by rw [marks.length_eq]; omega),
        List.take_of_length_le (by rw [marks.length_eq]; omega)]
      simp

/-- `CompressBytes` never lengthens its input, and `DecompressBytes` against the input's length
gives it back. -/
theorem length_compressBytes_le (d : List UInt8) : (CompressBytes d).length ≤ d.length := by
  unfold CompressBytes
  dsimp only
  split <;> omega

theorem decompressBytes_compressBytes (d : List UInt8) : DecompressBytes (CompressBytes d) d.length = .ok d := by
  unfold CompressBytes
  dsimp only
  split
  case isFalse => simp [DecompressBytes]
  case isTrue shorter =>
    rw [DecompressBytes, if_neg (by omega), if_neg (by omega), bitsetDecodeBytes]
    by_cases nonzero : ∃ b ∈ d, b ≠ 0
    · have decoded := bitsetDecodePartialBytes_encode d nonzero []
      rw [List.append_nil] at decoded
      simp [decoded]
    · -- all zero: nothing to read, the target's zero bytes
      have zero : ∀ b ∈ d, b = 0 := by simpa using nonzero
      rw [bitsetEncodeBytes_of_zero zero] at shorter ⊢
      have all : List.replicate d.length 0 = d := (List.eq_replicate_iff.mpr ⟨rfl, zero⟩).symm
      rw [bitsetDecodePartialBytes, if_neg (by simp at shorter; omega)]
      simp [all]

/-! ## Decompressing any input -/

/-- Where the loop may be: every slot of a `target`-byte output, the pointer inside the input. -/
def InBounds (data : List UInt8) (target : ℕ) (state : List UInt8 × ℕ) : Prop :=
  state.1.length = target ∧ state.2 ≤ data.length

/-- One iteration inside the bitset stays in bounds or stops with a decoding error, never a panic. -/
theorem decodeStep_outcome {data bitset : List UInt8} {target i : ℕ} {state : List UInt8 × ℕ}
    (inside : i / 8 < bitset.length) (bounds : InBounds data target state) :
    (∃ next, decodeStep data bitset state i = .ok next ∧ InBounds data target next) ∨
      ∃ e, decodeStep data bitset state i = .error e ∧ e ≠ .panicIndexOutOfRange := by
  obtain ⟨decomp, ptr⟩ := state
  obtain ⟨length, pointer⟩ := bounds
  rw [decodeStep]
  simp only [index_eq_ok inside, pure_bind]
  split
  case isFalse => exact .inl ⟨_, rfl, length, pointer⟩
  split
  case isTrue => exact .inr ⟨_, rfl, by decide⟩
  split
  case isTrue => exact .inr ⟨_, rfl, by decide⟩
  case isFalse more beyond =>
    rw [index_eq_ok (by omega), pure_bind]
    split
    case isTrue => exact .inr ⟨_, rfl, by decide⟩
    case isFalse =>
      rw [store_eq_ok (by omega), pure_bind]
      exact .inl ⟨_, rfl, by simpa using length, by simp at more ⊢; omega⟩

/-- On any input and any target, the partial decoder stops with a decoding error or returns
`target` bytes read from no more than the input. -/
theorem bitsetDecodePartialBytes_outcome (data : List UInt8) (target : ℕ) :
    (∃ out ptr, bitsetDecodePartialBytes data target = .ok (out, ptr) ∧ InBounds data target (out, ptr)) ∨
      ∃ e, bitsetDecodePartialBytes data target = .error e ∧ e ≠ .panicIndexOutOfRange := by
  -- strong induction on the target: the bitset's target `(target + 7) / 8` is smaller past one
  induction target using Nat.strong_induction_on with
  | _ target ih =>
    rw [bitsetDecodePartialBytes]
    split
    case isTrue zero => exact .inl ⟨[], 0, rfl, by simp [InBounds, zero]⟩
    split
    case isTrue empty => exact .inl ⟨_, 0, rfl, by simp [InBounds]⟩
    split
    case isTrue one =>
      subst one
      rw [index_eq_ok (by omega), pure_bind, store_eq_ok (by simp), pure_bind]
      split
      · exact .inl ⟨_, 1, rfl, by simp [InBounds]; omega⟩
      · exact .inl ⟨_, 0, rfl, by simp [InBounds]⟩
    case isFalse zero empty one =>
      rcases ih ((target + 7) / 8) (by omega) with ⟨bitset, ptr, inner, pointer⟩ | ⟨e, inner, clean⟩
      · rw [inner, ok_bind]
        dsimp only
        -- the loop reads the bitset only at `i / 8 < len(nonZeroBitset)`
        have loop := foldlM_outcome (InBounds data target) (· ≠ .panicIndexOutOfRange)
          (decodeStep data bitset) (List.range (8 * bitset.length)) (List.replicate target 0, ptr)
          (fun state i member bounds => decodeStep_outcome (by simp at member; omega) bounds)
          ⟨List.length_replicate, pointer.2⟩
        rcases loop with ⟨⟨out, read⟩, run, bounds⟩ | ⟨e, run, clean⟩
        · exact .inl ⟨out, read, run, bounds⟩
        · exact .inr ⟨e, run, clean⟩
      · rw [inner]
        exact .inr ⟨e, rfl, clean⟩

theorem decompressBytes_outcome (data : List UInt8) (target : ℕ) :
    (∃ out, DecompressBytes data target = .ok out ∧ out.length = target) ∨
      ∃ e, DecompressBytes data target = .error e ∧ e ≠ .panicIndexOutOfRange := by
  rw [DecompressBytes]
  split
  case isTrue => exact .inr ⟨_, rfl, by decide⟩
  split
  case isTrue same => exact .inl ⟨data, rfl, same⟩
  rw [bitsetDecodeBytes]
  rcases bitsetDecodePartialBytes_outcome data target with ⟨out, ptr, decoded, length, _⟩ | ⟨e, decoded, clean⟩
  · rw [decoded, ok_bind]
    dsimp only
    split
    case isTrue => exact .inr ⟨_, rfl, by decide⟩
    case isFalse => exact .inl ⟨out, rfl, length⟩
  · rw [decoded]
    exact .inr ⟨e, rfl, clean⟩

/-- Compression round-trips through decompression against the original length and never
lengthens its input; decompression of any input against any target stops, without an
out-of-range access, with an error or exactly `target` bytes. -/
theorem compressBytes_roundTrip_decompressBytes_safe :
    (∀ d : List UInt8, (CompressBytes d).length ≤ d.length ∧ DecompressBytes (CompressBytes d) d.length = .ok d) ∧
      ∀ (c : List UInt8) (t : ℕ),
        (∃ e, DecompressBytes c t = .error e ∧ e ≠ .panicIndexOutOfRange) ∨
          ∃ out, DecompressBytes c t = .ok out ∧ out.length = t :=
  ⟨fun d => ⟨length_compressBytes_le d, decompressBytes_compressBytes d⟩,
    fun c t => (decompressBytes_outcome c t).symm⟩

end SimpleChain.Bitutil
