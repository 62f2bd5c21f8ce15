import Mathlib

/-! # Two's complement on unbounded integers

An arbitrary-precision integer library keeps a `w`-bit machine word as an unbounded integer:
it truncates with `x.And(x, 2^w - 1)`, reads a word from `2^(w-1)` on as `x - 2^w`, divides and
takes remainders through absolute values, and shifts right arithmetically.  These are the facts
that identify each of those with the corresponding operation of `BitVec w`. -/
set_option autoImplicit false

namespace TwosComplement

/-! ## Truncation -/

theorem ldiff_two_pow_sub_one (k m : ℕ) : Nat.ldiff (2 ^ k - 1) m = 2 ^ k - 1 - m % 2 ^ k := by
  -- the low `k` bits of `m`, complemented
  have complement : Nat.ldiff (2 ^ k - 1) m = (~~~(BitVec.ofNat k m)).toNat := by
    apply Nat.eq_of_testBit_eq
    intro i
    rw [Nat.testBit_ldiff, Nat.testBit_two_pow_sub_one, BitVec.testBit_toNat, BitVec.getLsbD_not,
      BitVec.getLsbD_ofNat]
    cases decide (i < k) <;> simp
  rw [complement, BitVec.toNat_not, BitVec.toNat_ofNat]

/-- Masking with `2^k - 1` is the remainder modulo `2^k`, also for a negative integer. -/
theorem land_two_pow_sub_one (x : ℤ) (k : ℕ) : Int.land x (2 ^ k - 1) = x % 2 ^ k := by
  have pow : ((2 ^ k : ℕ) : ℤ) = (2 : ℤ) ^ k := by push_cast; rfl
  have one := Nat.one_le_two_pow (n := k)
  rw [← pow, show ((2 ^ k : ℕ) : ℤ) - 1 = ((2 ^ k - 1 : ℕ) : ℤ) by omega]
  cases x with
  | ofNat n =>
    show ((n &&& (2 ^ k - 1) : ℕ) : ℤ) = _
    rw [Nat.and_two_pow_sub_one_eq_mod]
    rfl
  | negSucc m =>
    show ((Nat.ldiff (2 ^ k - 1) m : ℕ) : ℤ) = _
    rw [ldiff_two_pow_sub_one, Int.negSucc_emod _ (by omega)]
    have := Nat.mod_lt m (Nat.two_pow_pos k)
    rw [← Int.natCast_mod]
    omega

/-- `x | ^(2^k - 1)` for a natural `x`: the low `k` bits of `x` over a run of ones. -/
theorem lor_not_two_pow_sub_one (n k : ℕ) :
    Int.lor n (~~~((2 ^ k - 1 : ℕ) : ℤ)) = (n % 2 ^ k : ℕ) - (2 ^ k : ℤ) := by
  have one := Nat.one_le_two_pow (n := k)
  have low := Nat.mod_lt n (Nat.two_pow_pos k)
  show Int.negSucc (Nat.ldiff (2 ^ k - 1) n) = _
  rw [ldiff_two_pow_sub_one, Int.negSucc_eq]
  push_cast [Nat.sub_sub, Nat.cast_sub (show 1 + n % 2 ^ k ≤ 2 ^ k by omega)]
  ring

/-! ## Words -/

section Word
variable {w : ℕ}

/-- A word's value is its signed reading modulo `2^w`. -/
theorem toNat_eq_toInt_emod (x : BitVec w) : (x.toNat : ℤ) = x.toInt % 2 ^ w := by
  have below : (x.toNat : ℤ) < 2 ^ w := by exact_mod_cast x.isLt
  rw [BitVec.toInt_eq_toNat_cond]
  split
  · rw [Int.emod_eq_of_lt (by omega) below]
  · push_cast
    rw [Int.sub_emod_right, Int.emod_eq_of_lt (by omega) below]

/-- The signed reading of a word: below `2^(w-1)` the value, from there on the value less `2^w`. -/
theorem toInt_eq_signed (x : BitVec (w + 1)) :
    x.toInt = if (x.toNat : ℤ) < 2 ^ w then (x.toNat : ℤ) else x.toNat - 2 ^ (w + 1) := by
  have pow : (2 : ℤ) ^ (w + 1) = 2 * 2 ^ w := by ring
  have positive : (0 : ℤ) < 2 ^ w := by positivity
  rw [BitVec.toInt_eq_toNat_cond]
  have half : 2 * x.toNat < 2 ^ (w + 1) ↔ (x.toNat : ℤ) < 2 ^ w := by
    rw [← Int.ofNat_lt]
    push_cast
    omega
  by_cases small : (x.toNat : ℤ) < 2 ^ w
  · rw [if_pos (half.mpr small), if_pos small]
  · rw [if_neg (mt half.mp small), if_neg small]
    push_cast
    rfl

theorem toInt_ne_zero {x : BitVec w} (nonzero : x ≠ 0) : x.toInt ≠ 0 :=
  fun zero => nonzero (BitVec.toInt_inj.mp (by simpa using zero))

/-- An integer congruent to a word's signed reading truncates to the word. -/
theorem emod_eq_toNat {m : ℤ} {x : BitVec w} (congr : m % 2 ^ w = x.toInt % 2 ^ w) :
    m % 2 ^ w = x.toNat := by
  rw [congr, toNat_eq_toInt_emod]

/-! ## Wrap-around order

Words compared by the sign of their difference, as `(a - b) > 0` on `int64`, are ordered by
their distance from any base that all of them lie less than `2^(w-1)` above. -/

theorem toInt_sub_of_window {x y lo : BitVec (w + 1)} (hx : (x - lo).toNat < 2 ^ w)
    (hy : (y - lo).toNat < 2 ^ w) : (x - y).toInt = ((x - lo).toNat : ℤ) - (y - lo).toNat := by
  have diff : x - y = (x - lo) - (y - lo) := by abel
  rw [diff, toInt_eq_signed, BitVec.toNat_sub]
  -- both distances are below half the modulus
  have natPow : 2 ^ (w + 1) = 2 * 2 ^ w := by ring
  have intPow : (2 : ℤ) ^ (w + 1) = 2 * ((2 ^ w : ℕ) : ℤ) := by push_cast; ring
  have intHalf : (2 : ℤ) ^ w = ((2 ^ w : ℕ) : ℤ) := by push_cast; rfl
  rw [intPow, intHalf, natPow]
  generalize 2 ^ w = half at hx hy ⊢
  generalize (x - lo).toNat = a at hx ⊢
  generalize (y - lo).toNat = b at hy ⊢
  by_cases le : b ≤ a
  · have sum : 2 * half - b + a = (a - b) + 2 * half := by omega
    rw [sum, Nat.add_mod_right, Nat.mod_eq_of_lt (by omega), if_pos (by omega)]
    omega
  · rw [Nat.mod_eq_of_lt (by omega), if_neg (by omega)]
    omega

theorem toInt_sub_pos_iff_of_window {x y lo : BitVec (w + 1)} (hx : (x - lo).toNat < 2 ^ w)
    (hy : (y - lo).toNat < 2 ^ w) : 0 < (x - y).toInt ↔ (y - lo).toNat < (x - lo).toNat := by
  rw [toInt_sub_of_window hx hy]
  omega

/-- Words whose signed readings lie in a window of `2^w` values subtract without wrapping. -/
theorem toInt_sub_of_signed_window {x y : BitVec (w + 1)} {lo : ℤ} (hx : lo ≤ x.toInt ∧ x.toInt < lo + 2 ^ w)
    (hy : lo ≤ y.toInt ∧ y.toInt < lo + 2 ^ w) : (x - y).toInt = x.toInt - y.toInt := by
  rw [BitVec.toInt_sub]
  have pow : ((2 ^ (w + 1) : ℕ) : ℤ) = 2 * 2 ^ w := by push_cast; ring
  apply Int.bmod_eq_of_le <;> rw [pow] <;> omega

/-- Such a window, when its least value is a word, is a wrap-around window above that word. -/
theorem toNat_sub_ofInt_of_signed_window {x : BitVec (w + 1)} {lo : ℤ} (least : -2 ^ w ≤ lo)
    (hx : lo ≤ x.toInt ∧ x.toInt < lo + 2 ^ w) :
    ((x - BitVec.ofInt (w + 1) lo).toNat : ℤ) = x.toInt - lo := by
  have below : x.toInt < 2 ^ w := by simpa using x.toInt_lt
  have pow : ((2 ^ (w + 1) : ℕ) : ℤ) = 2 * 2 ^ w := by push_cast; ring
  have base : (BitVec.ofInt (w + 1) lo).toInt = lo := by
    rw [BitVec.toInt_ofInt]
    apply Int.bmod_eq_of_le <;> rw [pow] <;> omega
  have diff := toInt_sub_of_signed_window hx (by rw [base]; omega)
  have modulus : (2 : ℤ) ^ (w + 1) = 2 * 2 ^ w := by ring
  rw [toNat_eq_toInt_emod, diff, base, Int.emod_eq_of_lt (by omega) (by rw [modulus]; omega)]

end Word

/-! ## Division through absolute values -/

/-- Truncated division: the quotient of the absolute values, negated when the signs differ. -/
theorem tdiv_eq_abs {x y : ℤ} (hx : x ≠ 0) (hy : y ≠ 0) :
    x.tdiv y = if x.sign ≠ y.sign then -(|x| / |y|) else |x| / |y| := by
  rcases lt_or_gt_of_ne hx with xneg | xpos <;> rcases lt_or_gt_of_ne hy with yneg | ypos
  · rw [Int.sign_eq_neg_one_of_neg xneg, Int.sign_eq_neg_one_of_neg yneg, if_neg (by simp),
      abs_of_neg xneg, abs_of_neg yneg, ← Int.neg_tdiv_neg, Int.tdiv_eq_ediv_of_nonneg (by omega)]
  · rw [Int.sign_eq_neg_one_of_neg xneg, Int.sign_eq_one_of_pos ypos, if_pos (by simp),
      abs_of_neg xneg, abs_of_pos ypos, ← Int.tdiv_eq_ediv_of_nonneg (by omega), Int.neg_tdiv, neg_neg]
  · rw [Int.sign_eq_one_of_pos xpos, Int.sign_eq_neg_one_of_neg yneg, if_pos (by simp),
      abs_of_pos xpos, abs_of_neg yneg, ← Int.tdiv_eq_ediv_of_nonneg xpos.le, Int.tdiv_neg, neg_neg]
  · rw [Int.sign_eq_one_of_pos xpos, Int.sign_eq_one_of_pos ypos, if_neg (by simp),
      abs_of_pos xpos, abs_of_pos ypos, Int.tdiv_eq_ediv_of_nonneg xpos.le]

/-- Truncated remainder: the remainder of the absolute values, with the dividend's sign. -/
theorem tmod_eq_abs (x y : ℤ) : x.tmod y = if x.sign < 0 then -(|x| % |y|) else |x| % |y| := by
  have absMod : |x| % |y| = |x| % y := by
    rcases le_or_gt 0 y with ypos | yneg
    · rw [abs_of_nonneg ypos]
    · rw [abs_of_neg yneg, Int.emod_neg]
  rw [absMod]
  rcases lt_or_ge x 0 with xneg | xnonneg
  · rw [if_pos (by simp [Int.sign_eq_neg_one_of_neg xneg]), abs_of_neg xneg,
      ← Int.tmod_eq_emod_of_nonneg (by omega), Int.neg_tmod, neg_neg]
  · rw [if_neg (by rcases xnonneg.eq_or_lt with rfl | pos <;> simp [Int.sign_eq_one_of_pos, *]),
      abs_of_nonneg xnonneg, Int.tmod_eq_emod_of_nonneg xnonneg]

/-! ## Shifts -/

/-- Shifting right by at least the width leaves the sign. -/
theorem shiftRight_of_bounded {v : ℤ} {n : ℕ} (lo : -2 ^ n ≤ v) (hi : v < 2 ^ n) :
    v >>> n = if 0 ≤ v then 0 else -1 := by
  rw [Int.shiftRight_eq_div_pow]
  have pos : (0 : ℤ) < 2 ^ n := by positivity
  split
  · exact Int.ediv_eq_zero_of_lt ‹_› hi
  · have unique : (v + 2 ^ n) + 2 ^ n * (-1) = v ∧ 0 ≤ v + 2 ^ n ∧ v + 2 ^ n < 2 ^ n :=
      ⟨by ring, by omega, by omega⟩
    exact ((Int.ediv_emod_unique pos).mpr unique).1

/-- A run of `c` bits from bit `a + s` of `n`, read through a `b`-bit digit. -/
theorem digit_shift_mod (n a b s c : ℕ) (fits : s + c ≤ b) :
    (n / 2 ^ a % 2 ^ b) >>> s % 2 ^ c = n >>> (a + s) % 2 ^ c := by
  apply Nat.eq_of_testBit_eq
  intro i
  simp only [Nat.testBit_mod_two_pow, Nat.testBit_shiftRight, ← Nat.shiftRight_eq_div_pow]
  by_cases inside : i < c
  · simp [inside, show s + i < b by omega, Nat.add_assoc]
  · simp [inside]

end TwosComplement
