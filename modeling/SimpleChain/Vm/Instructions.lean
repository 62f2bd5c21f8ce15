import Mathlib
import SimpleChain.Lib.TwosComplement

/-! # Arithmetic opcodes (`core/vm/instructions.go`, `common/math/big.go`)

The interpreter keeps stack words as `*big.Int`, unbounded integers, and truncates results to
256 bits with `math.U256`, reads signed operands with `math.S256`, and exponentiates with the
square-and-multiply loop `math.Exp` over the 64-bit words of the exponent.  The stack is a list
of integers, top first; an operation on too short a stack is Go's index panic, `none` (the
interpreter's `minStack` check keeps it from happening).  The integer pool is left out.

`ArithOp.spec` says what each opcode computes on 256-bit words, in the terms of the Yellow Paper
and EIP-145: `BitVec 256` arithmetic, zero for a zero divisor, two's complement for the signed
ones.  `arith_opcodes_word_semantics` is that each opcode, run on the integers of words, leaves
the integer of that word. -/
set_option autoImplicit false

namespace SimpleChain.Vm

open TwosComplement

/-! ## `math/big` helpers -/

def tt255 : ℤ := 2 ^ 255

def tt256 : ℤ := 2 ^ 256

def tt256m1 : ℤ := 2 ^ 256 - 1

def U256 (x : ℤ) : ℤ := Int.land x tt256m1

def S256 (x : ℤ) : ℤ := if x < tt255 then x else x - tt256

def wordBits : ℕ := 64

/-- `x.Bits()`: the machine words of `|x|`, least significant first. -/
def bits (x : ℤ) : List ℕ := Nat.digits (2 ^ wordBits) x.natAbs

/-- The inner loop of `math.Exp`: `count` rounds over the bits of one exponent word. -/
def expWord : ℕ → ℕ → ℤ × ℤ → ℤ × ℤ
  | 0, _, state => state
  | count + 1, word, (result, base) =>
    expWord count (word >>> 1)
      (if word &&& 1 = 1 then U256 (result * base) else result, U256 (base * base))

def Exp (base exponent : ℤ) : ℤ :=
  ((bits exponent).foldl (fun state word => expWord wordBits word state) (1, base)).1

/-- Byte `n` of `x`, counted from the least significant one (`wordBytes` bytes a word). -/
def bigEndianByteAt (x : ℤ) (n : ℕ) : ℕ :=
  let words := bits x
  let i := n / 8
  if i ≥ words.length then 0
  else (words.getD i 0 >>> (8 * (n % 8))) % 256

/-- `math.Byte`: byte `n` of `x` padded to `padlength` bytes, counted from the most significant. -/
def Byte (x : ℤ) (padlength n : ℕ) : ℕ :=
  if n ≥ padlength then 0 else bigEndianByteAt x (padlength - 1 - n)

/-! ## The opcodes -/

def opAdd : List ℤ → Option (List ℤ)
  | x :: y :: rest => some (U256 (x + y) :: rest)
  | _ => none

def opSub : List ℤ → Option (List ℤ)
  | x :: y :: rest => some (U256 (x - y) :: rest)
  | _ => none

def opMul : List ℤ → Option (List ℤ)
  | x :: y :: rest => some (U256 (x * y) :: rest)
  | _ => none

def opDiv : List ℤ → Option (List ℤ)
  | x :: y :: rest => some ((if y.sign ≠ 0 then U256 (x / y) else 0) :: rest)
  | _ => none

def opSdiv : List ℤ → Option (List ℤ)
  | x :: y :: rest =>
    let x := S256 x
    let y := S256 y
    if y.sign = 0 ∨ x.sign = 0 then some (0 :: rest)
    else if x.sign ≠ y.sign then some (U256 (-(|x| / |y|)) :: rest)
    else some (U256 (|x| / |y|) :: rest)
  | _ => none

def opMod : List ℤ → Option (List ℤ)
  | x :: y :: rest => some ((if y.sign = 0 then 0 else U256 (x % y)) :: rest)
  | _ => none

def opSmod : List ℤ → Option (List ℤ)
  | x :: y :: rest =>
    let x := S256 x
    let y := S256 y
    if y.sign = 0 then some (0 :: rest)
    else if x.sign < 0 then some (U256 (-(|x| % |y|)) :: rest)
    else some (U256 (|x| % |y|) :: rest)
  | _ => none

def opExp : List ℤ → Option (List ℤ)
  | base :: exponent :: rest =>
    -- `exponent.Cmp(big1)` and the shortcuts before `math.Exp`
    if exponent < 1 then some (1 :: rest)
    else if base.sign = 0 then some (0 :: rest)
    else if exponent = 1 then some (base :: rest)
    else some (Exp base exponent :: rest)
  | _ => none

def opSignExtend : List ℤ → Option (List ℤ)
  | back :: rest =>
    if back < 31 then
      match rest with
      | num :: rest =>
        let bit := back.toNat * 8 + 7
        let mask := (1 <<< bit : ℤ) - 1
        let num := if num.testBit bit then Int.lor num (~~~mask) else Int.land num mask
        some (U256 num :: rest)
      | [] => none
    else some rest
  | [] => none

def opNot : List ℤ → Option (List ℤ)
  | x :: rest => some (U256 (~~~x) :: rest)
  | _ => none

def opLt : List ℤ → Option (List ℤ)
  | x :: y :: rest => some ((if x < y then 1 else 0) :: rest)
  | _ => none

def opGt : List ℤ → Option (List ℤ)
  | x :: y :: rest => some ((if x > y then 1 else 0) :: rest)
  | _ => none

def opSlt : List ℤ → Option (List ℤ)
  | x :: y :: rest =>
    let xNeg := x ≥ tt255
    let yNeg := y ≥ tt255
    if xNeg ∧ ¬ yNeg then some (1 :: rest)
    else if ¬ xNeg ∧ yNeg then some (0 :: rest)
    else some ((if x < y then 1 else 0) :: rest)
  | _ => none

def opSgt : List ℤ → Option (List ℤ)
  | x :: y :: rest =>
    let xNeg := x ≥ tt255
    let yNeg := y ≥ tt255
    if xNeg ∧ ¬ yNeg then some (0 :: rest)
    else if ¬ xNeg ∧ yNeg then some (1 :: rest)
    else some ((if x > y then 1 else 0) :: rest)
  | _ => none

def opEq : List ℤ → Option (List ℤ)
  | x :: y :: rest => some ((if x = y then 1 else 0) :: rest)
  | _ => none

def opIszero : List ℤ → Option (List ℤ)
  | x :: rest => some ((if x.sign > 0 then 0 else 1) :: rest)
  | _ => none

def opAnd : List ℤ → Option (List ℤ)
  | x :: y :: rest => some (Int.land x y :: rest)
  | _ => none

def opOr : List ℤ → Option (List ℤ)
  | x :: y :: rest => some (Int.lor x y :: rest)
  | _ => none

def opXor : List ℤ → Option (List ℤ)
  | x :: y :: rest => some (Int.xor x y :: rest)
  | _ => none

def opByte : List ℤ → Option (List ℤ)
  | th :: val :: rest => some ((if th < 32 then (Byte val 32 th.toNat : ℤ) else 0) :: rest)
  | _ => none

def opAddmod : List ℤ → Option (List ℤ)
  | x :: y :: z :: rest => some ((if z > 0 then U256 ((x + y) % z) else 0) :: rest)
  | _ => none

def opMulmod : List ℤ → Option (List ℤ)
  | x :: y :: z :: rest => some ((if z > 0 then U256 ((x * y) % z) else 0) :: rest)
  | _ => none

def opSHL : List ℤ → Option (List ℤ)
  | shift :: value :: rest =>
    let shift := U256 shift
    let value := U256 value
    some ((if shift ≥ 256 then 0 else U256 (value <<< shift.toNat)) :: rest)
  | _ => none

def opSHR : List ℤ → Option (List ℤ)
  | shift :: value :: rest =>
    let shift := U256 shift
    let value := U256 value
    some ((if shift ≥ 256 then 0 else U256 (value >>> shift.toNat)) :: rest)
  | _ => none

def opSAR : List ℤ → Option (List ℤ)
  | shift :: value :: rest =>
    let shift := U256 shift
    let value := S256 value
    if shift ≥ 256 then some (U256 (if value.sign ≥ 0 then 0 else -1) :: rest)
    else some (U256 (value >>> shift.toNat) :: rest)
  | _ => none

/-! ## What the opcodes compute on words -/

inductive ArithOp
  | add | sub | mul | div | sdiv | mod | smod | exp | addmod | mulmod | signextend
  | not | lt | gt | slt | sgt | eq | iszero | and | or | xor | byte | shl | shr | sar
  deriving DecidableEq, Repr

def ArithOp.arity : ArithOp → ℕ
  | .not | .iszero => 1
  | .addmod | .mulmod => 3
  | _ => 2

/-- The result the Yellow Paper (EIP-145 for the shifts) gives for the words `a`, `b`, `c` from the
top of the stack down. -/
def ArithOp.spec : ArithOp → BitVec 256 → BitVec 256 → BitVec 256 → BitVec 256
  | .add, a, b, _ => a + b
  | .sub, a, b, _ => a - b
  | .mul, a, b, _ => a * b
  | .div, a, b, _ => if b = 0 then 0 else a / b
  | .sdiv, a, b, _ => if b = 0 then 0 else a.sdiv b
  | .mod, a, b, _ => if b = 0 then 0 else a % b
  | .smod, a, b, _ => if b = 0 then 0 else a.srem b
  | .exp, a, b, _ => BitVec.ofNat 256 (a.toNat ^ b.toNat)
  | .addmod, a, b, c => if c = 0 then 0 else BitVec.ofNat 256 ((a.toNat + b.toNat) % c.toNat)
  | .mulmod, a, b, c => if c = 0 then 0 else BitVec.ofNat 256 (a.toNat * b.toNat % c.toNat)
  | .signextend, a, b, _ =>
    if a.toNat < 31 then (b.setWidth (8 * (a.toNat + 1))).signExtend 256 else b
  | .not, a, _, _ => ~~~a
  | .lt, a, b, _ => if a < b then 1 else 0
  | .gt, a, b, _ => if b < a then 1 else 0
  | .slt, a, b, _ => if a.slt b then 1 else 0
  | .sgt, a, b, _ => if b.slt a then 1 else 0
  | .eq, a, b, _ => if a = b then 1 else 0
  | .iszero, a, _, _ => if a = 0 then 1 else 0
  | .and, a, b, _ => a &&& b
  | .or, a, b, _ => a ||| b
  | .xor, a, b, _ => a ^^^ b
  | .byte, a, b, _ => if a.toNat < 32 then (b >>> (8 * (31 - a.toNat))) &&& 0xFF else 0
  | .shl, a, b, _ => b <<< a.toNat
  | .shr, a, b, _ => b >>> a.toNat
  | .sar, a, b, _ => b.sshiftRight a.toNat

def ArithOp.exec : ArithOp → List ℤ → Option (List ℤ)
  | .add => opAdd
  | .sub => opSub
  | .mul => opMul
  | .div => opDiv
  | .sdiv => opSdiv
  | .mod => opMod
  | .smod => opSmod
  | .exp => opExp
  | .addmod => opAddmod
  | .mulmod => opMulmod
  | .signextend => opSignExtend
  | .not => opNot
  | .lt => opLt
  | .gt => opGt
  | .slt => opSlt
  | .sgt => opSgt
  | .eq => opEq
  | .iszero => opIszero
  | .and => opAnd
  | .or => opOr
  | .xor => opXor
  | .byte => opByte
  | .shl => opSHL
  | .shr => opSHR
  | .sar => opSAR

/-! ## Words on the stack -/

theorem U256_eq (x : ℤ) : U256 x = x % 2 ^ 256 :=
  land_two_pow_sub_one x 256

theorem word_lt (a : BitVec 256) : (a.toNat : ℤ) < 2 ^ 256 := by
  exact_mod_cast a.isLt

@[simp] theorem U256_word (a : BitVec 256) : U256 a.toNat = a.toNat := by
  rw [U256_eq, Int.emod_eq_of_lt (by positivity) (word_lt a)]

theorem S256_word (a : BitVec 256) : S256 a.toNat = a.toInt := by
  rw [toInt_eq_signed a]
  rfl

theorem U256_natCast_eq (n : ℕ) : U256 n = ((n % 2 ^ 256 : ℕ) : ℤ) := by
  rw [U256_eq, Int.natCast_mod, Nat.cast_pow, Nat.cast_ofNat]

theorem U256_natCast {n : ℕ} (lt : n < 2 ^ 256) : U256 n = n := by
  rw [U256_eq, Int.emod_eq_of_lt (by positivity) (by exact_mod_cast lt)]

theorem U256_toInt (a : BitVec 256) : U256 a.toInt = a.toNat := by
  rw [U256_eq, ← toNat_eq_toInt_emod]

@[simp] theorem sign_word_eq_zero (a : BitVec 256) : (a.toNat : ℤ).sign = 0 ↔ a = 0 := by
  rw [Int.sign_eq_zero_iff_zero, Int.natCast_eq_zero, ← BitVec.toNat_inj]
  rfl

theorem bigEndianByteAt_natCast (x m : ℕ) : bigEndianByteAt x m = x >>> (8 * m) % 256 := by
  -- byte `m % 8` of word `m / 8` is bits `8 * m` and up of `x`
  have digit : ((bits x).getD (m / 8) 0 >>> (8 * (m % 8))) % 256 = x >>> (8 * m) % 256 := by
    rw [bits, Int.natAbs_natCast, Nat.getD_digits _ _ (by decide), wordBits, ← pow_mul,
      show (256 : ℕ) = 2 ^ 8 from rfl, digit_shift_mod _ _ _ _ _ (by omega),
      show 64 * (m / 8) + 8 * (m % 8) = 8 * m by omega]
  unfold bigEndianByteAt
  dsimp only
  split
  case isTrue beyond =>
    rw [← digit, List.getD_eq_default _ _ beyond, Nat.zero_shiftRight]
  case isFalse => exact digit

theorem Byte_natCast {x n : ℕ} (inside : n < 32) : Byte x 32 n = x >>> (8 * (31 - n)) % 256 := by
  rw [Byte, if_neg (by omega), bigEndianByteAt_natCast]

/-! ## `math.Exp` computes the power modulo `2^256` -/

theorem U256_cast (x : ℤ) : ((U256 x : ℤ) : ZMod (2 ^ 256)) = x := by
  rw [U256_eq]
  exact_mod_cast ZMod.intCast_mod x (2 ^ 256)

theorem U256_mem (x : ℤ) : 0 ≤ U256 x ∧ U256 x < 2 ^ 256 := by
  rw [U256_eq]
  exact ⟨Int.emod_nonneg _ (by positivity), Int.emod_lt_of_pos _ (by positivity)⟩

/-- `count` rounds of the inner loop multiply `result` by `base` to the low `count` bits of `word`,
and square `base` `count` times. -/
theorem expWord_cast (count word : ℕ) (result base : ℤ) :
    ((expWord count word (result, base)).1 : ZMod (2 ^ 256)) =
        result * (base : ZMod (2 ^ 256)) ^ (word % 2 ^ count) ∧
      ((expWord count word (result, base)).2 : ZMod (2 ^ 256)) =
        (base : ZMod (2 ^ 256)) ^ 2 ^ count := by
  induction count generalizing word result base with
  | zero => simp [expWord, Nat.mod_one]
  | succ count ih =>
    obtain ⟨first, second⟩ := ih (word >>> 1)
      (if word &&& 1 = 1 then U256 (result * base) else result) (U256 (base * base))
    -- the low bit of `word` decides the multiplication, the rest is the next rounds' exponent
    have low : word % 2 ^ (count + 1) = word % 2 + 2 * (word >>> 1 % 2 ^ count) := by
      rw [pow_succ', Nat.mod_mul, Nat.shiftRight_one]
    have multiplied : ((if word &&& 1 = 1 then U256 (result * base) else result : ℤ) : ZMod (2 ^ 256)) =
        result * (base : ZMod (2 ^ 256)) ^ (word % 2) := by
      rw [Nat.and_one_is_mod]
      rcases Nat.mod_two_eq_zero_or_one word with even | odd
      · rw [if_neg (by omega), even, pow_zero, mul_one]
      · rw [if_pos odd, U256_cast, odd, pow_one]
        push_cast
        rfl
    refine ⟨?_, ?_⟩
    · rw [expWord, first, multiplied, U256_cast, low, pow_add, pow_mul]
      push_cast
      ring
    · rw [expWord, second, U256_cast, show 2 ^ (count + 1) = 2 * 2 ^ count from pow_succ' 2 count,
        pow_mul]
      push_cast
      ring

theorem expWord_mem (count word : ℕ) (result base : ℤ) (word_result : 0 ≤ result ∧ result < 2 ^ 256) :
    0 ≤ (expWord count word (result, base)).1 ∧ (expWord count word (result, base)).1 < 2 ^ 256 := by
  induction count generalizing word result base with
  | zero => exact word_result
  | succ count ih =>
    apply ih
    split
    · exact U256_mem _
    · exact word_result

theorem foldl_expWord_cast (words : List ℕ) (state : ℤ × ℤ) (small : ∀ w ∈ words, w < 2 ^ wordBits) :
    ((words.foldl (fun state word => expWord wordBits word state) state).1 : ZMod (2 ^ 256)) =
      state.1 * (state.2 : ZMod (2 ^ 256)) ^ Nat.ofDigits (2 ^ wordBits) words := by
  induction words generalizing state with
  | nil => simp
  | cons word words ih =>
    obtain ⟨result, base⟩ := state
    obtain ⟨first, second⟩ := expWord_cast wordBits word result base
    rw [List.foldl_cons, ih _ (fun w mem => small w (List.mem_cons_of_mem _ mem)), first, second,
      Nat.mod_eq_of_lt (small word List.mem_cons_self), Nat.ofDigits_cons, pow_add, pow_mul]
    ring

theorem foldl_expWord_mem (words : List ℕ) (state : ℤ × ℤ) (word_result : 0 ≤ state.1 ∧ state.1 < 2 ^ 256) :
    0 ≤ (words.foldl (fun state word => expWord wordBits word state) state).1 ∧
      (words.foldl (fun state word => expWord wordBits word state) state).1 < 2 ^ 256 := by
  induction words generalizing state with
  | nil => exact word_result
  | cons word words ih =>
    obtain ⟨result, base⟩ := state
    exact ih _ (expWord_mem _ _ _ _ word_result)

/-- `math.Exp(base, exponent)` is `base ^ |exponent|` reduced to a word. -/
theorem Exp_eq (base exponent : ℤ) : Exp base exponent = base ^ exponent.natAbs % 2 ^ 256 := by
  have mem : 0 ≤ Exp base exponent ∧ Exp base exponent < 2 ^ 256 :=
    foldl_expWord_mem (bits exponent) (1, base) (by norm_num)
  have congruent : ((Exp base exponent : ℤ) : ZMod (2 ^ 256)) = ((base ^ exponent.natAbs : ℤ) : ZMod (2 ^ 256)) := by
    rw [Exp, bits, foldl_expWord_cast _ _ (fun w mem => Nat.digits_lt_base (by decide) mem),
      Nat.ofDigits_digits]
    push_cast
    ring
  rw [ZMod.intCast_eq_intCast_iff'] at congruent
  simp only [Nat.cast_pow, Nat.cast_ofNat] at congruent
  rw [← congruent, Int.emod_eq_of_lt mem.1 mem.2]

/-! ## One lemma per opcode -/

section Opcodes
variable (a b c : BitVec 256) (rest : List ℤ)

theorem opAdd_word : opAdd (a.toNat :: b.toNat :: rest) = some (((a + b).toNat : ℤ) :: rest) := by
  simp only [opAdd, U256_eq, BitVec.toNat_add]
  push_cast
  rfl

theorem opSub_word : opSub (a.toNat :: b.toNat :: rest) = some (((a - b).toNat : ℤ) :: rest) := by
  have below := b.isLt
  simp only [opSub, U256_eq, BitVec.toNat_sub]
  push_cast [Nat.cast_sub below.le]
  simp only [Option.some.injEq, List.cons.injEq, and_true]
  omega

theorem opMul_word : opMul (a.toNat :: b.toNat :: rest) = some (((a * b).toNat : ℤ) :: rest) := by
  simp only [opMul, U256_eq, BitVec.toNat_mul]
  push_cast
  rfl

theorem opDiv_word :
    opDiv (a.toNat :: b.toNat :: rest) = some (((if b = 0 then 0 else a / b).toNat : ℤ) :: rest) := by
  by_cases zero : b = 0
  · simp [opDiv, zero]
  · have quotient : ((a.toNat / b.toNat : ℕ) : ℤ) < 2 ^ 256 := by
      exact_mod_cast (Nat.div_le_self _ _).trans_lt a.isLt
    simp only [opDiv, ne_eq, sign_word_eq_zero, zero, not_false_eq_true, if_true, if_false,
      U256_eq, BitVec.toNat_udiv, ← Int.natCast_div]
    rw [Int.emod_eq_of_lt (by positivity) quotient]

theorem opMod_word :
    opMod (a.toNat :: b.toNat :: rest) = some (((if b = 0 then 0 else a % b).toNat : ℤ) :: rest) := by
  by_cases zero : b = 0
  · simp [opMod, zero]
  · have remainder : ((a.toNat % b.toNat : ℕ) : ℤ) < 2 ^ 256 := by
      exact_mod_cast (Nat.mod_le _ _).trans_lt a.isLt
    simp only [opMod, sign_word_eq_zero, zero, if_false, U256_eq, BitVec.toNat_umod,
      ← Int.natCast_mod]
    rw [Int.emod_eq_of_lt (by positivity) remainder]

theorem U256_emod_word (m : ℕ) {c : BitVec 256} (nonzero : c ≠ 0) :
    U256 ((m : ℤ) % c.toNat) = (BitVec.ofNat 256 (m % c.toNat)).toNat := by
  have positive : 0 < c.toNat := Nat.pos_of_ne_zero (by simpa [← BitVec.toNat_inj] using nonzero)
  have remainder : m % c.toNat < 2 ^ 256 := (Nat.mod_lt _ positive).trans c.isLt
  rw [← Int.natCast_mod, U256_natCast remainder, BitVec.toNat_ofNat, Nat.mod_eq_of_lt remainder]

theorem opAddmod_word :
    opAddmod (a.toNat :: b.toNat :: c.toNat :: rest) =
      some (((if c = 0 then 0 else BitVec.ofNat 256 ((a.toNat + b.toNat) % c.toNat)).toNat : ℤ) :: rest) := by
  by_cases zero : c = 0
  · simp [opAddmod, zero]
  · have positive : (c.toNat : ℤ) > 0 := by simpa [← BitVec.toNat_inj, Nat.pos_iff_ne_zero] using zero
    rw [opAddmod, if_pos positive, if_neg zero, ← Int.natCast_add, U256_emod_word _ zero]

theorem opMulmod_word :
    opMulmod (a.toNat :: b.toNat :: c.toNat :: rest) =
      some (((if c = 0 then 0 else BitVec.ofNat 256 (a.toNat * b.toNat % c.toNat)).toNat : ℤ) :: rest) := by
  by_cases zero : c = 0
  · simp [opMulmod, zero]
  · have positive : (c.toNat : ℤ) > 0 := by simpa [← BitVec.toNat_inj, Nat.pos_iff_ne_zero] using zero
    rw [opMulmod, if_pos positive, if_neg zero, ← Int.natCast_mul, U256_emod_word _ zero]

theorem opNot_word : opNot (a.toNat :: rest) = some (((~~~a).toNat : ℤ) :: rest) := by
  have below := a.isLt
  have complement : ~~~(a.toNat : ℤ) = -((a.toNat : ℤ) + 1) := Int.negSucc_eq _
  simp only [opNot, U256_eq, BitVec.toNat_not, complement, Option.some.injEq, List.cons.injEq, and_true]
  omega

theorem opLt_word :
    opLt (a.toNat :: b.toNat :: rest) = some (((if a < b then 1 else 0 : BitVec 256).toNat : ℤ) :: rest) := by
  by_cases lt : a < b <;> simp [opLt, lt] <;> simpa [BitVec.lt_def] using lt

theorem opGt_word :
    opGt (a.toNat :: b.toNat :: rest) = some (((if b < a then 1 else 0 : BitVec 256).toNat : ℤ) :: rest) := by
  by_cases lt : b < a <;> simp [opGt, lt] <;> simpa [BitVec.lt_def] using lt

theorem toInt_word (a : BitVec 256) :
    a.toInt = if (a.toNat : ℤ) < tt255 then (a.toNat : ℤ) else a.toNat - 2 ^ 256 :=
  toInt_eq_signed a

/-- The comparison `opSlt` makes: opposite signs decide it, equal signs compare the values. -/
theorem slt_word (a b : BitVec 256) :
    a.slt b = if (a.toNat : ℤ) ≥ tt255 ∧ ¬ (b.toNat : ℤ) ≥ tt255 then true
      else if ¬ (a.toNat : ℤ) ≥ tt255 ∧ (b.toNat : ℤ) ≥ tt255 then false
      else decide ((a.toNat : ℤ) < b.toNat) := by
  have ha := toInt_word a
  have hb := toInt_word b
  have order : a.slt b = true ↔ a.toInt < b.toInt := BitVec.slt_iff_toInt_lt
  have lower : (0 : ℤ) ≤ a.toNat := Int.natCast_nonneg _
  have lowerB : (0 : ℤ) ≤ b.toNat := Int.natCast_nonneg _
  have upper := word_lt a
  have upperB := word_lt b
  simp only [tt255] at *
  split_ifs at ha hb ⊢ <;> rw [Bool.eq_iff_iff, order] <;> simp <;> omega

theorem opSlt_word :
    opSlt (a.toNat :: b.toNat :: rest) = some (((if a.slt b then 1 else 0 : BitVec 256).toNat : ℤ) :: rest) := by
  rw [slt_word]
  simp only [opSlt]
  split_ifs <;> simp_all
  -- equal signs, and the comparison of the values disagrees with itself
  omega

theorem opSgt_word :
    opSgt (a.toNat :: b.toNat :: rest) = some (((if b.slt a then 1 else 0 : BitVec 256).toNat : ℤ) :: rest) := by
  rw [slt_word]
  simp only [opSgt]
  split_ifs <;> simp_all
  -- equal signs, and the comparison of the values disagrees with itself
  omega

theorem opEq_word :
    opEq (a.toNat :: b.toNat :: rest) = some (((if a = b then 1 else 0 : BitVec 256).toNat : ℤ) :: rest) := by
  by_cases same : a = b
  · simp [opEq, same]
  · have differ : a.toNat ≠ b.toNat := fun eq => same (BitVec.eq_of_toNat_eq eq)
    simp [opEq, same, differ]

theorem opIszero_word :
    opIszero (a.toNat :: rest) = some (((if a = 0 then 1 else 0 : BitVec 256).toNat : ℤ) :: rest) := by
  by_cases zero : a = 0
  · simp [opIszero, zero]
  · have positive : 0 < a.toNat := Nat.pos_of_ne_zero (by simpa [← BitVec.toNat_inj] using zero)
    have nonzero : a ≠ 0#256 := zero
    simp [opIszero, nonzero, Int.sign_natCast_of_ne_zero positive.ne']

theorem U256_tdiv (a b : BitVec 256) : U256 (a.toInt.tdiv b.toInt) = (a.sdiv b).toNat := by
  rw [U256_eq]
  apply emod_eq_toNat
  rw [BitVec.toInt_sdiv]
  exact (Int.bmod_emod (m := 2 ^ 256)).symm

theorem opSdiv_word :
    opSdiv (a.toNat :: b.toNat :: rest) = some (((if b = 0 then 0 else a.sdiv b).toNat : ℤ) :: rest) := by
  simp only [opSdiv, S256_word]
  by_cases divisor : b = 0
  · simp [divisor]
  by_cases dividend : a = 0
  · simp [dividend]
  -- both operands are nonzero, so `math.go`'s sign juggling is truncated division
  have hb := toInt_ne_zero divisor
  have ha := toInt_ne_zero dividend
  have quotient := tdiv_eq_abs ha hb
  rw [if_neg (by simp [Int.sign_eq_zero_iff_zero, ha, hb]), if_neg divisor, ← U256_tdiv, quotient]
  split <;> rfl

theorem U256_tmod (a b : BitVec 256) : U256 (a.toInt.tmod b.toInt) = (a.srem b).toNat := by
  rw [← BitVec.toInt_srem, U256_toInt]

theorem opSmod_word :
    opSmod (a.toNat :: b.toNat :: rest) = some (((if b = 0 then 0 else a.srem b).toNat : ℤ) :: rest) := by
  simp only [opSmod, S256_word]
  by_cases divisor : b = 0
  · simp [divisor]
  rw [if_neg (by simpa [Int.sign_eq_zero_iff_zero] using toInt_ne_zero divisor), if_neg divisor, ← U256_tmod,
    tmod_eq_abs]
  split <;> rfl

theorem opAnd_word : opAnd (a.toNat :: b.toNat :: rest) = some (((a &&& b).toNat : ℤ) :: rest) := by
  simp only [opAnd, BitVec.toNat_and]
  rfl

theorem opOr_word : opOr (a.toNat :: b.toNat :: rest) = some (((a ||| b).toNat : ℤ) :: rest) := by
  simp only [opOr, BitVec.toNat_or]
  rfl

theorem opXor_word : opXor (a.toNat :: b.toNat :: rest) = some (((a ^^^ b).toNat : ℤ) :: rest) := by
  simp only [opXor, BitVec.toNat_xor]
  rfl

theorem opSHL_word : opSHL (a.toNat :: b.toNat :: rest) = some (((b <<< a.toNat).toNat : ℤ) :: rest) := by
  have shifted : (b.toNat : ℤ) <<< a.toNat = ((b.toNat <<< a.toNat : ℕ) : ℤ) := rfl
  simp only [opSHL, U256_word, Int.toNat_natCast, shifted]
  rw [U256_natCast_eq, BitVec.toNat_shiftLeft]
  split
  case isTrue large =>
    -- every bit is shifted out: `b * 2^shift` is a multiple of `2^256`
    have multiple : 2 ^ 256 ∣ b.toNat <<< a.toNat := by
      rw [Nat.shiftLeft_eq]
      exact Dvd.dvd.mul_left (Nat.pow_dvd_pow 2 (by exact_mod_cast large)) _
    rw [Nat.mod_eq_zero_of_dvd multiple, Nat.cast_zero]
  case isFalse => rfl

theorem opSHR_word : opSHR (a.toNat :: b.toNat :: rest) = some (((b >>> a.toNat).toNat : ℤ) :: rest) := by
  have shifted : (b.toNat : ℤ) >>> a.toNat = ((b.toNat >>> a.toNat : ℕ) : ℤ) := rfl
  have small : b.toNat >>> a.toNat < 2 ^ 256 := by
    rw [Nat.shiftRight_eq_div_pow]
    exact (Nat.div_le_self _ _).trans_lt b.isLt
  simp only [opSHR, U256_word, Int.toNat_natCast, BitVec.toNat_ushiftRight, shifted,
    U256_natCast small]
  split
  case isTrue large =>
    -- every bit is shifted out: `b < 2^256 ≤ 2^shift`
    have out : b.toNat >>> a.toNat = 0 := by
      rw [Nat.shiftRight_eq_div_pow, Nat.div_eq_zero_iff_lt (Nat.two_pow_pos _)]
      exact b.isLt.trans_le (Nat.pow_le_pow_right (by decide) (by exact_mod_cast large))
    rw [out, Nat.cast_zero]
  case isFalse => rfl

theorem opSAR_word :
    opSAR (a.toNat :: b.toNat :: rest) = some (((b.sshiftRight a.toNat).toNat : ℤ) :: rest) := by
  have result := U256_toInt (b.sshiftRight a.toNat)
  rw [BitVec.toInt_sshiftRight] at result
  simp only [opSAR, U256_word, S256_word, Int.toNat_natCast]
  split
  case isTrue large =>
    -- the sign fills the word: `b.toInt` lies in `[-2^255, 2^255)`, inside `[-2^shift, 2^shift)`
    have range : (2 : ℤ) ^ 256 ≤ 2 ^ a.toNat := pow_le_pow_right₀ (by norm_num) (by exact_mod_cast large)
    have lower := b.le_toInt
    have upper := b.toInt_lt
    have sign := shiftRight_of_bounded (v := b.toInt) (n := a.toNat)
      (by push_cast at lower; linarith) (by push_cast at upper; linarith)
    simp only [ge_iff_le, Int.sign_nonneg_iff]
    rw [← sign, result]
  case isFalse => rw [result]

theorem opByte_word :
    opByte (a.toNat :: b.toNat :: rest) =
      some (((if a.toNat < 32 then (b >>> (8 * (31 - a.toNat))) &&& 0xFF else 0 : BitVec 256).toNat : ℤ) ::
        rest) := by
  simp only [opByte, Int.toNat_natCast]
  by_cases inside : a.toNat < 32
  · have mask : (0xFF : BitVec 256).toNat = 2 ^ 8 - 1 := rfl
    rw [if_pos (by exact_mod_cast inside), if_pos inside, Byte_natCast inside, BitVec.toNat_and,
      BitVec.toNat_ushiftRight, mask, Nat.and_two_pow_sub_one_eq_mod]
  · rw [if_neg (by exact_mod_cast inside), if_neg inside]
    rfl

theorem opSignExtend_word :
    opSignExtend (a.toNat :: b.toNat :: rest) =
      some (((if a.toNat < 31 then (b.setWidth (8 * (a.toNat + 1))).signExtend 256 else b).toNat : ℤ) ::
        rest) := by
  by_cases small : a.toNat < 31
  swap
  · simp only [opSignExtend, if_neg (by exact_mod_cast small : ¬ (a.toNat : ℤ) < 31), if_neg small]
  -- `bit` is the sign bit of the low `8 * (back + 1)` bits, `mask` keeps the bits below it
  set bit := a.toNat * 8 + 7 with bit_def
  have width : 8 * (a.toNat + 1) = bit + 1 := by omega
  have room : 2 ^ bit * 2 ≤ 2 ^ 256 := by
    rw [← Nat.pow_succ]
    exact Nat.pow_le_pow_right (by decide) (by omega)
  have low := Nat.mod_lt b.toNat (Nat.two_pow_pos bit)
  have castPow : ((2 ^ bit : ℕ) : ℤ) = 2 ^ bit := by push_cast; rfl
  have shifted : (1 <<< bit : ℤ) = ((2 ^ bit : ℕ) : ℤ) := by
    rw [show (1 <<< bit : ℤ) = ((1 <<< bit : ℕ) : ℤ) from rfl, Nat.one_shiftLeft]
  have intBit : (b.toNat : ℤ).testBit bit = b.toNat.testBit bit := rfl
  -- the word's value: the low `bit + 1` bits, lifted by `2^256 - 2^(bit + 1)` when the sign bit is set
  have extended : ((b.setWidth (8 * (a.toNat + 1))).signExtend 256).toNat =
      b.toNat % 2 ^ bit + 2 ^ bit * (b.toNat / 2 ^ bit % 2) +
        if b.toNat.testBit bit then 2 ^ 256 - 2 ^ bit * 2 else 0 := by
    have fits : b.toNat % 2 ^ (bit + 1) < 2 ^ 256 :=
      (Nat.mod_lt _ (Nat.two_pow_pos _)).trans_le (Nat.pow_le_pow_right (by decide) (by omega))
    rw [BitVec.toNat_signExtend, BitVec.toNat_setWidth, BitVec.toNat_setWidth, BitVec.msb_setWidth,
      ← BitVec.testBit_toNat, width, Nat.add_sub_cancel, Nat.mod_eq_of_lt fits, ← Nat.mod_pow_succ,
      ← Nat.pow_succ]
    simp
  simp only [opSignExtend, if_pos (by exact_mod_cast small : (a.toNat : ℤ) < 31), if_pos small,
    Int.toNat_natCast, ← bit_def, intBit, extended, Nat.testBit_eq_decide_div_mod_eq]
  by_cases set : b.toNat / 2 ^ bit % 2 = 1
  · -- negative: the low bits over a run of ones, `b % 2^bit - 2^bit`
    have mask : (1 <<< bit : ℤ) - 1 = ((2 ^ bit - 1 : ℕ) : ℤ) := by
      rw [shifted]
      have := Nat.one_le_two_pow (n := bit)
      omega
    simp only [set, decide_true, if_true, mul_one]
    rw [mask, lor_not_two_pow_sub_one, U256_eq, ← castPow]
    simp only [Option.some.injEq, List.cons.injEq, and_true]
    generalize b.toNat % 2 ^ bit = r at low ⊢
    generalize 2 ^ bit = P at low room ⊢
    omega
  · -- nonnegative: the low bits, `b % 2^bit`
    have clear : b.toNat / 2 ^ bit % 2 = 0 := by omega
    have mask : (1 <<< bit : ℤ) - 1 = 2 ^ bit - 1 := by rw [shifted, castPow]
    have fits : b.toNat % 2 ^ bit < 2 ^ 256 := by omega
    simp only [clear, mul_zero, add_zero, zero_ne_one, decide_false, Bool.false_eq_true, if_false]
    rw [mask, land_two_pow_sub_one, ← castPow, ← Int.natCast_mod, U256_natCast fits]

theorem opExp_word :
    opExp (a.toNat :: b.toNat :: rest) = some (((BitVec.ofNat 256 (a.toNat ^ b.toNat)).toNat : ℤ) :: rest) := by
  have power : ((BitVec.ofNat 256 (a.toNat ^ b.toNat)).toNat : ℤ) = (a.toNat : ℤ) ^ b.toNat % 2 ^ 256 := by
    rw [BitVec.toNat_ofNat, Int.natCast_mod, Nat.cast_pow, Nat.cast_pow, Nat.cast_ofNat]
  rw [power]
  simp only [opExp]
  split_ifs with zero base one
  · -- `exponent.Cmp(big1) < 0`: the power is one
    have none : b.toNat = 0 := by omega
    rw [none, pow_zero]
    rfl
  · -- `base.Sign() == 0`: a positive power of zero
    have none : a.toNat = 0 := by simpa [← BitVec.toNat_inj] using base
    rw [none, Nat.cast_zero, zero_pow (by omega), Int.zero_emod]
  · -- `exponent.Cmp(big1) == 0`: the base itself
    have once : b.toNat = 1 := by exact_mod_cast one
    rw [once, pow_one, Int.emod_eq_of_lt (by positivity) (word_lt a)]
  · rw [Exp_eq, Int.natAbs_natCast]

end Opcodes

/-- Every arithmetic opcode, run on the integers of the words on top of the stack, pushes the
integer of the word the Yellow Paper specifies. -/
theorem arith_opcodes_word_semantics (op : ArithOp) (a b c : BitVec 256) (rest : List ℤ) :
    op.exec ((([a, b, c].take op.arity).map fun w => (w.toNat : ℤ)) ++ rest) =
      some (((op.spec a b c).toNat : ℤ) :: rest) := by
  cases op with
  | add => exact opAdd_word a b rest
  | sub => exact opSub_word a b rest
  | mul => exact opMul_word a b rest
  | div => exact opDiv_word a b rest
  | sdiv => exact opSdiv_word a b rest
  | mod => exact opMod_word a b rest
  | smod => exact opSmod_word a b rest
  | exp => exact opExp_word a b rest
  | addmod => exact opAddmod_word a b c rest
  | mulmod => exact opMulmod_word a b c rest
  | signextend => exact opSignExtend_word a b rest
  | not => exact opNot_word a rest
  | lt => exact opLt_word a b rest
  | gt => exact opGt_word a b rest
  | slt => exact opSlt_word a b rest
  | sgt => exact opSgt_word a b rest
  | eq => exact opEq_word a b rest
  | iszero => exact opIszero_word a rest
  | and => exact opAnd_word a b rest
  | or => exact opOr_word a b rest
  | xor => exact opXor_word a b rest
  | byte => exact opByte_word a b rest
  | shl => exact opSHL_word a b rest
  | shr => exact opSHR_word a b rest
  | sar => exact opSAR_word a b rest

-- `SDIV(-2^255, -1)` wraps to `-2^255`, and `SAR` by 256 or more leaves the sign
example : opSdiv [2 ^ 255, 2 ^ 256 - 1] = some [2 ^ 255] := by decide
example : opSAR [300, 2 ^ 256 - 5] = some [2 ^ 256 - 1] := by decide +kernel

end SimpleChain.Vm
