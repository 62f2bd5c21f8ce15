import Mathlib

/-! # Big-endian byte strings

Unsigned integers as big-endian byte strings: `ofBE` reads any string, leading
zero bytes included; `minBE` writes the shortest one, empty for zero; `beBytes k`
writes the low `k` bytes, the way a sequence of `byte(i >> s)` stores does.
A string without a leading zero byte is the shortest string of its value, so a
reader that refuses leading zeros reads each value from exactly one string.
The lemmas reduce to `Nat.digits` in base 256, most significant byte first. -/
set_option autoImplicit false

namespace BigEndian

/-- The value of a big-endian byte string. -/
def ofBE (bytes : List UInt8) : Nat := bytes.foldl (fun acc b => acc * 256 + b.toNat) 0

/-- The shortest big-endian string of `n`: empty for zero, and without a leading
zero byte otherwise. -/
def minBE (n : Nat) : List UInt8 := ((Nat.digits 256 n).map UInt8.ofNat).reverse

/-- The low `k` bytes of `n`, most significant first. -/
def beBytes (k n : Nat) : List UInt8 := (List.range k).reverse.map fun j => UInt8.ofNat (n >>> (8 * j))

theorem foldl_shift (bytes : List UInt8) :
    ∀ acc : Nat, bytes.foldl (fun acc b => acc * 256 + b.toNat) acc =
      acc * 256 ^ bytes.length + ofBE bytes := by
  induction bytes with
  | nil => intro acc; simp [ofBE]
  | cons b rest restShift =>
      intro acc
      simp only [ofBE, List.foldl_cons, List.length_cons] at restShift ⊢
      rw [restShift, restShift (0 * 256 + b.toNat), pow_succ]
      ring

@[simp] theorem ofBE_nil : ofBE [] = 0 := rfl

theorem ofBE_cons (b : UInt8) (rest : List UInt8) :
    ofBE (b :: rest) = b.toNat * 256 ^ rest.length + ofBE rest := by
  simp only [ofBE, List.foldl_cons]
  rw [foldl_shift]
  simp [ofBE]

theorem ofBE_eq_ofDigits (bytes : List UInt8) :
    ofBE bytes = Nat.ofDigits 256 (bytes.map UInt8.toNat).reverse := by
  induction bytes with
  | nil => rfl
  | cons b rest restValue =>
      rw [ofBE_cons, restValue, List.map_cons, List.reverse_cons, Nat.ofDigits_append]
      simp only [List.length_reverse, List.length_map, Nat.ofDigits_singleton]
      ring

theorem ofBE_lt (bytes : List UInt8) : ofBE bytes < 256 ^ bytes.length := by
  rw [ofBE_eq_ofDigits]
  have bound := Nat.ofDigits_lt_base_pow_length (b := 256) (l := (bytes.map UInt8.toNat).reverse)
    (by norm_num) (by simpa using fun b _ => UInt8.toNat_lt b)
  simpa using bound

theorem ofBE_minBE (n : Nat) : ofBE (minBE n) = n := by
  have digitsBelow : ∀ d ∈ Nat.digits 256 n, (UInt8.toNat ∘ UInt8.ofNat) d = d := by
    intro d member
    rw [Function.comp_apply, UInt8.toNat_ofNat']
    exact Nat.mod_eq_of_lt (Nat.digits_lt_base (by norm_num) member)
  rw [ofBE_eq_ofDigits, minBE, List.map_reverse, List.reverse_reverse, List.map_map,
    List.map_congr_left digitsBelow, List.map_id']
  exact Nat.ofDigits_digits 256 n

/-- A string that does not start with a zero byte is the shortest string of its value. -/
theorem minBE_ofBE {bytes : List UInt8} (canonical : bytes.head? ≠ some 0) :
    minBE (ofBE bytes) = bytes := by
  have digits : Nat.digits 256 (ofBE bytes) = (bytes.map UInt8.toNat).reverse := by
    rw [ofBE_eq_ofDigits]
    refine Nat.digits_ofDigits 256 (by norm_num) _ (by simpa using fun b _ => UInt8.toNat_lt b) ?_
    intro nonempty
    cases bytes with
    | nil => exact absurd rfl nonempty
    | cons b rest =>
        have nonzero : b.toNat ≠ 0 := fun zero => canonical (by simp [← UInt8.toNat_inj, zero])
        simpa [List.getLast_reverse] using nonzero
  rw [minBE, digits, List.map_reverse, List.reverse_reverse, List.map_map]
  simp [Function.comp_def]

theorem head_minBE (n : Nat) : (minBE n).head? ≠ some 0 := by
  by_cases zero : n = 0
  · simp [minBE, zero]
  · have lastNonzero := Nat.getLast_digit_ne_zero 256 zero
    have nonempty : Nat.digits 256 n ≠ [] := Nat.digits_ne_nil_iff_ne_zero.mpr zero
    have lastBelow : (Nat.digits 256 n).getLast nonempty < 256 :=
      Nat.digits_lt_base (by norm_num) (List.getLast_mem nonempty)
    intro head
    rw [minBE, List.head?_reverse, List.getLast?_map, List.getLast?_eq_some_getLast nonempty] at head
    simp only [Option.map_some, Option.some.injEq] at head
    have asNat := congrArg UInt8.toNat head
    rw [UInt8.toNat_ofNat', Nat.mod_eq_of_lt lastBelow] at asNat
    exact lastNonzero asNat

theorem length_minBE_le_iff (n k : Nat) : (minBE n).length ≤ k ↔ n < 256 ^ k := by
  simpa [minBE] using Nat.digits_length_le_iff (b := 256) (k := k) (by norm_num) n

theorem length_beBytes (k n : Nat) : (beBytes k n).length = k := by
  simp [beBytes]

theorem beBytes_succ (k n : Nat) :
    beBytes (k + 1) n = UInt8.ofNat (n >>> (8 * k)) :: beBytes k n := by
  simp [beBytes, List.range_succ]

theorem shiftRight_bytes (n k : Nat) : n >>> (8 * k) = n / 256 ^ k := by
  rw [Nat.shiftRight_eq_div_pow, pow_mul]
  norm_num

theorem ofBE_beBytes (k n : Nat) : ofBE (beBytes k n) = n % 256 ^ k := by
  induction k with
  | zero => simp [beBytes, Nat.mod_one]
  | succ k lower =>
      have byteSize : (2 : Nat) ^ 8 = 256 := by norm_num
      rw [beBytes_succ, ofBE_cons, lower, length_beBytes, UInt8.toNat_ofNat', shiftRight_bytes,
        byteSize, Nat.mod_pow_succ]
      ring

/-- Written on exactly as many bytes as it needs, a number is its shortest string. -/
theorem beBytes_eq_minBE {k n : Nat} (above : 256 ^ k ≤ n) (below : n < 256 ^ (k + 1)) :
    beBytes (k + 1) n = minBE n := by
  have leadPos : 0 < n / 256 ^ k := Nat.div_pos above (by positivity)
  have leadBelow : n / 256 ^ k < 256 := by
    rw [Nat.div_lt_iff_lt_mul (by positivity)]
    simpa [pow_succ, Nat.mul_comm] using below
  have canonical : (beBytes (k + 1) n).head? ≠ some 0 := by
    rw [beBytes_succ, List.head?_cons, shiftRight_bytes]
    intro zero
    have asNat := congrArg UInt8.toNat (Option.some.inj zero)
    rw [UInt8.toNat_ofNat', Nat.mod_eq_of_lt leadBelow] at asNat
    simp at asNat
    omega
  have value : ofBE (beBytes (k + 1) n) = n := by
    rw [ofBE_beBytes, Nat.mod_eq_of_lt below]
  rw [← minBE_ofBE canonical, value]

theorem byte_lt_of_mem_reverse {bytes : List UInt8} {l : Nat}
    (member : l ∈ (bytes.map UInt8.toNat).reverse) : l < 256 := by
  simp only [List.mem_reverse, List.mem_map] at member
  obtain ⟨x, -, rfl⟩ := member
  exact UInt8.toNat_lt x

/-- Two strings of one length with one value are the same string. -/
theorem ofBE_inj {a b : List UInt8} (length : a.length = b.length) (same : ofBE a = ofBE b) : a = b := by
  rw [ofBE_eq_ofDigits, ofBE_eq_ofDigits] at same
  have digits := Nat.ofDigits_inj_of_len_eq (by norm_num) (by simpa using length)
    (fun _ member => byte_lt_of_mem_reverse member) (fun _ member => byte_lt_of_mem_reverse member) same
  exact List.map_injective_iff.mpr (fun x y h => UInt8.toNat_inj.mp h) (List.reverse_injective digits)

/-- Written on its own length, the value of a string is the string. -/
theorem beBytes_ofBE (b : List UInt8) : beBytes b.length (ofBE b) = b :=
  ofBE_inj (length_beBytes _ _) (by rw [ofBE_beBytes, Nat.mod_eq_of_lt (ofBE_lt b)])

end BigEndian
