import Mathlib

/-! # Pro-rata shares by floor division

Splitting an amount `r` among holders of `x₁, …, xₙ` out of a total `s` as
`xᵢ * r / s` (floor division) pays each a non-negative share and, as long as the
holdings add up to at most `s`, never more than `r` in all: each share rounds
down. -/
set_option autoImplicit false

namespace Share

theorem share_nonneg {x r s : Int} (hx : 0 ≤ x) (hr : 0 ≤ r) (hs : 0 ≤ s) : 0 ≤ x * r / s :=
  Int.ediv_nonneg (Int.mul_nonneg hx hr) hs

/-- Rounding down, the shares times the total stay below the holdings times the amount. -/
theorem sum_shares_mul_le (r : Int) {s : Int} (hs : s ≠ 0) :
    ∀ l : List Int, (l.map fun x => x * r / s).sum * s ≤ l.sum * r
  | [] => by simp
  | x :: rest => by
      have rounded : x * r / s * s ≤ x * r := Int.ediv_mul_le _ hs
      have restLe := sum_shares_mul_le r hs rest
      simp only [List.map_cons, List.sum_cons, Int.add_mul]
      omega

theorem sum_shares_le {l : List Int} {r s : Int} (hr : 0 ≤ r) (hs : 0 < s) (within : l.sum ≤ s) :
    (l.map fun x => x * r / s).sum ≤ r := by
  have scaled := sum_shares_mul_le r (Int.ne_of_gt hs) l
  have bounded : l.sum * r ≤ s * r := Int.mul_le_mul_of_nonneg_right within hr
  exact Int.le_of_mul_le_mul_right (by rw [Int.mul_comm r s]; omega) hs

/-! ## Differences of floors

Two amounts that grow by `a₂ - a₁` and `b₂ - b₁`, divided by `m` and rounded down, grow
by at most one more than each other when the first grows less, and by no more when it
grows at least `2 * m` less: each floor is off by less than `m` from its amount. -/

/-- `m` times the floors' difference differs from the amounts' difference by less than `m`. -/
theorem mul_ediv_sub_ediv_bounds (a₁ a₂ : Int) {m : Int} (hm : 0 < m) :
    a₂ - a₁ - m < m * (a₂ / m - a₁ / m) ∧ m * (a₂ / m - a₁ / m) < a₂ - a₁ + m := by
  have split₁ := Int.mul_ediv_add_emod a₁ m
  have split₂ := Int.mul_ediv_add_emod a₂ m
  have low₁ := Int.emod_nonneg a₁ hm.ne'
  have low₂ := Int.emod_nonneg a₂ hm.ne'
  have high₁ := Int.emod_lt_of_pos a₁ hm
  have high₂ := Int.emod_lt_of_pos a₂ hm
  rw [mul_sub]
  constructor <;> linarith

theorem floor_growth_le_succ (a₁ a₂ b₁ b₂ : Int) {m : Int} (hm : 0 < m) (slower : a₂ - a₁ < b₂ - b₁) :
    a₂ / m - a₁ / m ≤ b₂ / m - b₁ / m + 1 := by
  have ha := (mul_ediv_sub_ediv_bounds a₁ a₂ hm).2
  have hb := (mul_ediv_sub_ediv_bounds b₁ b₂ hm).1
  have scaled : m * (a₂ / m - a₁ / m - (b₂ / m - b₁ / m)) < m * 2 := by
    rw [mul_sub]
    linarith
  have := lt_of_mul_lt_mul_left scaled hm.le
  omega

theorem floor_growth_le (a₁ a₂ b₁ b₂ : Int) {m : Int} (hm : 0 < m) (slower : a₂ - a₁ + 2 * m ≤ b₂ - b₁) :
    a₂ / m - a₁ / m ≤ b₂ / m - b₁ / m := by
  have ha := (mul_ediv_sub_ediv_bounds a₁ a₂ hm).2
  have hb := (mul_ediv_sub_ediv_bounds b₁ b₂ hm).1
  have scaled : m * (a₂ / m - a₁ / m - (b₂ / m - b₁ / m)) < m * 1 := by
    rw [mul_sub]
    linarith
  have := lt_of_mul_lt_mul_left scaled hm.le
  omega

end Share
