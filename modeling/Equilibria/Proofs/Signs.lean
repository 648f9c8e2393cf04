import Mathlib.Data.Sign.Basic
import Equilibria.Proofs.Weights

/-!
# Signs of the Fischer-Burmeister function

The function has the sign of the smaller one of its arguments and is about as large. Its slopes lie
on a circle around one, so they are never both one and a step along them never vanishes.
-/

namespace Equilibria

/-! ## Signs -/

namespace Near

variable {c d x y : ℝ}

theorem pos_of_pos (h : Near c y x) (hx : 0 < x) : 0 < y := by
  by_contra! hy
  exact absurd (h.neg hy).1 hx.not_ge

theorem neg_of_neg (h : Near c y x) (hx : x < 0) : y < 0 := by
  by_contra! hy
  exact absurd (h.pos hy).1 hx.not_ge

theorem sign_eq (h : Near c x y) (h' : Near d y x) : SignType.sign x = SignType.sign y := by
  rcases lt_trichotomy x 0 with hx | rfl | hx
  · rw [sign_neg hx, sign_neg (h'.neg_of_neg hx)]
  · have hy : y = 0 := le_antisymm (h.neg le_rfl).1 (h.pos le_rfl).1
    rw [hy]
  · rw [sign_pos hx, sign_pos (h'.pos_of_pos hx)]

end Near

theorem sign_fischer (a b : ℝ) : SignType.sign (fischer a b) = SignType.sign (min a b) :=
  (near_fischer a b).sign_eq (near_min a b)

theorem fischer_pos_iff (a b : ℝ) : 0 < fischer a b ↔ 0 < a ∧ 0 < b := by
  rw [← sign_eq_one_iff, sign_fischer, sign_eq_one_iff, lt_min_iff]

theorem fischer_eq_zero_iff (a b : ℝ) : fischer a b = 0 ↔ 0 ≤ a ∧ 0 ≤ b ∧ a * b = 0 := by
  rw [← sign_eq_zero_iff, sign_fischer, sign_eq_zero_iff, min_eq_zero_iff, mul_eq_zero]

/-! ## Sizes -/

theorem le_abs_fischer (a b : ℝ) : 7 / 12 * |min a b| ≤ |fischer a b| := by
  have h := (near_fischer a b).abs_le le_rfl
  linarith

theorem abs_fischer_le (a b : ℝ) : |fischer a b| ≤ 24 / 7 * |min a b| :=
  (near_min a b).abs_le le_rfl

/-! ## Slopes -/

theorem fischerSlope_circle (a b : ℝ) :
    (1 - fischerSlope a b) ^ 2 + (1 - fischerSlope b a) ^ 2 = 1 := by
  unfold fischerSlope
  rw [add_comm (b ^ 2)]
  split
  · have hroot : √(2 : ℕ) ^ 2 = 2 := Real.sq_sqrt (by norm_num)
    rw [sub_sub_cancel, div_pow, hroot]
    norm_num
  · rename_i h
    have hroot : √(a ^ 2 + b ^ 2) ^ 2 = a ^ 2 + b ^ 2 := Real.sq_sqrt (by positivity)
    have hne : a ^ 2 + b ^ 2 ≠ 0 := by
      rw [← hroot]
      exact pow_ne_zero 2 h
    rw [sub_sub_cancel, sub_sub_cancel, div_pow, div_pow, hroot, ← add_div, div_self hne]

theorem fischerSlope_le_two (a b : ℝ) : fischerSlope a b ≤ 2 := by
  have hcircle := fischerSlope_circle a b
  have hsq : (fischerSlope a b - 1) ^ 2 ≤ 1 := by nlinarith [sq_nonneg (1 - fischerSlope b a)]
  have hle : fischerSlope a b - 1 ≤ 1 := (abs_le.1 ((sq_le_one_iff_abs_le_one _).1 hsq)).2
  linarith

/-- The function has the sign of the smaller number, and its slopes are on a circle around one. -/
structure Signed (a b φ da db : ℝ) : Prop where
  pos : 0 < φ ↔ 0 < a ∧ 0 < b
  zero : φ = 0 ↔ 0 ≤ a ∧ 0 ≤ b ∧ a * b = 0
  sign : SignType.sign φ = SignType.sign (min a b)
  le_abs : 7 / 12 * |min a b| ≤ |φ|
  abs_le : |φ| ≤ 24 / 7 * |min a b|
  circle : (1 - da) ^ 2 + (1 - db) ^ 2 = 1
  first : 0 ≤ da ∧ da ≤ 2
  second : 0 ≤ db ∧ db ≤ 2

/-- The function of any two numbers is signed as the smaller one of them, also at the kink. -/
theorem signed_of_fischerBurmeister (a b : ℝ) :
    ∃ φ da db : ℝ, fischerBurmeister (Exact.real a) (.real b) = ⟨.real φ, .real da, .real db⟩ ∧
      Signed a b φ da db := by
  refine ⟨_, _, _, fischerBurmeister_eq a b, ?_⟩
  exact {
    pos := fischer_pos_iff a b
    zero := fischer_eq_zero_iff a b
    sign := sign_fischer a b
    le_abs := le_abs_fischer a b
    abs_le := abs_fischer_le a b
    circle := fischerSlope_circle a b
    first := ⟨fischerSlope_nonneg a b, fischerSlope_le_two a b⟩
    second := ⟨fischerSlope_nonneg b a, fischerSlope_le_two b a⟩ }

end Equilibria
