import Equilibria.Box.Reformulation
import Equilibria.Proofs.Exact

/-!
# How far a component is from being solved

A component is solved when its natural residual is zero. Its equation, which solvers make small,
has the sign of the natural residual, is at least a third of it and at most twelve times as large.
-/

namespace Equilibria

/-! ## Numbers that measure the same -/

/-- Two numbers have one sign, and the second is at most `c` times the first. -/
structure Near (c z w : ℝ) : Prop where
  pos : 0 ≤ z → 0 ≤ w ∧ w ≤ c * z
  neg : z ≤ 0 → w ≤ 0 ∧ c * z ≤ w

namespace Near

variable {c d x y z a : ℝ}

theorem symm_neg (h : Near c x y) : Near c (-x) (-y) := by
  refine ⟨fun hx => ?_, fun hx => ?_⟩
  · obtain ⟨hy, hc⟩ := h.neg (by linarith)
    exact ⟨by linarith, by linarith⟩
  · obtain ⟨hy, hc⟩ := h.pos (by linarith)
    exact ⟨by linarith, by linarith⟩

theorem trans (h : Near c x y) (h' : Near d y z) (hd : 0 ≤ d) : Near (d * c) x z := by
  refine ⟨fun hx => ?_, fun hx => ?_⟩
  · obtain ⟨hy, hc⟩ := h.pos hx
    obtain ⟨hz, hdz⟩ := h'.pos hy
    exact ⟨hz, by rw [mul_assoc]; exact hdz.trans (mul_le_mul_of_nonneg_left hc hd)⟩
  · obtain ⟨hy, hc⟩ := h.neg hx
    obtain ⟨hz, hdz⟩ := h'.neg hy
    exact ⟨hz, by rw [mul_assoc]; exact (mul_le_mul_of_nonneg_left hc hd).trans hdz⟩

theorem min_left (h : Near c x y) (hc : 1 ≤ c) : Near c (min a x) (min a y) := by
  refine ⟨fun hm => ?_, fun hm => ?_⟩
  · obtain ⟨ha, hx⟩ := le_min_iff.1 hm
    obtain ⟨hy, hyx⟩ := h.pos hx
    refine ⟨le_min ha hy, ?_⟩
    rcases min_choice a x with hax | hax
    · rw [hax]
      exact (min_le_left a y).trans (le_mul_of_one_le_left ha hc)
    · rw [hax]
      exact (min_le_right a y).trans hyx
  · rcases le_total a x with hax | hax
    · rw [min_eq_left hax] at hm ⊢
      refine ⟨(min_le_left a y).trans hm, le_min (mul_le_of_one_le_left hm hc) ?_⟩
      rcases le_total 0 x with hx | hx
      · exact (mul_nonpos_of_nonneg_of_nonpos (by linarith) hm).trans (h.pos hx).1
      · exact (mul_le_mul_of_nonneg_left hax (by linarith)).trans (h.neg hx).2
    · rw [min_eq_right hax] at hm ⊢
      obtain ⟨hy, hyx⟩ := h.neg hm
      exact ⟨(min_le_right a y).trans hy, le_min ((mul_le_of_one_le_left hm hc).trans hax) hyx⟩

theorem abs_le (h : Near c x y) (hc : c ≤ d) : |y| ≤ d * |x| := by
  rcases le_total 0 x with hx | hx
  · obtain ⟨hy, hyx⟩ := h.pos hx
    rw [abs_of_nonneg hx, abs_of_nonneg hy]
    exact hyx.trans (mul_le_mul_of_nonneg_right hc hx)
  · obtain ⟨hy, hyx⟩ := h.neg hx
    rw [abs_of_nonpos hx, abs_of_nonpos hy]
    have := mul_le_mul_of_nonpos_right hc hx
    linarith

theorem refl (x : ℝ) : Near 1 x x := ⟨fun h => ⟨h, by simp⟩, fun h => ⟨h, by simp⟩⟩

end Near

/-! ## The Fischer-Burmeister function -/

/-- The Fischer-Burmeister function of real numbers. -/
noncomputable def fischer (a b : ℝ) : ℝ := a + b - √(a ^ 2 + b ^ 2)

theorem fischer_comm (a b : ℝ) : fischer a b = fischer b a := by
  rw [fischer, fischer, add_comm a b, add_comm (a ^ 2)]

theorem fischerBurmeister_real (a b : ℝ) :
    (fischerBurmeister (Exact.real a) (Exact.real b)).value = .real (fischer a b) := by
  simp only [fischerBurmeister]
  split <;> simp [fischer]

theorem kinkSlope_real : (kinkSlope : Exact) = .real (1 - 1 / √2) := by
  have hs : Exact.sqrt (.real (2 : ℕ)) = .real √2 := by simp [Exact.sqrt]
  have hd : Exact.div (.real (1 : ℕ)) (.real √2) = .real (1 / √2) := by simp [Exact.div]
  change (1 : Exact) - Exact.div (.real (1 : ℕ)) (Exact.sqrt (.real (2 : ℕ))) = _
  rw [hs, hd, Exact.one_eq, Exact.sub_real]

theorem sqrt_le_of_le {a b : ℝ} (ha : 0 ≤ a) (hab : a ≤ b) :
    √(a ^ 2 + b ^ 2) ≤ 5 / 12 * a + b := by
  refine Real.sqrt_le_iff.2 ⟨by linarith, ?_⟩
  nlinarith [mul_nonneg ha (sub_nonneg.2 hab), mul_nonneg ha ha]

theorem near_fischer_of_le {a b : ℝ} (hab : a ≤ b) : Near (12 / 7) (fischer a b) a := by
  have hb : b ≤ √(a ^ 2 + b ^ 2) := Real.le_sqrt_of_sq_le (by nlinarith [sq_nonneg a])
  have hle : fischer a b ≤ a := by rw [fischer]; linarith
  refine ⟨fun h => ?_, fun h => ?_⟩
  · have ha : 0 ≤ a := h.trans hle
    have := sqrt_le_of_le ha hab
    exact ⟨ha, by rw [fischer]; linarith⟩
  · have ha : a ≤ 0 := by
      by_contra! ha
      have := sqrt_le_of_le ha.le hab
      rw [fischer] at h
      linarith
    exact ⟨ha, by linarith⟩

/-- The function measures the smaller one of its arguments. -/
theorem near_fischer (a b : ℝ) : Near (12 / 7) (fischer a b) (min a b) := by
  rcases le_total a b with hab | hab
  · rw [min_eq_left hab]
    exact near_fischer_of_le hab
  · rw [min_eq_right hab, fischer_comm]
    exact near_fischer_of_le hab

theorem near_min_of_le {a b : ℝ} (hab : a ≤ b) : Near (24 / 7) a (fischer a b) := by
  refine ⟨fun ha => ?_, fun ha => ?_⟩
  · have hb : b ≤ √(a ^ 2 + b ^ 2) := Real.le_sqrt_of_sq_le (by nlinarith [sq_nonneg a])
    have hs := sqrt_le_of_le ha hab
    constructor
    · rw [fischer]
      linarith
    · rw [fischer]
      linarith
  · -- Where both arguments are negative the length adds to them, but no more than this.
    have hlong : √(a ^ 2 + b ^ 2) ≤ b - 17 / 7 * a := by
      refine Real.sqrt_le_iff.2 ⟨by linarith, ?_⟩
      nlinarith [mul_nonneg (neg_nonneg.2 ha) (sub_nonneg.2 hab), sq_nonneg a]
    have hb : b ≤ √(a ^ 2 + b ^ 2) := Real.le_sqrt_of_sq_le (by nlinarith [sq_nonneg a])
    constructor
    · rw [fischer]
      linarith
    · rw [fischer]
      linarith

theorem near_min (a b : ℝ) : Near (24 / 7) (min a b) (fischer a b) := by
  rcases le_total a b with hab | hab
  · rw [min_eq_left hab]
    exact near_min_of_le hab
  · rw [min_eq_right hab, fischer_comm]
    exact near_min_of_le hab

/-! ## Components -/

/-- How far `x` between `l` and `u` is from a solution against `f`. -/
noncomputable def natural (l u : Exact) (x f : ℝ) : ℝ :=
  match l, u with
  | .real l, .real u => min (x - l) (max (x - u) f)
  | .real l, _ => min (x - l) f
  | _, .real u => max (x - u) f
  | _, _ => f

/-- The value of the equation of a component. -/
noncomputable def equation (l u : Exact) (x f : ℝ) : ℝ :=
  match l, u with
  | .real l, .real u => fischer (x - l) (-fischer (u - x) (-f))
  | .real l, _ => fischer (x - l) f
  | _, .real u => -fischer (u - x) (-f)
  | _, _ => f

theorem boxRow_real (l u : Exact) (x f : ℝ) :
    (boxRow l u (.real x) (.real f)).value = Exact.real (equation l u x f) := by
  rcases l with l | l | _ <;> rcases u with u | u | _ <;>
    simp [boxRow, Side.of, equation, fischerBurmeister_real]

theorem near_upper (u x f : ℝ) : Near (12 / 7) (-fischer (u - x) (-f)) (max (x - u) f) := by
  have h := (near_fischer (u - x) (-f)).symm_neg
  rwa [← max_neg_neg, neg_sub, neg_neg] at h

theorem near_equation (l u : Exact) (x f : ℝ) :
    ∃ c ≤ 3, Near c (equation l u x f) (natural l u x f) := by
  rcases l with l | l | _ <;> rcases u with u | u | _
  -- With both bounds, one function stands inside the other.
  · have h := (near_fischer (x - l) (-fischer (u - x) (-f))).trans
      ((near_upper u x f).min_left (by norm_num)) (by norm_num)
    exact ⟨_, by norm_num, h⟩
  · exact ⟨_, by norm_num, near_fischer (x - l) f⟩
  · exact ⟨_, by norm_num, near_fischer (x - l) f⟩
  · exact ⟨_, by norm_num, near_upper u x f⟩
  · exact ⟨_, by norm_num, Near.refl f⟩
  · exact ⟨_, by norm_num, Near.refl f⟩
  · exact ⟨_, by norm_num, near_upper u x f⟩
  · exact ⟨_, by norm_num, Near.refl f⟩
  · exact ⟨_, by norm_num, Near.refl f⟩

theorem near_upper_equation (u x f : ℝ) :
    Near (24 / 7) (max (x - u) f) (-fischer (u - x) (-f)) := by
  have h := (near_min (u - x) (-f)).symm_neg
  rwa [← max_neg_neg, neg_sub, neg_neg] at h

theorem near_natural (l u : Exact) (x f : ℝ) :
    ∃ c ≤ 12, Near c (natural l u x f) (equation l u x f) := by
  rcases l with l | l | _ <;> rcases u with u | u | _
  · have h := ((near_upper_equation u x f).min_left (a := x - l) (by norm_num)).trans
      (near_min (x - l) (-fischer (u - x) (-f))) (by norm_num)
    exact ⟨_, by norm_num, h⟩
  · exact ⟨_, by norm_num, near_min (x - l) f⟩
  · exact ⟨_, by norm_num, near_min (x - l) f⟩
  · exact ⟨_, by norm_num, near_upper_equation u x f⟩
  · exact ⟨_, by norm_num, Near.refl f⟩
  · exact ⟨_, by norm_num, Near.refl f⟩
  · exact ⟨_, by norm_num, near_upper_equation u x f⟩
  · exact ⟨_, by norm_num, Near.refl f⟩
  · exact ⟨_, by norm_num, Near.refl f⟩

theorem abs_natural_le (l u : Exact) (x f : ℝ) :
    |natural l u x f| ≤ 3 * |equation l u x f| := by
  obtain ⟨c, hc, h⟩ := near_equation l u x f
  exact h.abs_le hc

theorem abs_equation_le (l u : Exact) (x f : ℝ) :
    |equation l u x f| ≤ 12 * |natural l u x f| := by
  obtain ⟨c, hc, h⟩ := near_natural l u x f
  exact h.abs_le hc

end Equilibria
