import Mathlib.Analysis.Calculus.Deriv.Pow
import Equilibria.Proofs.Occurrences
import Equilibria.Proofs.Slopes

/-!
# Whole powers

A power with a constant exponent has its slope from one lower power and two products. A whole
exponent above zero leaves no exponent below zero, so the slope is right at any base. The exponent
zero asks for one over the base, which spoils the slope where the base is zero.
-/

namespace Equilibria

open Filter Topology

/-! ## The rule of a constant exponent -/

namespace Expr

theorem derivative_constantPower {α : Type} [Scalar α] {u : Expr α} {k : Key} {b : Binding α}
    {x d : α} (hx : u.evaluate b = .ok x) (hd : u.derivative k b = .ok d) (c : α) :
    (binary .pow u (const c)).derivative k b =
      .ok (if u.mentions k then c * Scalar.pow x (c - 1) * d else 0) := by
  have hmentions : (const c).mentions k = false := rfl
  have hzero := derivative_of_not_mentions (b := b) (e := const c) rfl hmentions
  rw [derivative_binary hx rfl hd hzero, mentions_binary, hmentions, Bool.or_false]
  rfl

end Expr

/-! ## Whole exponents -/

namespace Exact

theorem pow_natCast (x : ℝ) (n : ℕ) : Scalar.pow (real x) (real n) = real (x ^ n) := by
  rw [pow_eq_real]
  refine ⟨?_, ?_, Real.rpow_natCast x n⟩
  · rintro ⟨-, hn⟩
    exact hn.not_ge n.cast_nonneg
  · rintro ⟨-, hn⟩
    exact hn ⟨n, (Int.cast_natCast n).symm⟩

theorem pow_pred {c : ℕ} (hc : c ≠ 0) (x : ℝ) :
    Scalar.pow (real x) (real c - 1) = real (x ^ (c - 1)) := by
  have hpred : real c - 1 = real ((c - 1 : ℕ) : ℝ) := by
    rw [one_eq, sub_real, Nat.cast_sub (Nat.one_le_iff_ne_zero.2 hc), Nat.cast_one]
  rw [hpred, pow_natCast]

theorem pow_neg_one {x : ℝ} (hx : x ≠ 0) : Scalar.pow (real x) (real 0 - 1) = real x⁻¹ := by
  rw [one_eq, sub_real, zero_sub, pow_eq_real]
  refine ⟨fun h => hx h.1, ?_, Real.rpow_neg_one x⟩
  rintro ⟨-, hn⟩
  exact hn ⟨-1, by norm_num⟩

theorem zero_pow_neg_one : Scalar.pow (real 0) (real 0 - 1) = infinite false := by
  rw [one_eq, sub_real, zero_sub]
  exact if_pos ⟨rfl, by norm_num⟩

theorem zero_mul_infinite (d : ℝ) : real 0 * infinite false * real d = nan := by
  have hnan : real 0 * infinite false = nan := if_pos rfl
  rw [hnan]
  rfl

/-- The slope of a power of `x` where `x` has the slope `d`. -/
noncomputable def powerSlope (c x d : ℝ) : Exact :=
  real c * Scalar.pow (real x) (real c - 1) * real d

theorem powerSlope_eq_nan (d : ℝ) : powerSlope 0 0 d = nan := by
  unfold powerSlope
  rw [zero_pow_neg_one, zero_mul_infinite]

theorem powerSlope_eq_real (c : ℕ) (x d : ℝ) :
    powerSlope c x d = real (c * x ^ (c - 1) * d) ↔ ¬ (c = 0 ∧ x = 0) := by
  constructor
  · rintro h ⟨rfl, rfl⟩
    rw [Nat.cast_zero, powerSlope_eq_nan] at h
    cases h
  · intro h
    unfold powerSlope
    by_cases hc : c = 0
    · subst hc
      rw [Nat.cast_zero, pow_neg_one fun hx => h ⟨rfl, hx⟩]
      simp
    · rw [pow_pred hc, mul_real, mul_real]

end Exact

theorem Binding.shift_zero (k : Key) (b : Binding Exact) : b.shift k (.real 0) = b := by
  funext k'
  unfold Binding.shift
  cases hb : b k' with
  | error err => rfl
  | ok x =>
    refine congrArg Except.ok ?_
    rw [← Exact.zero_eq, Exact.add_zero_eq, ite_self]

section

variable {u : Expr Exact} {k : Key} {b : Binding Exact} {x d : ℝ}

theorem evaluate_wholePower (hx : u.evaluate b = .ok (.real x)) (c : ℕ) :
    (Expr.binary .pow u (.const (.real c))).evaluate b = .ok (.real (x ^ c)) := by
  rw [Expr.evaluate, hx]
  exact congrArg Except.ok (Exact.pow_natCast x c)

theorem moves_of_wholePower (hx : u.evaluate b = .ok (.real x)) (c : ℕ) {v : ℝ → ℝ}
    (hv : ∀ᶠ t in 𝓝 0, u.evaluate (b.shift k (.real t)) = .ok (.real (v t)))
    (hd : HasDerivAt v d 0) :
    (∀ᶠ t in 𝓝 0, (Expr.binary .pow u (.const (.real c))).evaluate (b.shift k (.real t)) =
      .ok (.real (v t ^ c))) ∧
    HasDerivAt (fun t => v t ^ c) (c * x ^ (c - 1) * d) 0 := by
  have hv0 : v 0 = x := by
    have h := hv.self_of_nhds
    rw [Binding.shift_zero, hx] at h
    cases h
    rfl
  refine ⟨?_, ?_⟩
  · filter_upwards [hv] with t ht
    exact evaluate_wholePower ht c
  · rw [← hv0]
    exact hd.pow c

/-- The derivative of a whole power is its slope. With exact numbers it is none only where the
exponent and the base are both zero. -/
theorem slope_of_wholePower (hx : u.evaluate b = .ok (.real x))
    (hd : u.derivative k b = .ok (.real d)) (c : ℕ) :
    let e : Expr Exact := .binary .pow u (.const (.real c))
    let slope : ℝ := c * x ^ (c - 1) * d
    e.evaluate b = .ok (.real (x ^ c)) ∧
    (u.mentions k = true →
      e.derivative k b = .ok (.real c * Scalar.pow (.real x) (.real c - 1) * .real d) ∧
      (e.derivative k b = .ok (.real slope) ↔ ¬ (c = 0 ∧ x = 0)) ∧
      (c = 0 → x = 0 → e.derivative k b = .ok .nan)) ∧
    (u.mentions k = false →
      e.derivative k b = .ok 0 ∧ (u.isForeign = false → e.derivative k b = .ok (.real slope))) ∧
    ∀ v : ℝ → ℝ, (∀ᶠ t in 𝓝 0, u.evaluate (b.shift k (.real t)) = .ok (.real (v t))) →
      HasDerivAt v d 0 → ∃ w : ℝ → ℝ,
        (∀ᶠ t in 𝓝 0, e.evaluate (b.shift k (.real t)) = .ok (.real (w t))) ∧
        HasDerivAt w slope 0 := by
  intro e slope
  have hderivative := Expr.derivative_constantPower hx hd (.real c)
  refine ⟨evaluate_wholePower hx c, fun hk => ?_, fun hk => ?_, fun v hv hslope => ?_⟩
  · rw [if_pos hk] at hderivative
    refine ⟨hderivative, ?_, ?_⟩
    · rw [hderivative, Except.ok.injEq]
      exact Exact.powerSlope_eq_real c x d
    · rintro rfl rfl
      rw [hderivative, Nat.cast_zero]
      exact congrArg Except.ok (Exact.powerSlope_eq_nan d)
  · rw [if_neg (by simp [hk])] at hderivative
    refine ⟨hderivative, fun hu => hderivative.trans ?_⟩
    have hzero : d = 0 := by
      have hstill := Expr.derivative_of_not_mentions (b := b) hu hk
      rw [hd, Exact.zero_eq] at hstill
      cases hstill
      rfl
    simp [slope, hzero]
  · exact ⟨_, moves_of_wholePower hx c hv hslope⟩

end

/-- The first power of `sin x` at zero, where the lower power is that of zero to zero. -/
theorem slope_of_sine : let x : Key := ⟨"x", []⟩; let b : Binding Exact := fun _ => .ok (.real 0)
    (Expr.binary .pow (.unary .sin (.ref x)) (.const (.real (1 : ℕ)))).derivative x b =
      .ok (.real 1) := by
  intro x b
  have hvalue : (Expr.unary .sin (.ref x)).evaluate b = .ok (.real 0) :=
    congrArg (fun t => Except.ok (Exact.real t)) Real.sin_zero
  have hslope : (Expr.unary .sin (.ref x)).derivative x b = .ok (.real 1) := by
    have hcos : (Expr.unary .sin (.ref x)).derivative x b = .ok (.real (Real.cos 0) * 1) := rfl
    rw [hcos, Real.cos_zero, Exact.one_eq, Exact.mul_real, mul_one]
  obtain ⟨-, hmentioned, -⟩ := slope_of_wholePower hvalue hslope 1
  obtain ⟨-, hiff, -⟩ := hmentioned (by decide)
  refine (hiff.2 (by simp)).trans ?_
  simp

/-- The power `x ** 0` is one all around zero, and its derivative at zero is not a number. -/
theorem slope_of_zeroPower : let x : Key := ⟨"x", []⟩
    let b : Binding Exact := fun _ => .ok (.real 0)
    let e : Expr Exact := .binary .pow (.ref x) (.const (.real (0 : ℕ)))
    ((Expr.ref x : Expr Exact).evaluate b = .ok (.real 0) ∧
      (Expr.ref x : Expr Exact).derivative x b = .ok (.real 1)) ∧
    (∀ t : ℝ, e.evaluate (b.shift x (.real t)) = .ok (.real 1)) ∧
    e.derivative x b = .ok .nan ∧ e.derivative x b ≠ .ok (.real 0) := by
  intro x b e
  have hslope : (Expr.ref x : Expr Exact).derivative x b = .ok (.real 1) :=
    congrArg Except.ok Exact.one_eq
  have hnan : e.derivative x b = .ok .nan := by
    have hmentions : (Expr.ref x : Expr Exact).mentions x = true := by decide
    have hderivative := Expr.derivative_constantPower (u := .ref x) (b := b) rfl hslope
      (.real ((0 : ℕ) : ℝ))
    rw [if_pos hmentions] at hderivative
    refine hderivative.trans (congrArg Except.ok ?_)
    rw [Nat.cast_zero]
    exact Exact.powerSlope_eq_nan 1
  refine ⟨⟨rfl, hslope⟩, fun t => ?_, hnan, ?_⟩
  · have hbase : (Expr.ref x : Expr Exact).evaluate (b.shift x (.real t)) =
        .ok (.real (0 + t)) := rfl
    rw [evaluate_wholePower hbase, pow_zero]
  · rw [hnan]
    intro h
    cases h

end Equilibria
