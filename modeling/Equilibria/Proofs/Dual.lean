import Mathlib.Algebra.DualNumber
import Equilibria.Proofs.Exact

/-!
# Dual numbers

A dual number is a value with a slope, `x + d ε` where `ε² = 0`. Arithmetic with dual numbers moves
the slopes along by the rules of calculus, so what is written for scalars can be run on them as it
is.
-/

namespace Equilibria

/-- The number `value + slope ε`. -/
structure Dual (α : Type) where
  value : α
  slope : α

namespace Dual

variable {α : Type} [Scalar α]

def const (x : α) : Dual α := ⟨x, 0⟩

def chain (f f' : α → α) (x : Dual α) : Dual α := ⟨f x.value, f' x.value * x.slope⟩

/-- The slope of a power. The logarithm of the base counts only if the exponent moves. -/
def powSlope (x y : Dual α) : α :=
  let byBase := y.value * Scalar.pow x.value (y.value - 1) * x.slope
  if y.slope == 0 then byBase
  else byBase + Scalar.pow x.value y.value * Scalar.log x.value * y.slope

instance : Scalar (Dual α) where
  add x y := ⟨x.value + y.value, x.slope + y.slope⟩
  sub x y := ⟨x.value - y.value, x.slope - y.slope⟩
  mul x y := ⟨x.value * y.value, x.value * y.slope + x.slope * y.value⟩
  div x y := ⟨x.value / y.value, (x.slope - x.value / y.value * y.slope) / y.value⟩
  neg x := ⟨-x.value, -x.slope⟩
  beq x y := x.value == y.value
  le x y := x.value ≤ y.value
  lt x y := x.value < y.value
  ofFloat x := const (Scalar.ofFloat x)
  toFloat x := Scalar.toFloat x.value
  ofNat n := const (Scalar.ofNat n)
  infinity := const Scalar.infinity
  abs := chain Scalar.abs fun x => if x < 0 then -1 else 1
  sqrt := chain Scalar.sqrt fun x => 1 / (2 * Scalar.sqrt x)
  exp := chain Scalar.exp Scalar.exp
  log := chain Scalar.log fun x => 1 / x
  sin := chain Scalar.sin Scalar.cos
  cos := chain Scalar.cos fun x => -Scalar.sin x
  pow x y := ⟨Scalar.pow x.value y.value, powSlope x y⟩
  hypot x y :=
    let r := Scalar.hypot x.value y.value
    ⟨r, (x.value * x.slope + y.value * y.slope) / r⟩
  isFinite x := Scalar.isFinite x.value
  isNaN x := Scalar.isNaN x.value
  isWhole x := Scalar.isWhole x.value
  decLe x y := Scalar.decLe x.value y.value
  decLt x y := Scalar.decLt x.value y.value

end Dual

/-! ## Exact scalars -/

/-- Scalars that compute exactly with the numbers of an ordered field. -/
class ExactOver (α : Type) (K : outParam Type) [Scalar α] [Field K] [LinearOrder K]
    [IsStrictOrderedRing K] where
  num : K → α
  log : K → K
  exp : K → K
  sqrt : K → K
  sin : K → K
  cos : K → K
  pow : K → K → K
  ofNat_num (n : Nat) : (Scalar.ofNat n : α) = num n
  add_num (x y : K) : num x + num y = num (x + y)
  sub_num (x y : K) : num x - num y = num (x - y)
  mul_num (x y : K) : num x * num y = num (x * y)
  div_num (x : K) {y : K} (hy : y ≠ 0) : num x / num y = num (x / y)
  neg_num (x : K) : -num x = num (-x)
  beq_num (x y : K) : (num x == num y) = true ↔ x = y
  log_num {x : K} (hx : 0 < x) : Scalar.log (num x) = num (log x)
  exp_num (x : K) : Scalar.exp (num x) = num (exp x)
  sqrt_num {x : K} (hx : 0 < x) : Scalar.sqrt (num x) = num (sqrt x)
  sin_num (x : K) : Scalar.sin (num x) = num (sin x)
  cos_num (x : K) : Scalar.cos (num x) = num (cos x)
  pow_num {x y : K} (h : 0 < x ∨ x ≠ 0 ∧ ∃ n : ℤ, y = n) :
    Scalar.pow (num x) (num y) = num (pow x y)
  sqrt_pos {x : K} (hx : 0 < x) : 0 < sqrt x
  pow_sub_one {x : K} (y : K) (hx : 0 < x) : pow x (y - 1) = pow x y / x

noncomputable instance : ExactOver Exact ℝ where
  num := .real
  log := Real.log
  exp := Real.exp
  sqrt := Real.sqrt
  sin := Real.sin
  cos := Real.cos
  pow x y := x ^ y
  ofNat_num _ := rfl
  add_num := Exact.add_real
  sub_num := Exact.sub_real
  mul_num := Exact.mul_real
  div_num x _ hy := Exact.div_real x hy
  neg_num := Exact.neg_real
  beq_num _ _ := decide_eq_true_iff
  log_num := Exact.log_real
  exp_num _ := rfl
  sqrt_num hx := Exact.sqrt_real hx.le
  sin_num _ := rfl
  cos_num _ := rfl
  pow_num {x y} h := by
    have hzero : ¬ (x = 0 ∧ y < 0) := by
      rcases h with hx | ⟨hx, -⟩
      · exact fun h0 => hx.ne' h0.1
      · exact fun h0 => hx h0.1
    have hwhole : ¬ (x < 0 ∧ ¬ Exact.IsWhole y) := by
      rcases h with hx | ⟨-, hy⟩
      · exact fun h0 => hx.not_gt h0.1
      · exact fun h0 => h0.2 hy
    exact Exact.pow_eq_real.2 ⟨hzero, hwhole, rfl⟩
  sqrt_pos := Real.sqrt_pos.2
  pow_sub_one y hx := Real.rpow_sub_one hx.ne' y

/-! ## Dual numbers of a field -/

namespace Dual

open ExactOver

variable {α K : Type} [Scalar α] [Field K] [LinearOrder K] [IsStrictOrderedRing K] [ExactOver α K]

theorem zero_num : (0 : α) = num 0 := (ofNat_num 0).trans (congrArg num Nat.cast_zero)

theorem one_num : (1 : α) = num 1 := (ofNat_num 1).trans (congrArg num Nat.cast_one)

theorem two_num : (2 : α) = num 2 := (ofNat_num 2).trans (congrArg num Nat.cast_two)

def ofNumber (z : DualNumber K) : Dual α := ⟨num z.fst, num z.snd⟩

theorem const_num (x : K) : const (num x : α) = ofNumber (TrivSqZeroExt.inl x) := by
  rw [const, zero_num]
  rfl

theorem ofNumber_add (z w : DualNumber K) :
    (ofNumber z + ofNumber w : Dual α) = ofNumber (z + w) := by
  change mk _ _ = mk _ _
  simp only [ofNumber, add_num, TrivSqZeroExt.fst_add, TrivSqZeroExt.snd_add]

theorem ofNumber_sub (z w : DualNumber K) :
    (ofNumber z - ofNumber w : Dual α) = ofNumber (z - w) := by
  change mk _ _ = mk _ _
  simp only [ofNumber, sub_num, TrivSqZeroExt.fst_sub, TrivSqZeroExt.snd_sub]

theorem ofNumber_neg (z : DualNumber K) : (-ofNumber z : Dual α) = ofNumber (-z) := by
  change mk _ _ = mk _ _
  simp only [ofNumber, neg_num, TrivSqZeroExt.fst_neg, TrivSqZeroExt.snd_neg]

theorem ofNumber_mul (z w : DualNumber K) :
    (ofNumber z * ofNumber w : Dual α) = ofNumber (z * w) := by
  change mk _ _ = mk _ _
  simp only [ofNumber, mul_num, add_num, TrivSqZeroExt.fst_mul, DualNumber.snd_mul]

theorem ofNumber_div (z : DualNumber K) {w : DualNumber K} (hw : w.fst ≠ 0) :
    (ofNumber z / ofNumber w : Dual α) = ofNumber (z * w⁻¹) := by
  have hvalue : z.fst / w.fst = (z * w⁻¹).fst := by
    rw [TrivSqZeroExt.fst_mul, TrivSqZeroExt.fst_inv, div_eq_mul_inv]
  have hslope : (z.snd - z.fst / w.fst * w.snd) / w.fst = (z * w⁻¹).snd := by
    rw [DualNumber.snd_mul, TrivSqZeroExt.snd_inv, TrivSqZeroExt.fst_inv, op_smul_eq_mul,
      smul_eq_mul]
    field_simp
    ring
  change mk _ _ = mk _ _
  simp only [ofNumber, div_num _ hw, mul_num, sub_num]
  rw [hslope, hvalue]

theorem chain_ofNumber {f f' : α → α} {z : DualNumber K} {y d : K} (hf : f (num z.fst) = num y)
    (hd : f' (num z.fst) = num d) :
    chain f f' (ofNumber z) = ofNumber ((y, d * z.snd) : DualNumber K) := by
  change mk (f (num z.fst)) (f' (num z.fst) * num z.snd) = _
  rw [hf, hd, mul_num]
  rfl

end Dual

end Equilibria
