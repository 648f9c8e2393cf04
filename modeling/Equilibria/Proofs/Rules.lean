import Equilibria.Expr.Evaluate
import Equilibria.Proofs.Dual

/-!
# Rules of slopes

Each operation and function takes dual numbers to the one whose slope the rule of its derivative
gives. A power has three rules, of which the shorter ones are for a side that stands still.
-/

namespace Equilibria

open ExactOver
open Equilibria.Dual (chain ofNumber powSlope zero_num one_num two_num)

variable {α K : Type} [Scalar α] [Field K] [LinearOrder K] [IsStrictOrderedRing K]
  [ExactOver α K]

/-! ## Operations -/

/-- The slope of an operation on `x` and `y` with slopes `dx` and `dy`. -/
def BinaryOp.slope (op : BinaryOp) (inLeft inRight : Bool) (x y dx dy : α) : α :=
  match op with
  | .add => dx + dy
  | .sub => dx - dy
  | .mul => dx * y + x * dy
  | .div => (dx * y - x * dy) / (y * y)
  | .pow => Expr.powDerivative inLeft inRight x y dx dy

variable (α) in
/-- The operation takes the dual numbers `z` and `w` to `v`, and so does the rule of its slope. -/
structure BinaryOp.Follows (op : BinaryOp) (inLeft inRight : Bool) (z w v : DualNumber K) :
    Prop where
  apply : op.apply (ofNumber z : Dual α) (ofNumber w) = ofNumber v
  slope : op.slope inLeft inRight (num z.fst : α) (num w.fst) (num z.snd) (num w.snd) = num v.snd
  still : z.snd = 0 → w.snd = 0 → v.snd = 0

variable (α) in
structure UnaryOp.Follows (op : UnaryOp) (z v : DualNumber K) : Prop where
  apply : op.apply (ofNumber z : Dual α) = ofNumber v
  slope : Expr.unaryDerivative op (num z.fst : α) (num z.snd) = num v.snd
  still : z.snd = 0 → v.snd = 0

variable (α) in
def ExactOver.raise (z w : DualNumber K) : DualNumber K :=
  (pow α z.fst w.fst, w.fst * pow α z.fst (w.fst - 1) * z.snd +
    pow α z.fst w.fst * log α z.fst * w.snd)

namespace BinaryOp

variable {inLeft inRight : Bool} {z w : DualNumber K}

theorem value_apply (op : BinaryOp) (x y : Dual α) :
    (op.apply x y).value = op.apply x.value y.value := by
  cases op <;> rfl

theorem follows_add : add.Follows α inLeft inRight z w (z + w) where
  apply := Dual.ofNumber_add z w
  slope := add_num z.snd w.snd
  still hz hw := by rw [TrivSqZeroExt.snd_add, hz, hw, add_zero]

theorem follows_sub : sub.Follows α inLeft inRight z w (z - w) where
  apply := Dual.ofNumber_sub z w
  slope := sub_num z.snd w.snd
  still hz hw := by rw [TrivSqZeroExt.snd_sub, hz, hw, sub_zero]

theorem follows_mul : mul.Follows α inLeft inRight z w (z * w) where
  apply := Dual.ofNumber_mul z w
  slope := by
    simp only [slope, mul_num, add_num, DualNumber.snd_mul]
    rw [add_comm]
  still hz hw := by rw [DualNumber.snd_mul, hz, hw, mul_zero, zero_mul, add_zero]

theorem follows_div (hw : w.fst ≠ 0) : div.Follows α inLeft inRight z w (z * w⁻¹) := by
  have hsnd : (z * w⁻¹).snd = (z.snd * w.fst - z.fst * w.snd) / (w.fst * w.fst) := by
    rw [DualNumber.snd_mul, TrivSqZeroExt.snd_inv, TrivSqZeroExt.fst_inv, op_smul_eq_mul,
      smul_eq_mul]
    field_simp
    ring
  refine ⟨Dual.ofNumber_div z hw, ?_, fun hz hw' => ?_⟩
  · rw [hsnd]
    simp only [slope, mul_num, sub_num, div_num _ (mul_ne_zero hw hw)]
  · rw [hsnd, hz, hw', zero_mul, mul_zero, sub_zero, zero_div]

/-- Where the base is positive, the rules of a power agree. -/
theorem powDerivative_num {x : K} (y dx dy : K) (hx : 0 < x) (hl : inLeft = false → dx = 0)
    (hr : inRight = false → dy = 0) :
    Expr.powDerivative inLeft inRight (num x : α) (num y) (num dx) (num dy) =
      num (y * ExactOver.pow α x (y - 1) * dx + ExactOver.pow α x y * log α x * dy) := by
  have hpow (y : K) : Scalar.pow (num x : α) (num y) = num (ExactOver.pow α x y) :=
    pow_num (.inl hx)
  unfold Expr.powDerivative
  split
  · rw [hr (by simpa using ‹(!inRight) = true›), one_num, sub_num, hpow, mul_num, mul_num, mul_zero,
      add_zero]
  · split
    · rw [hl (by simpa using ‹(!inLeft) = true›), hpow, log_num hx, mul_num, mul_num, mul_zero,
        zero_add]
    · rw [hpow, log_num hx, mul_num, mul_num, div_num _ hx.ne', add_num, mul_num,
        pow_sub_one y hx]
      congr 1
      field_simp
      ring

theorem follows_pow (hl : inLeft = false → z.snd = 0) (hr : inRight = false → w.snd = 0)
    (h : 0 < z.fst ∨ (z.fst ≠ 0 ∧ ∃ n : ℤ, w.fst = n) ∧ inRight = false) :
    pow.Follows α inLeft inRight z w (raise α z w) := by
  have hpow : Scalar.pow (num z.fst : α) (num w.fst) = num (ExactOver.pow α z.fst w.fst) :=
    pow_num (h.imp_right fun h => h.1)
  have hbase : Scalar.pow (num z.fst : α) (num (w.fst - 1)) =
      num (ExactOver.pow α z.fst (w.fst - 1)) := by
    refine pow_num (h.imp_right fun h => ⟨h.1.1, ?_⟩)
    obtain ⟨n, hn⟩ := h.1.2
    exact ⟨n - 1, by rw [hn]; push_cast; rfl⟩
  have hrule : num w.fst * Scalar.pow (num z.fst) (num w.fst - 1) * num z.snd =
      (num (w.fst * ExactOver.pow α z.fst (w.fst - 1) * z.snd) : α) := by
    rw [one_num, sub_num, hbase, mul_num, mul_num]
  have hraise (hw : w.snd = 0) :
      (raise α z w).snd = w.fst * ExactOver.pow α z.fst (w.fst - 1) * z.snd := by
    simp [raise, hw]
  refine ⟨?_, ?_, fun hz hw => ?_⟩
  · have hslope : powSlope (ofNumber z : Dual α) (ofNumber w) = num (raise α z w).snd := by
      have hmoves : ((num w.snd : α) == 0) = true ↔ w.snd = 0 := by rw [zero_num, beq_num]
      by_cases hw : w.snd = 0
      · rw [hraise hw, ← hrule]
        exact if_pos (hmoves.2 hw)
      · have hz : 0 < z.fst := h.resolve_right fun h => hw (hr h.2)
        refine (if_neg (hw ∘ hmoves.1)).trans ?_
        change num w.fst * Scalar.pow (num z.fst) (num w.fst - 1) * num z.snd +
          Scalar.pow (num z.fst) (num w.fst) * Scalar.log (num z.fst) * num w.snd = _
        rw [hrule, hpow, log_num hz, mul_num, mul_num, add_num]
        rfl
    change Dual.mk _ _ = Dual.mk _ _
    rw [hslope]
    exact congrArg (Dual.mk · _) hpow
  · rcases h with hz | ⟨-, rfl⟩
    · exact powDerivative_num w.fst z.snd w.snd hz hl hr
    · -- A whole exponent does not move, and its rule needs no logarithm.
      rw [hraise (hr rfl), ← hrule]
      rfl
  · simp [raise, hz, hw]

end BinaryOp

namespace UnaryOp

variable {z : DualNumber K}

theorem value_apply (op : UnaryOp) (x : Dual α) : (op.apply x).value = op.apply x.value := by
  cases op <;> rfl

theorem follows_of {op : UnaryOp} (f' : α → α) {y d : K}
    (hop : (op.apply : Dual α → Dual α) = chain op.apply f') (hf : op.apply (num z.fst : α) = num y)
    (hd : f' (num z.fst) = num d)
    (hslope : Expr.unaryDerivative op (num z.fst : α) (num z.snd) = num (d * z.snd)) :
    ∃ v, op.Follows α z v := by
  refine ⟨(y, d * z.snd), ?_, hslope, fun hz => ?_⟩
  · rw [hop]
    exact Dual.chain_ofNumber hf hd
  · change d * z.snd = 0
    rw [hz, mul_zero]

theorem follows_neg : neg.Follows α z (-z) where
  apply := Dual.ofNumber_neg z
  slope := neg_num z.snd
  still hz := by rw [TrivSqZeroExt.snd_neg, hz, neg_zero]

theorem follows_exp : ∃ v, exp.Follows α z v := by
  refine follows_of Scalar.exp rfl (exp_num z.fst) (exp_num z.fst) ?_
  change Scalar.exp (num z.fst) * num z.snd = _
  rw [exp_num, mul_num]

theorem follows_sin : ∃ v, sin.Follows α z v := by
  refine follows_of Scalar.cos rfl (sin_num z.fst) (cos_num z.fst) ?_
  change Scalar.cos (num z.fst) * num z.snd = _
  rw [cos_num, mul_num]

theorem follows_cos : ∃ v, cos.Follows α z v := by
  have hd : -Scalar.sin (num z.fst : α) = num (-ExactOver.sin α z.fst) := by rw [sin_num, neg_num]
  refine follows_of (fun x => -Scalar.sin x) rfl (cos_num z.fst) hd ?_
  change -Scalar.sin (num z.fst) * num z.snd = _
  rw [hd, mul_num]

theorem follows_log (hz : 0 < z.fst) : ∃ v, log.Follows α z v := by
  have hd : 1 / (num z.fst : α) = num (1 / z.fst) := by rw [one_num, div_num 1 hz.ne']
  refine follows_of (fun x => 1 / x) rfl (log_num hz) hd ?_
  change num z.snd / num z.fst = _
  rw [div_num _ hz.ne', one_div_mul_eq_div]

theorem follows_sqrt (hz : 0 < z.fst) : ∃ v, sqrt.Follows α z v := by
  have hne : 2 * ExactOver.sqrt α z.fst ≠ 0 := mul_ne_zero two_ne_zero (sqrt_pos hz).ne'
  have hroot : 2 * Scalar.sqrt (num z.fst : α) = num (2 * ExactOver.sqrt α z.fst) := by
    rw [two_num, sqrt_num hz, mul_num]
  have hd : 1 / (2 * Scalar.sqrt (num z.fst : α)) = num (1 / (2 * ExactOver.sqrt α z.fst)) := by
    rw [hroot, one_num, div_num 1 hne]
  refine follows_of (fun x => 1 / (2 * Scalar.sqrt x)) rfl (sqrt_num hz) hd ?_
  change num z.snd / (2 * Scalar.sqrt (num z.fst)) = _
  rw [hroot, div_num _ hne, one_div_mul_eq_div]

end UnaryOp

end Equilibria
