import Mathlib.Analysis.Calculus.FDeriv.Pi
import Mathlib.Analysis.Normed.Module.FiniteDimension
import Mathlib.Analysis.SpecialFunctions.Sqrt
import Equilibria.Proofs.Components

/-!
# Weights of the Jacobian

The slopes of an equation in its variable and in its function are weights of the two: none is
negative and one of them is positive, kinks included. Away from the kinks they are the gradient, so
the matrix that is made of them and of the Jacobian of the functions is the Jacobian of the
equations.
-/

namespace Equilibria

/-! ## The Fischer-Burmeister function -/

/-- The slope in the first argument, and at the kink the one that is chosen there. -/
noncomputable def fischerSlope (a b : ℝ) : ℝ :=
  if √(a ^ 2 + b ^ 2) = 0 then 1 - 1 / √(2 : ℕ) else 1 - a / √(a ^ 2 + b ^ 2)

theorem fischerBurmeister_eq (a b : ℝ) : fischerBurmeister (Exact.real a) (.real b) =
    ⟨.real (fischer a b), .real (fischerSlope a b), .real (fischerSlope b a)⟩ := by
  have hvalue := fischerBurmeister_real a b
  unfold fischerBurmeister at hvalue ⊢
  simp only [Exact.hypot_real, Exact.zero_eq, Exact.beq_real, decide_eq_true_eq] at hvalue ⊢
  unfold fischerSlope
  rw [add_comm (b ^ 2)]
  split
  · rename_i h
    rw [if_pos h] at hvalue
    rw [← hvalue, kinkSlope_real, Nat.cast_ofNat]
  · rename_i h
    rw [if_neg h] at hvalue
    rw [← hvalue, Exact.one_eq, Exact.div_real a h, Exact.div_real b h, Exact.sub_real,
      Exact.sub_real]

theorem fischerSlope_nonneg (a b : ℝ) : 0 ≤ fischerSlope a b := by
  unfold fischerSlope
  split
  · have hroot : 1 ≤ √(2 : ℕ) := Real.one_le_sqrt.2 (by norm_num)
    exact sub_nonneg.2 ((div_le_one (by positivity)).2 hroot)
  · rename_i h
    have hpos : 0 < √(a ^ 2 + b ^ 2) := lt_of_le_of_ne (Real.sqrt_nonneg _) (Ne.symm h)
    have hle : a ≤ √(a ^ 2 + b ^ 2) := Real.le_sqrt_of_sq_le (by nlinarith [sq_nonneg b])
    exact sub_nonneg.2 ((div_le_one hpos).2 hle)

theorem fischerSlope_add_pos (a b : ℝ) : 0 < fischerSlope a b + fischerSlope b a := by
  unfold fischerSlope
  rw [add_comm (b ^ 2)]
  split
  · have hroot : 1 < √(2 : ℕ) := Real.lt_sqrt_of_sq_lt (by norm_num)
    have hlt : 1 / √(2 : ℕ) < 1 := (div_lt_one (by positivity)).2 hroot
    linarith
  · rename_i h
    have hpos : 0 < √(a ^ 2 + b ^ 2) := lt_of_le_of_ne (Real.sqrt_nonneg _) (Ne.symm h)
    have hlt : a + b < 2 * √(a ^ 2 + b ^ 2) := by
      have hsq := Real.sq_sqrt (add_nonneg (sq_nonneg a) (sq_nonneg b))
      nlinarith [sq_nonneg (a - b)]
    have hsum : a / √(a ^ 2 + b ^ 2) + b / √(a ^ 2 + b ^ 2) < 2 := by
      rw [← add_div, div_lt_iff₀ hpos]
      exact hlt
    linarith

section

variable {E : Type} [NormedAddCommGroup E] [NormedSpace ℝ E] {g h : E → ℝ} {g' h' : E →L[ℝ] ℝ}
  {y : E}

theorem hasFDerivAt_fischer (hg : HasFDerivAt g g' y) (hh : HasFDerivAt h h' y)
    (hne : (g y, h y) ≠ (0, 0)) : HasFDerivAt (fun z => fischer (g z) (h z))
      (fischerSlope (g y) (h y) • g' + fischerSlope (h y) (g y) • h') y := by
  have hpos : 0 < g y ^ 2 + h y ^ 2 := by
    rcases ne_or_eq (g y) 0 with hgy | hgy
    · positivity
    · have hhy : h y ≠ 0 := fun hhy => hne (by rw [hgy, hhy])
      positivity
  have hroot : √(g y ^ 2 + h y ^ 2) ≠ 0 := (Real.sqrt_pos.2 hpos).ne'
  have hlength := ((hg.pow 2).add (hh.pow 2)).sqrt hpos.ne'
  refine ((hg.add hh).sub hlength).congr_fderiv ?_
  ext v
  simp only [fischerSlope, add_comm (h y ^ 2), if_neg hroot]
  simp only [one_div, mul_inv_rev, Nat.add_one_sub_one, pow_one, nsmul_eq_mul, Nat.cast_ofNat,
    Pi.add_apply, smul_add, add_apply, sub_apply, smul_apply, smul_eq_mul]
  field_simp
  ring

end

/-! ## Components -/

/-- The pairs of numbers of which a component takes the Fischer-Burmeister function. -/
noncomputable def arguments (l u : Exact) (x f : ℝ) : List (ℝ × ℝ) :=
  match l, u with
  | .real l, .real u => [(u - x, -f), (x - l, -fischer (u - x) (-f))]
  | .real l, _ => [(x - l, f)]
  | _, .real u => [(u - x, -f)]
  | _, _ => []

/-- No function of a component is at its kink. -/
def Smooth (l u : Exact) (x f : ℝ) : Prop := ∀ p ∈ arguments l u x f, p ≠ (0, 0)

/-- The slopes of an equation in the variable and in the function. -/
noncomputable def weights (l u : Exact) (x f : ℝ) : ℝ × ℝ :=
  match l, u with
  | .real l, .real u =>
    let inner := -fischer (u - x) (-f)
    let outer := fischerSlope inner (x - l)
    (fischerSlope (x - l) inner + outer * fischerSlope (u - x) (-f),
      outer * fischerSlope (-f) (u - x))
  | .real l, _ => (fischerSlope (x - l) f, fischerSlope f (x - l))
  | _, .real u => (fischerSlope (u - x) (-f), fischerSlope (-f) (u - x))
  | _, _ => (0, 1)

theorem boxRow_eq (l u : Exact) (x f : ℝ) : boxRow l u (.real x) (.real f) =
    ⟨.real (equation l u x f), .real (weights l u x f).1, .real (weights l u x f).2⟩ := by
  rcases l with l | l | _ <;> rcases u with u | u | _ <;>
    simp [boxRow, Side.of, equation, weights, fischerBurmeister_eq, Exact.one_eq]

structure IsWeight (d : ℝ × ℝ) : Prop where
  first : 0 ≤ d.1
  second : 0 ≤ d.2
  sum : 0 < d.1 + d.2

theorem isWeight_fischer (a b : ℝ) : IsWeight (fischerSlope a b, fischerSlope b a) :=
  ⟨fischerSlope_nonneg a b, fischerSlope_nonneg b a, fischerSlope_add_pos a b⟩

theorem IsWeight.chain {d e : ℝ × ℝ} (hd : IsWeight d) (he : IsWeight e) :
    IsWeight (d.1 + d.2 * e.1, d.2 * e.2) where
  first := add_nonneg hd.first (mul_nonneg hd.second he.first)
  second := mul_nonneg hd.second he.second
  sum := by
    have hsum : d.1 + d.2 * e.1 + d.2 * e.2 = d.1 + d.2 * (e.1 + e.2) := by ring
    rw [hsum]
    rcases hd.second.eq_or_lt with hzero | hpos
    · have := hd.sum
      rw [← hzero] at this ⊢
      linarith
    · exact add_pos_of_nonneg_of_pos hd.first (mul_pos hpos he.sum)

theorem isWeight_weights (l u : Exact) (x f : ℝ) : IsWeight (weights l u x f) := by
  have hfree : IsWeight (0, 1) := ⟨le_rfl, zero_le_one, by norm_num⟩
  rcases l with l | l | _ <;> rcases u with u | u | _
  · exact (isWeight_fischer (x - l) (-fischer (u - x) (-f))).chain (isWeight_fischer (u - x) (-f))
  · exact isWeight_fischer (x - l) f
  · exact isWeight_fischer (x - l) f
  · exact isWeight_fischer (u - x) (-f)
  · exact hfree
  · exact hfree
  · exact isWeight_fischer (u - x) (-f)
  · exact hfree
  · exact hfree

section

variable {E : Type} [NormedAddCommGroup E] [NormedSpace ℝ E] {g h : E → ℝ} {g' h' : E →L[ℝ] ℝ}
  {y : E}

theorem hasFDerivAt_upper {u : ℝ} (hg : HasFDerivAt g g' y) (hh : HasFDerivAt h h' y)
    (hne : (u - g y, -h y) ≠ (0, 0)) : HasFDerivAt (fun z => -fischer (u - g z) (-h z))
      (fischerSlope (u - g y) (-h y) • g' + fischerSlope (-h y) (u - g y) • h') y := by
  refine (hasFDerivAt_fischer (hg.const_sub u) hh.neg hne).neg.congr_fderiv ?_
  simp only [smul_neg, neg_add, neg_neg, Pi.neg_apply]

/-- Away from the kinks the weights are the slopes of an equation. -/
theorem hasFDerivAt_equation {l u : Exact} (hg : HasFDerivAt g g' y) (hh : HasFDerivAt h h' y)
    (hs : Smooth l u (g y) (h y)) : HasFDerivAt (fun z => equation l u (g z) (h z))
      ((weights l u (g y) (h y)).1 • g' + (weights l u (g y) (h y)).2 • h') y := by
  have hfree : HasFDerivAt h ((0 : ℝ) • g' + (1 : ℝ) • h') y := by
    rw [zero_smul, one_smul, zero_add]
    exact hh
  rcases l with l | l | _ <;> rcases u with u | u | _
  · -- The chain rule for the function of the upper bound inside that of the lower one.
    simp only [Smooth, arguments, List.forall_mem_cons] at hs
    have hinner := hasFDerivAt_upper hg hh hs.1
    refine (hasFDerivAt_fischer (hg.sub_const l) hinner hs.2.1).congr_fderiv ?_
    simp only [weights, smul_add, smul_smul, add_smul, add_assoc]
  all_goals simp only [Smooth, arguments, List.forall_mem_cons] at hs
  · exact hasFDerivAt_fischer (hg.sub_const l) hh hs.1
  · exact hasFDerivAt_fischer (hg.sub_const l) hh hs.1
  · exact hasFDerivAt_upper hg hh hs.1
  · exact hfree
  · exact hfree
  · exact hasFDerivAt_upper hg hh hs.1
  · exact hfree
  · exact hfree

end

/-! ## Boxes -/

def Exact.vector {n : ℕ} (x : Fin n → ℝ) : List Exact := List.ofFn fun i => .real (x i)

def Exact.matrix {n : ℕ} (m : Matrix (Fin n) (Fin n) ℝ) : List (List Exact) :=
  List.ofFn fun i => vector (m i)

@[simp] theorem Exact.length_vector {n : ℕ} (x : Fin n → ℝ) : (vector x).length = n :=
  List.length_ofFn

@[simp] theorem Exact.length_matrix {n : ℕ} (m : Matrix (Fin n) (Fin n) ℝ) :
    (matrix m).length = n := List.length_ofFn

namespace Box

variable {n : ℕ} {b : Box Exact}

noncomputable def lowerAt (b : Box Exact) (i : Fin n) : Exact := b.lower.getD i 0

noncomputable def upperAt (b : Box Exact) (i : Fin n) : Exact := b.upper.getD i 0

noncomputable def residual (b : Box Exact) (x f : Fin n → ℝ) : Fin n → ℝ := fun i =>
  equation (b.lowerAt i) (b.upperAt i) (x i) (f i)

theorem rows_eq (hl : b.lower.length = n) (hu : b.upper.length = n) (x f : Fin n → ℝ) :
    b.rows (Exact.vector x) (Exact.vector f) = .ok (List.ofFn fun i : Fin n =>
      boxRow (b.lowerAt i) (b.upperAt i) (.real (x i)) (.real (f i))) := by
  rw [rows_eq_ok (by rw [hl, Exact.length_vector]) (by rw [hu, Exact.length_vector])]
  refine congrArg Except.ok (List.ext_getElem (by simp [hl, hu]) fun i hi hi' => ?_)
  have hin : i < n := by simpa using hi'
  simp [Exact.vector, lowerAt, upperAt, hl, hu]

end Box

theorem getD_spread {β : Type} {xs : List β} {n i : Nat} (hn : xs.length = n) (h : i < xs.length)
    (d : β) : xs.getD (if n == 1 then 0 else i) d = xs[i] := by
  have hi : (if n == 1 then 0 else i) = i := by
    split
    · rename_i hone
      have := eq_of_beq hone
      omega
    · rfl
  rw [hi, List.getD_eq_getElem?_getD, List.getElem?_eq_getElem h, Option.getD_some]

theorem Exact.getD_matrix {n : ℕ} (m : Matrix (Fin n) (Fin n) ℝ) (i k : Fin n) :
    let row := (matrix m).getD (if n == 1 then 0 else i) []
    row.getD (if row.length == 1 then 0 else k) 0 = .real (m i k) := by
  have hrow : (matrix m).getD (if n == 1 then 0 else i) [] = vector (m i) := by
    rw [getD_spread (length_matrix m) (by simp)]
    simp [matrix]
  simp only [hrow]
  rw [getD_spread rfl (by simp)]
  simp [vector]

theorem ofBox_eq {n : ℕ} (φ dx df : Fin n → ℝ) {m : Matrix (Fin n) (Fin n) ℝ}
    {j : Jacobian Exact} (hj : j.toRows = Exact.matrix m) :
    Jacobian.ofBox (List.ofFn fun i => ⟨.real (φ i), .real (dx i), .real (df i)⟩) j =
      .ok (Exact.matrix (Matrix.diagonal dx + Matrix.diagonal df * m)) := by
  have hwidth : ∀ row ∈ Exact.matrix m, row.length = n := by
    intro row hrow
    obtain ⟨i, rfl⟩ := (List.mem_ofFn' _ _).1 hrow
    exact Exact.length_vector _
  unfold Jacobian.ofBox
  simp only [hj, List.length_ofFn]
  rw [if_pos (Jacobian.fits_of_square (Exact.length_matrix m) hwidth)]
  simp only [Exact.length_matrix]
  refine congrArg Except.ok (List.ext_getElem (by simp) fun i hi hi' => ?_)
  have hin : i < n := by simpa using hi'
  refine List.ext_getElem (by simp [Exact.matrix]) fun k hk hk' => ?_
  have hkn : k < n := by simpa [Exact.matrix] using hk'
  have hentry := Exact.getD_matrix m ⟨i, hin⟩ ⟨k, hkn⟩
  simp only [List.getElem_map, List.getElem_zipIdx, List.getElem_ofFn, List.getElem_range,
    zero_add] at hentry ⊢
  rw [hentry]
  simp only [Exact.matrix, Exact.vector, List.getElem_ofFn, Matrix.add_apply, Matrix.diagonal_mul,
    Matrix.diagonal_apply, Fin.mk.injEq, beq_iff_eq]
  by_cases hik : i = k
  · simp only [if_pos hik, Exact.mul_real, Exact.add_real]
  · simp only [if_neg hik, Exact.zero_eq, Exact.mul_real, Exact.add_real]

/-! ## The Jacobian of the equations -/

/-- The rows of a box at a point: values with weights that are the gradient away from the kinks. -/
structure Box.Weighs {n : ℕ} (b : Box Exact) (x f dx df : Fin n → ℝ) (rows : List (Row Exact)) :
    Prop where
  rows_eq : rows =
    List.ofFn fun i => ⟨.real (b.residual x f i), .real (dx i), .real (df i)⟩
  isWeight : ∀ i, IsWeight (dx i, df i)
  gradient : ∀ i, Smooth (b.lowerAt i) (b.upperAt i) (x i) (f i) →
    HasFDerivAt (fun p : ℝ × ℝ => equation (b.lowerAt i) (b.upperAt i) p.1 p.2)
      (dx i • ContinuousLinearMap.fst ℝ ℝ ℝ + df i • ContinuousLinearMap.snd ℝ ℝ ℝ) (x i, f i)

noncomputable def linear {n : ℕ} (m : Matrix (Fin n) (Fin n) ℝ) : (Fin n → ℝ) →L[ℝ] Fin n → ℝ :=
  (Matrix.mulVecLin m).toContinuousLinearMap

theorem linear_apply {n : ℕ} (m : Matrix (Fin n) (Fin n) ℝ) (v : Fin n → ℝ) :
    linear m v = m.mulVec v := rfl

theorem Box.hasFDerivAt_residual {n : ℕ} {b : Box Exact} {F : (Fin n → ℝ) → Fin n → ℝ}
    {x : Fin n → ℝ} {m : Matrix (Fin n) (Fin n) ℝ} (hF : HasFDerivAt F (linear m) x)
    (hs : ∀ i : Fin n, Smooth (b.lowerAt i) (b.upperAt i) (x i) (F x i)) :
    HasFDerivAt (fun y => b.residual y (F y))
      (linear (Matrix.diagonal (fun i => (weights (b.lowerAt i) (b.upperAt i) (x i) (F x i)).1) +
        Matrix.diagonal (fun i => (weights (b.lowerAt i) (b.upperAt i) (x i) (F x i)).2) * m)) x := by
  rw [hasFDerivAt_pi']
  intro i
  have hx : HasFDerivAt (fun y : Fin n → ℝ => y i) (ContinuousLinearMap.proj i : _ →L[ℝ] ℝ) x :=
    hasFDerivAt_apply i x
  have hf := hasFDerivAt_pi'.1 hF i
  refine (hasFDerivAt_equation hx hf (hs i)).congr_fderiv ?_
  ext v
  simp [linear_apply, Matrix.add_mulVec, Matrix.mulVec_diagonal, ← Matrix.mulVec_mulVec]

/-- The rows of a box have weights that are not negative and not both zero, and are the gradient
away from the kinks. -/
theorem Box.weights_of_rows {n : ℕ} {b : Box Exact} (hl : b.lower.length = n)
    (hu : b.upper.length = n) (x f : Fin n → ℝ) :
    ∃ rows dx df, b.rows (Exact.vector x) (Exact.vector f) = .ok rows ∧ b.Weighs x f dx df rows ∧
      ∀ (m : Matrix (Fin n) (Fin n) ℝ) (j : Jacobian Exact), j.toRows = Exact.matrix m →
        Jacobian.ofBox rows j =
          .ok (Exact.matrix (Matrix.diagonal dx + Matrix.diagonal df * m)) ∧
        ∀ F : (Fin n → ℝ) → Fin n → ℝ, F x = f → HasFDerivAt F (linear m) x →
          (∀ i : Fin n, Smooth (b.lowerAt i) (b.upperAt i) (x i) (f i)) →
          HasFDerivAt (fun y => b.residual y (F y))
            (linear (Matrix.diagonal dx + Matrix.diagonal df * m)) x := by
  refine ⟨_, fun i => (weights (b.lowerAt i) (b.upperAt i) (x i) (f i)).1,
    fun i => (weights (b.lowerAt i) (b.upperAt i) (x i) (f i)).2, rows_eq hl hu x f,
    ⟨?_, fun i => isWeight_weights _ _ _ _, fun i hs => ?_⟩, fun m j hj => ⟨?_, ?_⟩⟩
  · simp only [boxRow_eq]
    rfl
  · exact hasFDerivAt_equation (y := (x i, f i)) hasFDerivAt_fst hasFDerivAt_snd hs
  · simp only [boxRow_eq]
    exact ofBox_eq _ _ _ hj
  · rintro F rfl hF hs
    exact hasFDerivAt_residual hF hs

def lowerAndBoxed : Box Exact where
  lower := [.real 0, .real 0]
  upper := [.infinite false, .real 1]

def exchange : Matrix (Fin 2) (Fin 2) ℝ := !![0, 1; 1, 0]

/-- At `(1, 1 / 2)` no function is at its kink, and the matrix is the Jacobian of the equations. -/
theorem weights_of_lowerAndBoxed : let x : Fin 2 → ℝ := ![1, 1 / 2]
    lowerAndBoxed.lower.length = 2 ∧ lowerAndBoxed.upper.length = 2 ∧
      ∃ rows h, lowerAndBoxed.rows (Exact.vector x) (Exact.vector (exchange.mulVec x)) = .ok rows ∧
        Jacobian.ofBox rows (.dense (Exact.matrix exchange)) = .ok (Exact.matrix h) ∧
        HasFDerivAt (fun y => lowerAndBoxed.residual y (exchange.mulVec y)) (linear h) x := by
  intro x
  obtain ⟨rows, dx, df, hrows, -, hmatrix⟩ := Box.weights_of_rows (b := lowerAndBoxed) rfl rfl x
    (exchange.mulVec x)
  obtain ⟨hbox, hderiv⟩ := hmatrix exchange (.dense (Exact.matrix exchange)) rfl
  have hsmooth : ∀ i : Fin 2, Smooth (lowerAndBoxed.lowerAt i) (lowerAndBoxed.upperAt i) (x i)
      (exchange.mulVec x i) := by
    intro i
    fin_cases i
    · exact List.forall_mem_singleton.2 (by simp [x])
    · exact List.forall_mem_cons.2 ⟨by norm_num [x], List.forall_mem_singleton.2 (by norm_num [x])⟩
  exact ⟨rfl, rfl, rows, _, hrows, hbox,
    hderiv exchange.mulVec rfl (linear exchange).hasFDerivAt hsmooth⟩

end Equilibria
