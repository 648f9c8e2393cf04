import Mathlib.Analysis.Calculus.Deriv.Polynomial
import Equilibria.Proofs.Occurrences

/-!
# Central differences

Without a gradient, a black box takes its derivatives by central differences. Between two points
at the same distance the even powers cancel out, so the derivative of a polynomial of degree two is
exact, and at degree three it is off by the leading coefficient times the squared distance.
-/

namespace Equilibria

open Polynomial

/-! ## Differences of polynomials -/

theorem eval_sub_eval {p : ℝ[X]} (hp : p.natDegree ≤ 3) (x h : ℝ) :
    p.eval (x + h) - p.eval (x - h) = 2 * h * (p.derivative.eval x + p.coeff 3 * h ^ 2) := by
  have hvalue : ∀ t, p.eval t =
      p.coeff 0 + p.coeff 1 * t + p.coeff 2 * t ^ 2 + p.coeff 3 * t ^ 3 := by
    intro t
    rw [eval_eq_sum_range' (Nat.lt_succ_of_le hp)]
    simp [Finset.sum_range_succ]
  have hslope : p.derivative.eval x =
      p.coeff 1 + 2 * p.coeff 2 * x + 3 * p.coeff 3 * x ^ 2 := by
    have hdegree : p.derivative.natDegree < 3 := by
      have := natDegree_derivative_le p
      omega
    rw [eval_eq_sum_range' hdegree]
    simp [Finset.sum_range_succ, coeff_derivative]
    ring
  rw [hvalue, hvalue, hslope]
  ring

/-! ## One argument at a time -/

/-- The black box along the place `i`, while the others stay at `x`. -/
def BlackBox.Along (f : BlackBox Exact) {n : ℕ} (x : Fin n → ℝ) (i : Fin n) (g : ℝ → ℝ) : Prop :=
  ∀ t, f.apply (Exact.vector (Function.update x i t)) = .ok (.real (g t))

theorem vector_set {n : ℕ} (x : Fin n → ℝ) (i : Fin n) (t : ℝ) :
    (Exact.vector x).set i (.real t) = Exact.vector (Function.update x i t) := by
  refine List.ext_getElem (by simp) fun j hj hj' => ?_
  rw [List.getElem_set]
  split
  · rename_i hij
    subst hij
    simp [Exact.vector]
  · rename_i hij
    have hne : (⟨j, by simpa using hj'⟩ : Fin n) ≠ i := fun h => hij (congrArg Fin.val h).symm
    simp [Exact.vector, Function.update_of_ne hne]

section

variable {args : List Key} {k : Key} {i : Fin args.length} {x : Fin args.length → ℝ}

theorem occurrences_of_holds (h : (k == args.get i) = true) : occurrences args k i = 1 := if_pos h

theorem occurrences_of_not (h : (k == args.get i) = false) : occurrences args k i = 0 :=
  if_neg (Bool.eq_false_iff.1 h)

theorem add_smul_occurrences
    (hargs : ∀ i j : Fin args.length, (args.get i == args.get j) = true → i = j)
    (hi : (k == args.get i) = true) (t : ℝ) :
    x + t • occurrences args k = Function.update x i (x i + t) := by
  funext j
  by_cases hj : j = i
  · subst hj
    simp [occurrences_of_holds hi]
  · have hne : (k == args.get j) = false := by
      rw [Bool.eq_false_iff]
      intro hk
      exact hj (hargs j i (BEq.trans (BEq.symm hk) hi))
    simp [occurrences_of_not hne, Function.update_of_ne hj]

theorem occurrences_eq_zero (hk : args.contains k = false) : occurrences args k = 0 := by
  funext i
  apply occurrences_of_not
  rw [Bool.eq_false_iff]
  intro hi
  have hmem : args.contains k = true := Key.contains_iff.2 ⟨args.get i, by simp, BEq.symm hi⟩
  exact Bool.false_ne_true (hk.symm.trans hmem)

end

/-! ## Differences of black boxes -/

theorem width_real (s x : ℝ) :
    BlackBox.width (Exact.real s) (Exact.real x) = Exact.real (s * max 1 |x|) := by
  unfold BlackBox.width
  rw [Exact.abs_real, Exact.one_eq]
  simp only [Exact.lt_real]
  split
  · rw [max_eq_right (le_of_lt ‹_›), Exact.mul_real]
  · rw [max_eq_left (not_lt.1 ‹_›), Exact.mul_real]

theorem width_ne_zero {s : ℝ} (hs : s ≠ 0) (x : ℝ) : s * max 1 |x| ≠ 0 := by
  have hmax : (0 : ℝ) < max 1 |x| := lt_max_of_lt_left one_pos
  exact mul_ne_zero hs hmax.ne'

section

variable {f : BlackBox Exact} {args : List Key} {b : Binding Exact} {s w : ℝ}

theorem BlackBox.Along.derivativeAt {n : ℕ} {x : Fin n → ℝ} {i : Fin n} {g : ℝ → ℝ}
    (h : f.Along x i g) (hf : f.gradient = none) (hstep : f.step = .real s) (hs : s ≠ 0)
    (hw : s * max 1 |x i| = w) :
    f.derivativeAt i (Exact.vector x) =
      .ok (.real ((g (x i + w) - g (x i - w)) / (2 * w))) := by
  have hx : (Exact.vector x).getD i 0 = .real (x i) := by simp [Exact.vector]
  have htwo : (2 : Exact) = .real 2 := congrArg Exact.real (Nat.cast_ofNat (n := 2))
  have hdistance : 2 * w ≠ 0 := mul_ne_zero two_ne_zero (hw ▸ width_ne_zero hs (x i))
  have hbeq : (Exact.real (2 * w) == 0) = false := by
    rw [Exact.zero_eq, Exact.beq_real]
    exact decide_eq_false hdistance
  have habove := h (x i + w)
  have hbelow := h (x i - w)
  rw [← vector_set] at habove hbelow
  unfold BlackBox.derivativeAt
  simp only [hf, hstep, hx, htwo, width_real, hw, Exact.add_real, Exact.sub_real, Exact.mul_real,
    habove, hbelow, bind, Except.bind, hbeq]
  rw [if_neg Bool.false_ne_true, Exact.div_real _ hdistance]

variable {x : Fin args.length → ℝ}

/-- Without a gradient the derivative is a difference of values: the slope up to degree two, and off
by `c h ^ 2` at degree three. -/
theorem difference_of_cubic (hf : f.gradient = none) (hstep : f.step = .real s) (hs : s ≠ 0)
    (hargs : ∀ i j : Fin args.length, (args.get i == args.get j) = true → i = j)
    (hb : ∀ i : Fin args.length, b (args.get i) = .ok (.real (x i))) (k : Key) :
    let e : Expr Exact := .blackBox f args
    (args.contains k = false → e.derivative k b = .ok 0 ∧
      ∀ t : ℝ, e.evaluate (b.shift k (.real t)) = e.evaluate b) ∧
    ∀ i : Fin args.length, (k == args.get i) = true → ∀ g : ℝ → ℝ, f.Along x i g →
      let h := s * max 1 |x i|
      (∀ t : ℝ, e.evaluate (b.shift k (.real t)) = .ok (.real (g (x i + t)))) ∧
      (h ≠ 0 ∧ e.derivative k b = .ok (.real ((g (x i + h) - g (x i - h)) / (2 * h)))) ∧
      ∀ p : ℝ[X], (∀ t, g t = p.eval t) →
        HasDerivAt g (p.derivative.eval (x i)) (x i) ∧
        (p.natDegree ≤ 2 → e.derivative k b = .ok (.real (p.derivative.eval (x i)))) ∧
        (p.natDegree ≤ 3 →
          e.derivative k b = .ok (.real (p.derivative.eval (x i) + p.coeff 3 * h ^ 2))) := by
  intro e
  refine ⟨fun hk => ⟨Expr.derivative_of_not_mentions rfl hk, fun t => ?_⟩, fun i hi g hg => ?_⟩
  · rw [evaluate_shift hb, occurrences_eq_zero hk, smul_zero, add_zero, Expr.evaluate,
      BlackBox.evaluate, mapM_eq_vector hb]
    rfl
  · intro h
    have hne : h ≠ 0 := width_ne_zero hs (x i)
    have hk : args.contains k = true := Key.contains_iff.2 ⟨args.get i, by simp, BEq.symm hi⟩
    have hderivative : e.derivative k b = .ok (.real ((g (x i + h) - g (x i - h)) / (2 * h))) := by
      obtain ⟨j, hj, hplace⟩ := exists_isFirst hk
      have hij : j = i := hargs j i (BEq.trans (BEq.symm hj.holds) hi)
      subst hij
      rw [Expr.derivative_blackBox hb hk, hplace]
      exact hg.derivativeAt hf hstep hs rfl
    refine ⟨fun t => ?_, ⟨hne, hderivative⟩, fun p hp => ?_⟩
    · rw [evaluate_shift hb, add_smul_occurrences hargs hi]
      exact hg _
    · have hcubic : p.natDegree ≤ 3 →
          e.derivative k b = .ok (.real (p.derivative.eval (x i) + p.coeff 3 * h ^ 2)) := by
        intro hdegree
        rw [hderivative, hp, hp, eval_sub_eval hdegree,
          mul_div_cancel_left₀ _ (mul_ne_zero two_ne_zero hne)]
      refine ⟨?_, fun hdegree => ?_, hcubic⟩
      · have heq : g = fun t => p.eval t := funext hp
        rw [heq]
        exact p.hasDerivAt (x i)
      · have hlead : p.coeff 3 = 0 := coeff_eq_zero_of_natDegree_lt (by omega)
        rw [hcubic (by omega), hlead, zero_mul, add_zero]

end

/-! ## A cube and a square -/

noncomputable def cubeAndSquare : BlackBox Exact where
  name := "f"
  apply xs :=
    let a := xs.getD 0 0
    let b := xs.getD 1 0
    .ok (a * a * a + (a + 1) * (b * b))
  gradient := none
  step := .real 3

theorem along_cubeAndSquare (x : Fin 2 → ℝ) (i : Fin 2) : cubeAndSquare.Along x i fun t =>
    let y := Function.update x i t
    y 0 * y 0 * y 0 + (y 0 + 1) * (y 1 * y 1) := by
  intro t
  have hvector : ∀ y : Fin 2 → ℝ, Exact.vector y = [.real (y 0), .real (y 1)] := fun y => rfl
  simp only [cubeAndSquare, hvector, Exact.one_eq]
  rfl

/-- At zero and minus two the slope in the cubed variable is off by nine, and the other one is
exact. -/
theorem difference_of_twoKeys : let x : Key := ⟨"x", []⟩; let y : Key := ⟨"y", []⟩
    let b : Binding Exact := fun k => .ok (.real (if k == x then 0 else -2))
    let e : Expr Exact := .blackBox cubeAndSquare [x, y]
    e.derivative x b = .ok (.real (4 + 9)) ∧ e.derivative y b = .ok (.real (-4)) := by
  intro x y b e
  have hx : b x = .ok (.real 0) :=
    congrArg (fun t => Except.ok (Exact.real t)) (if_pos BEq.rfl)
  have hy : b y = .ok (.real (-2)) :=
    congrArg (fun t => Except.ok (Exact.real t)) (if_neg (by decide))
  have hb : ∀ i : Fin [x, y].length, b ([x, y].get i) = .ok (.real ((![0, -2] : Fin 2 → ℝ) i)) :=
    Fin.forall_fin_two.2 ⟨hx, hy⟩
  have hargs : ∀ i j : Fin [x, y].length, ([x, y].get i == [x, y].get j) = true → i = j := by
    decide
  have hall := fun k => difference_of_cubic (f := cubeAndSquare) rfl rfl (by norm_num) hargs hb k
  constructor
  · obtain ⟨-, -, hp⟩ := (hall x).2 0 (by decide) _ (along_cubeAndSquare _ 0)
    obtain ⟨-, -, hcubic⟩ := hp (X ^ 3 + C 4 * X + C 4) fun t => by simp; ring
    refine (hcubic (by compute_degree)).trans (congrArg (fun t => Except.ok (Exact.real t)) ?_)
    simp
    norm_num
  · obtain ⟨-, -, hp⟩ := (hall y).2 1 (by decide) _ (along_cubeAndSquare _ 1)
    obtain ⟨-, hsquare, -⟩ := hp (X ^ 2) fun t => by simp; ring
    refine (hsquare (by compute_degree)).trans (congrArg (fun t => Except.ok (Exact.real t)) ?_)
    simp
    norm_num

end Equilibria
