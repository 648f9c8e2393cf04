import Mathlib.Analysis.Calculus.Deriv.Comp
import Mathlib.Analysis.Calculus.Deriv.Mul
import Equilibria.Proofs.Expressions
import Equilibria.Proofs.Weights

/-!
# Variables in several places

A black box can have one variable in several places. When the variable moves, the value changes by
the slopes in all of these places together. The derivative is the slope in the first of them, so it
is right just if the slopes in the others cancel out.
-/

namespace Equilibria

open Fallible Topology

/-! ## Moving a variable -/

/-- The binding in which `k` is moved by `t`. -/
def Binding.shift {α : Type} [Scalar α] (k : Key) (t : α) (b : Binding α) : Binding α :=
  fun k' => do
    let x ← b k'
    return if k == k' then x + t else x

/-- One in the places that hold `k`, and zero in the others. -/
def occurrences (args : List Key) (k : Key) (i : Fin args.length) : ℝ :=
  if k == args[i] then 1 else 0

section

variable {args : List Key} {b : Binding Exact} {x : Fin args.length → ℝ}

theorem mapM_eq_vector (h : ∀ i : Fin args.length, b args[i] = .ok (.real (x i))) :
    args.mapM b = .ok (Exact.vector x) := by
  have hall : ∀ k ∈ args, ∃ y, b k = .ok y := by
    intro k hk
    obtain ⟨i, hi, rfl⟩ := List.getElem_of_mem hk
    exact ⟨_, h ⟨i, hi⟩⟩
  obtain ⟨ys, hys⟩ := mapM_ok_of_forall hall
  have hlength := length_of_mapM hys
  rw [hys]
  refine congrArg Except.ok (List.ext_getElem (by simp [hlength]) fun i hi hi' => ?_)
  have hin : i < args.length := hlength ▸ hi
  obtain ⟨y, hy, hb⟩ := getElem?_of_mapM hys (List.getElem?_eq_getElem hin)
  cases (h ⟨i, hin⟩).symm.trans hb
  obtain ⟨_, hy⟩ := List.getElem?_eq_some_iff.1 hy
  simpa [Exact.vector] using hy

theorem mapM_shift (h : ∀ i : Fin args.length, b args[i] = .ok (.real (x i))) (k : Key) (t : ℝ) :
    args.mapM (b.shift k (.real t)) = .ok (Exact.vector (x + t • occurrences args k)) := by
  refine mapM_eq_vector fun i => ?_
  rw [Binding.shift, h i]
  refine congrArg Except.ok ?_
  simp only [Pi.add_apply, Pi.smul_apply, occurrences]
  split <;> simp

variable {f : BlackBox Exact}

theorem evaluate_shift (h : ∀ i : Fin args.length, b args[i] = .ok (.real (x i))) (k : Key)
    (t : ℝ) : (Expr.blackBox f args).evaluate (b.shift k (.real t)) =
      f.apply (Exact.vector (x + t • occurrences args k)) := by
  rw [Expr.evaluate, BlackBox.evaluate, mapM_shift h]
  rfl

theorem Expr.derivative_blackBox (h : ∀ i : Fin args.length, b args[i] = .ok (.real (x i)))
    {k : Key} (hk : args.contains k = true) : (Expr.blackBox f args).derivative k b =
      f.derivativeAt (args.findIdx (· == k)) (Exact.vector x) := by
  have hmentions :
      ((Expr.blackBox f args).isForeign || (Expr.blackBox f args).mentions k) = true := by
    simpa [Expr.isForeign, Expr.mentions, Expr.reads] using hk
  rw [Expr.derivative, if_pos hmentions, BlackBox.derivative, mapM_eq_vector h]
  rfl

end

/-! ## Slopes of black boxes -/

noncomputable def slope {n : ℕ} (d : Fin n → ℝ) : (Fin n → ℝ) →L[ℝ] ℝ :=
  ∑ i, d i • ContinuousLinearMap.proj i

theorem slope_apply {n : ℕ} (d v : Fin n → ℝ) : slope d v = ∑ i, d i * v i := by
  simp [slope]

/-- Around `x` a black box has the values of `φ`, and at `x` its slopes `d` as gradient. -/
structure BlackBox.Follows (f : BlackBox Exact) {n : ℕ} (φ : (Fin n → ℝ) → ℝ)
    (x d : Fin n → ℝ) : Prop where
  values : ∀ᶠ y in 𝓝 x, f.apply (Exact.vector y) = .ok (.real (φ y))
  gradient : ∃ g, f.gradient = some g ∧ g (Exact.vector x) = .ok (Exact.vector d)
  slopes : HasFDerivAt φ (slope d) x

section

variable {f : BlackBox Exact} {args : List Key} {b : Binding Exact}
  {φ : (Fin args.length → ℝ) → ℝ} {x d : Fin args.length → ℝ}

structure IsFirst (args : List Key) (k : Key) (i : Fin args.length) : Prop where
  holds : (k == args[i]) = true
  before : ∀ j < i, (k == args[j]) = false

theorem exists_isFirst {k : Key} (h : args.contains k = true) :
    ∃ i : Fin args.length, IsFirst args k i ∧ args.findIdx (· == k) = i := by
  obtain ⟨a, ha, hak⟩ := Key.contains_iff.1 h
  have hlt : args.findIdx (· == k) < args.length := List.findIdx_lt_length_of_exists ⟨a, ha, hak⟩
  refine ⟨⟨_, hlt⟩, ⟨?_, fun j hj => ?_⟩, rfl⟩
  · exact BEq.symm (List.findIdx_getElem (p := (· == k)) (w := hlt))
  · rw [BEq.comm]
    simpa using List.not_of_lt_findIdx hj

theorem hasDerivAt_occurrences (hφ : HasFDerivAt φ (slope d) x) (k : Key) :
    HasDerivAt (fun t : ℝ => φ (x + t • occurrences args k))
      (∑ i with (k == args[i]) = true, d i) 0 := by
  have hline : HasDerivAt (fun t : ℝ => x + t • occurrences args k) (occurrences args k) 0 := by
    have hid := (hasDerivAt_id (0 : ℝ)).smul_const (occurrences args k)
    exact HasDerivAt.congr_deriv (hid.const_add x) (one_smul ℝ _)
  have hx : HasFDerivAt φ (slope d) (x + (0 : ℝ) • occurrences args k) := by
    rwa [zero_smul, add_zero]
  refine (hx.comp_hasDerivAt 0 hline).congr_deriv ?_
  simp [slope_apply, occurrences, Finset.sum_filter]

theorem BlackBox.Follows.evaluate (h : f.Follows φ x d)
    (hb : ∀ i : Fin args.length, b args[i] = .ok (.real (x i))) (k : Key) :
    ∀ᶠ t : ℝ in 𝓝 0, (Expr.blackBox f args).evaluate (b.shift k (.real t)) =
      .ok (.real (φ (x + t • occurrences args k))) := by
  have hline : Filter.Tendsto (fun t : ℝ => x + t • occurrences args k) (𝓝 0) (𝓝 x) := by
    have hc : Continuous fun t : ℝ => x + t • occurrences args k := by fun_prop
    simpa using hc.tendsto 0
  filter_upwards [hline.eventually h.values] with t ht
  rw [evaluate_shift hb]
  exact ht

theorem BlackBox.Follows.derivative (h : f.Follows φ x d)
    (hb : ∀ i : Fin args.length, b args[i] = .ok (.real (x i))) {k : Key} {i : Fin args.length}
    (hk : args.contains k = true) (hi : args.findIdx (· == k) = i) :
    (Expr.blackBox f args).derivative k b = .ok (.real (d i)) := by
  obtain ⟨g, hg, hd⟩ := h.gradient
  rw [Expr.derivative_blackBox hb hk]
  have hentry : (Exact.vector d)[(i : ℕ)]? = some (.real (d i)) := by
    simp [Exact.vector]
  simp only [BlackBox.derivativeAt, hg, hd, hi, bind, Except.bind, hentry]

/-- A black box moves by the slopes in all places of a variable. Its derivative is the slope in the
first of them, the same just if the others sum up to zero. -/
theorem slope_of_occurrences (hb : ∀ i : Fin args.length, b args[i] = .ok (.real (x i)))
    (h : f.Follows φ x d) {k : Key} (hk : args.contains k = true) :
    let e : Expr Exact := .blackBox f args
    let total := ∑ i with (k == args[i]) = true, d i
    (∃ moved : ℝ → ℝ, (∀ᶠ t in 𝓝 0, e.evaluate (b.shift k (.real t)) = .ok (.real (moved t))) ∧
      HasDerivAt moved total 0) ∧
    ∃ first, IsFirst args k first ∧ e.derivative k b = .ok (.real (d first)) ∧
      (e.derivative k b = .ok (.real total) ↔
        ∑ i with (k == args[i]) = true ∧ i ≠ first, d i = 0) ∧
      ((∀ i, (k == args[i]) = true → i = first) → e.derivative k b = .ok (.real total)) := by
  intro e total
  obtain ⟨first, hfirst, hi⟩ := exists_isFirst hk
  have hd : e.derivative k b = .ok (.real (d first)) := h.derivative hb hk hi
  have hsplit : total = d first + ∑ i with (k == args[i]) = true ∧ i ≠ first, d i := by
    have hmem : first ∈ Finset.univ.filter fun i : Fin args.length => (k == args[i]) = true := by
      simpa using hfirst.holds
    rw [← Finset.filter_filter, Finset.filter_ne', Finset.add_sum_erase _ _ hmem]
  have hiff : e.derivative k b = .ok (.real total) ↔
      ∑ i with (k == args[i]) = true ∧ i ≠ first, d i = 0 := by
    rw [hd, hsplit, Except.ok.injEq, Exact.real.injEq, left_eq_add]
  refine ⟨⟨_, h.evaluate hb k, hasDerivAt_occurrences h.slopes k⟩, first, hfirst, hd, hiff, ?_⟩
  intro honce
  refine hiff.2 (Finset.sum_eq_zero fun i hmem => ?_)
  obtain ⟨-, hholds, hne⟩ := Finset.mem_filter.1 hmem
  exact absurd (honce i hholds) hne

end

/-! ## A squared product -/

/-- The product `a² b` with the gradient `(a b + b a, a²)`. -/
noncomputable def squaredProduct : BlackBox Exact where
  name := "sqprod"
  apply
    | [.real a, .real b] => .ok (.real (a * a * b))
    | _ => .error .wrongType
  gradient := some fun
    | [.real a, .real b] => .ok [.real (a * b + b * a), .real (a * a)]
    | _ => .error .wrongType
  step := .real 1

theorem follows_squaredProduct (x : Fin 2 → ℝ) :
    squaredProduct.Follows (fun y => y 0 * y 0 * y 1) x ![x 0 * x 1 + x 1 * x 0, x 0 * x 0] where
  values := .of_forall fun y => by simp [squaredProduct, Exact.vector]
  gradient := ⟨_, rfl, by simp [Exact.vector]⟩
  slopes := by
    have h0 : HasFDerivAt (fun y : Fin 2 → ℝ => y 0) (ContinuousLinearMap.proj 0) x :=
      (ContinuousLinearMap.proj (R := ℝ) (φ := fun _ : Fin 2 => ℝ) 0).hasFDerivAt
    have h1 : HasFDerivAt (fun y : Fin 2 → ℝ => y 1) (ContinuousLinearMap.proj 1) x :=
      (ContinuousLinearMap.proj (R := ℝ) (φ := fun _ : Fin 2 => ℝ) 1).hasFDerivAt
    refine ((h0.mul h0).mul h1).congr_fderiv (ContinuousLinearMap.ext fun v => ?_)
    simp [slope_apply, Fin.sum_univ_two]
    ring

/-- With `x` at 3 and `y` at 5 the slope in `x` is 30. -/
theorem slope_of_twoKeys : let x : Key := ⟨"x", []⟩; let y : Key := ⟨"y", []⟩
    let b : Binding Exact := fun k => .ok (.real (if k == x then 3 else 5))
    (Expr.blackBox squaredProduct [x, y]).derivative x b = .ok (.real 30) := by
  intro x y b
  have hx : b x = .ok (.real 3) := congrArg (fun t => Except.ok (Exact.real t)) (if_pos BEq.rfl)
  have hy : b y = .ok (.real 5) := congrArg (fun t => Except.ok (Exact.real t)) (if_neg (by decide))
  have hb : ∀ i : Fin [x, y].length, b [x, y][i] = .ok (.real ((![3, 5] : Fin 2 → ℝ) i)) :=
    Fin.forall_fin_two.2 ⟨hx, hy⟩
  obtain ⟨-, first, hfirst, -, -, honce⟩ := slope_of_occurrences hb
    (follows_squaredProduct ![3, 5]) (k := x) (by decide)
  have hholds : ∀ i : Fin [x, y].length, (x == [x, y][i]) = true ↔ i = 0 := by decide
  have hzero : first = 0 := (hholds first).1 hfirst.holds
  refine (honce fun i hi => ((hholds i).1 hi).trans hzero.symm).trans ?_
  have htotal : ∑ i : Fin 2 with (x == [x, y][i]) = true,
      (![3 * 5 + 5 * 3, 3 * 3] : Fin 2 → ℝ) i = 30 := by
    simp only [hholds, Finset.sum_filter, Fin.sum_univ_two]
    norm_num
  exact congrArg (fun t => Except.ok (Exact.real t)) htotal

/-- With `x` in both places the slope at 2 is 12, and the derivative answers 8. -/
theorem slope_of_repeatedKey : let x : Key := ⟨"x", []⟩
    let e : Expr Exact := .blackBox squaredProduct [x, x]
    let b : Binding Exact := fun _ => .ok (.real 2)
    squaredProduct.Follows (fun y => y 0 * y 0 * y 1) ![2, 2] ![2 * 2 + 2 * 2, 2 * 2] ∧
    (∃ moved : ℝ → ℝ, (∀ t, e.evaluate (b.shift x (.real t)) = .ok (.real (moved t))) ∧
      HasDerivAt moved 12 0) ∧
    e.derivative x b = .ok (.real 8) := by
  intro x e b
  refine ⟨follows_squaredProduct ![2, 2],
    ⟨fun t => (2 + t) * (2 + t) * (2 + t), fun t => rfl, ?_⟩, ?_⟩
  · have hmoved : HasDerivAt (fun t : ℝ => 2 + t) 1 0 := (hasDerivAt_id (0 : ℝ)).const_add 2
    exact ((hmoved.mul hmoved).mul hmoved).congr_deriv (by norm_num)
  · have hfirst : e.derivative x b = .ok (.real (2 * 2 + 2 * 2)) := rfl
    rw [hfirst]
    norm_num

end Equilibria
