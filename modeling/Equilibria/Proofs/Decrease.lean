import Equilibria.Proofs.Iterations

/-!
# The merit of a run goes down

In exact arithmetic a search never looks in a direction in which the merit rises, whatever the
solver of linear systems does. If it takes no step backwards the merit never rises, so that a run
returns a point no worse than its start, with whichever code it ends.
-/

namespace Equilibria

open Calls Fallible

/-! ## Real vectors -/

namespace Exact

theorem zero_le_real {x : ℝ} : 0 ≤ real x ↔ 0 ≤ x := by
  rw [zero_eq, le_real]

theorem zero_lt_real {x : ℝ} : 0 < real x ↔ 0 < x := by
  rw [zero_eq, lt_real]

protected theorem le_trans {a b c : Exact} (hab : a ≤ b) (hbc : b ≤ c) : a ≤ c := by
  change le a b at hab
  change le b c at hbc
  change le a c
  rcases a with x | (_ | _) | _ <;> rcases b with y | (_ | _) | _ <;>
    rcases c with z | (_ | _) | _ <;> simp_all [le]
  case real.real.real => exact hab.trans hbc
  -- What is left puts infinity under minus infinity.
  all_goals contradiction

theorem foldl_add (xs : List ℝ) (acc : ℝ) :
    (xs.map real).foldl (· + ·) (real acc) = real (acc + xs.sum) := by
  induction xs generalizing acc with
  | nil => simp
  | cons x xs ih =>
    rw [List.map_cons, List.foldl_cons, add_real, ih, List.sum_cons, add_assoc]

theorem dot_real (xs ys : List ℝ) :
    Vec.dot (xs.map real) (ys.map real) = real (List.zipWith (· * ·) xs ys).sum := by
  have hz : List.zipWith (· * ·) (xs.map real) (ys.map real) =
      (List.zipWith (· * ·) xs ys).map real := by
    rw [List.zipWith_map, List.map_zipWith]
    rfl
  rw [Vec.dot, hz, zero_eq, foldl_add, zero_add]

theorem dot_self (xs : List ℝ) :
    Vec.dot (xs.map real) (xs.map real) = real (xs.map (· ^ 2)).sum := by
  rw [dot_real, List.zipWith_self]
  simp only [sq]

theorem dot_negate (xs : List ℝ) :
    Vec.dot (xs.map real) (Vec.negate (xs.map real)) = real (-(xs.map (· ^ 2)).sum) := by
  have hn : Vec.negate (xs.map real) = (xs.map (-·)).map real := by
    rw [Vec.negate, List.map_map, List.map_map]
    rfl
  rw [hn, dot_real, List.zipWith_map_right, List.zipWith_self]
  clear hn
  congr 1
  induction xs with
  | nil => simp
  | cons x xs ih => simp_all [sq, add_comm]

theorem sum_sq_nonneg (xs : List ℝ) : 0 ≤ (xs.map (· ^ 2)).sum := by
  refine List.sum_nonneg fun y hy => ?_
  obtain ⟨x, -, rfl⟩ := List.mem_map.1 hy
  exact sq_nonneg x

theorem sum_sq_pos {xs : List ℝ} (h : ∃ x ∈ xs, x ≠ 0) : 0 < (xs.map (· ^ 2)).sum := by
  obtain ⟨x, hx, hne⟩ := h
  have hle : x ^ 2 ≤ (xs.map (· ^ 2)).sum := by
    refine List.single_le_sum (fun y hy => ?_) _ (List.mem_map_of_mem hx)
    obtain ⟨z, -, rfl⟩ := List.mem_map.1 hy
    exact sq_nonneg z
  exact (sq_pos_of_ne_zero hne).trans_le hle

theorem maxAbs_zeros {xs : List ℝ} (h : ∀ x ∈ xs, x = 0) : Vec.maxAbs (xs.map real) = real 0 := by
  rw [Vec.maxAbs, zero_eq]
  induction xs with
  | nil => rfl
  | cons x xs ih =>
    obtain ⟨hx, hxs⟩ := List.forall_mem_cons.1 h
    rw [List.map_cons, List.map_cons, List.foldl_cons, hx, abs_real, maxNaN_real, abs_zero,
      max_self]
    exact ih hxs

theorem exists_ne_zero {xs : List ℝ} {tolerance : Exact} (ht : 0 ≤ tolerance)
    (h : ¬ Vec.maxAbs (xs.map real) ≤ tolerance) : ∃ x ∈ xs, x ≠ 0 := by
  by_contra! hzero
  rw [maxAbs_zeros hzero] at h
  exact h (zero_eq ▸ ht)

/-! ## Powers of sizes -/

theorem exponent_real : ∃ c, (Scalar.ofFloat 2.1 : Exact) = real c ∧ 0 < c := by
  have h : Decimal.Binary.ofFloat 2.1 = .finite false (4728779608739020 + 1) (-51) := by
    decide +kernel
  have hpos := ofFloat_pos h
  rw [ofFloat_eq, h] at hpos ⊢
  exact ⟨_, rfl, hpos⟩

theorem norm_real (xs : List ℝ) : Vec.norm (xs.map real) = real √(xs.map (· ^ 2)).sum := by
  rw [Vec.norm, dot_self, sqrt_real (sum_sq_nonneg xs)]

theorem sizePower_nonneg {xs : List ℝ} {q : Exact}
    (h : Newton.sizePower (xs.map real) = .ok q) : ∃ r, q = real r ∧ 0 ≤ r := by
  obtain ⟨c, hc, hpos⟩ := exponent_real
  have hroot : 0 ≤ √(xs.map (· ^ 2)).sum := Real.sqrt_nonneg _
  have hpow : Scalar.pow (Vec.norm (xs.map real)) (Scalar.ofFloat 2.1) =
      real (√(xs.map (· ^ 2)).sum ^ c) := by
    rw [norm_real, hc]
    exact pow_eq_real.2 ⟨fun h => h.2.not_gt hpos, fun h => h.1.not_ge hroot, rfl⟩
  rw [Newton.sizePower, hpow] at h
  simp only [isFinite_real, Bool.not_true, Bool.and_false, Bool.false_eq_true, if_false] at h
  cases h
  exact ⟨_, rfl, Real.rpow_nonneg hroot c⟩

end Exact

namespace Newton

variable {σ : Type} {I : σ → Prop} {p : Problem σ Exact}
  {value : List Exact → Except Error (Grid Exact)} {n : Newton Exact} {s : Setting Exact}
  {l : Limits Exact} {t t' : Trace σ Exact} {k : Nat} {i : Iterate Exact}

/-! ## Steps -/

/-- What is asked of the numbers of a method. A step backwards is ruled out. -/
structure Proper (n : Newton Exact) : Prop extends n.IsReal where
  sigma_pos : 0 < n.sigma
  rho_nonneg : 0 ≤ n.rho
  tolerance_nonneg : 0 ≤ n.gradientTolerance
  forward : 0 ≤ n.beta ∨ n.beta < n.minStep

theorem Proper.step_nonneg (hn : n.Proper) {step : Exact} (h : Steps n step) :
    ∃ r, step = .real r ∧ 0 ≤ r := by
  obtain ⟨b, hb⟩ := Exact.isFinite_iff.1 hn.beta
  rcases hn.forward with hforward | hshort
  · have hnonneg : 0 ≤ b := Exact.zero_le_real.1 (hb ▸ hforward)
    induction h with
    | full => exact ⟨1, Exact.one_eq, zero_le_one⟩
    | back tried long ih =>
      obtain ⟨r, rfl, hr⟩ := ih
      exact ⟨r * b, by rw [hb, Exact.mul_real], mul_nonneg hr hnonneg⟩
  · -- The second step would be shorter than the shortest one.
    suffices hone : step = 1 from ⟨1, hone.trans Exact.one_eq, zero_le_one⟩
    induction h with
    | full => rfl
    | back tried long ih =>
      refine absurd ?_ long
      rw [ih, Exact.one_eq, hb, Exact.mul_real, one_mul, ← hb]
      exact hshort

/-! ## Slopes -/

theorem Proper.slope_of_directed (hn : n.Proper) {gs : List ℝ} {d : List Exact}
    (hg : ∃ x ∈ gs, x ≠ 0) (h : Directed n (gs.map .real) (.ok d)) :
    Vec.isFinite d = true ∧ ∃ z, Vec.dot (gs.map Exact.real) d = .real z ∧ z ≤ 0 ∧
      (d = Vec.negate (gs.map .real) → z < 0) := by
  have hpos := Exact.sum_sq_pos hg
  cases h with
  | gradient =>
    have hfinite : Vec.isFinite (gs.map Exact.real) = true := by simp [Vec.isFinite]
    exact ⟨Exact.isFinite_negate hfinite, _, Exact.dot_negate gs, by linarith, fun _ => by linarith⟩
  | linear finite size descent =>
    obtain ⟨ds, rfl⟩ := Exact.eq_map_real finite
    obtain ⟨r, rfl, hr⟩ := Exact.sizePower_nonneg size
    obtain ⟨rho, hrho⟩ := Exact.isFinite_iff.1 hn.rho
    have hrho_nonneg : 0 ≤ rho := Exact.zero_le_real.1 (hrho ▸ hn.rho_nonneg)
    have hle : (List.zipWith (· * ·) gs ds).sum ≤ -rho * r := by
      rw [hrho, Exact.dot_real] at descent
      exact not_lt.1 descent
    refine ⟨finite, _, Exact.dot_real gs ds, hle.trans ?_, fun hd => ?_⟩
    · exact mul_nonpos_of_nonpos_of_nonneg (neg_nonpos.2 hrho_nonneg) hr
    · have heq := Exact.dot_real gs ds
      rw [hd, Exact.dot_negate] at heq
      rw [← Exact.real.inj heq]
      linarith

theorem Aim.slope_real (a : Aim n s p l k i t) (hn : n.Proper) (hp : p.Answers I value)
    (ht : Around I t) (hphi : Vec.isFinite (values i.rows) = true) :
    Vec.isFinite a.direction = true ∧ ∃ z, a.slope = .real z ∧ z ≤ 0 ∧
      (a.direction = Vec.negate a.grad → z < 0) := by
  obtain ⟨gs, hgs⟩ := Exact.eq_map_real (Exact.isFinite_transposeApply a.finite hphi)
  have hg : ∃ x ∈ gs, x ≠ 0 := Exact.exists_ne_zero hn.tolerance_nonneg (hgs ▸ a.steep)
  have hd := (a.directed hp ht).1
  have hgrad : a.grad = gs.map .real := hgs
  rw [slope, hgrad]
  rw [hgrad] at hd
  exact hn.slope_of_directed hg hd

/-! ## Equations that are real -/

/-- The function has finite values at a point, one for each entry. -/
def FiniteAt (value : List Exact → Except Error (Grid Exact)) (x : List Exact) : Prop :=
  ∃ f, value x = .ok f ∧ f.shape = [x.length] ∧ Vec.isFinite f.data = true

theorem isFinite_rows {b : Box Exact} {x f : List Exact} {rows : List (Row Exact)}
    (h : b.rows x f = .ok rows) (hx : Vec.isFinite x = true) (hf : Vec.isFinite f = true) :
    Vec.isFinite (values rows) = true := by
  obtain ⟨bounds, -, h⟩ := bind_eq_ok.1 h
  split at h <;> cases h
  rw [Exact.isFinite_all]
  intro v hv
  obtain ⟨r, hr, rfl⟩ := List.mem_map.1 hv
  obtain ⟨j, hj⟩ := List.getElem?_of_mem hr
  obtain ⟨⟨l, u⟩, ⟨a, y⟩, -, hay, rfl⟩ := List.getElem?_zipWith_eq_some.1 hj
  obtain ⟨ha, hy⟩ := List.of_mem_zip (List.mem_of_getElem? hay)
  obtain ⟨a, rfl⟩ := Exact.isFinite_iff.1 (Exact.isFinite_all.1 hx a ha)
  obtain ⟨y, rfl⟩ := Exact.isFinite_iff.1 (Exact.isFinite_all.1 hf y hy)
  rw [boxRow_real]
  rfl

theorem finite_of_evaluated {x : List Exact} {rows : List (Row Exact)}
    (h : p.evaluated value x = .ok rows) (hx : Vec.isFinite x = true) :
    FiniteAt value x ∧ Vec.isFinite (values rows) = true := by
  obtain ⟨f, hf, h⟩ := bind_eq_ok.1 h
  unfold Box.evaluate at h
  split at h
  · cases h
  rename_i hshape
  split at h
  · rename_i hnil
    have hfinite := Exact.isFinite_all.2 (Box.finite_of_notFinite hnil)
    exact ⟨⟨f, hf, by simpa using hshape, hfinite⟩, isFinite_rows h hx hfinite⟩
  · cases h

theorem merit_real {rows : List (Row Exact)} (h : Vec.isFinite (values rows) = true) :
    ∃ m, merit rows = .real m := Exact.isFinite_iff.1 (isFinite_merit h)

theorem isFinite_along {x d : List Exact} {r : ℝ} (hx : Vec.isFinite x = true)
    (hd : Vec.isFinite d = true) : Vec.isFinite (along x d (.real r)) = true := by
  refine Exact.isFinite_zipWith (fun a b ha hb => by simp [ha, hb]) hx ?_
  rw [Exact.isFinite_all]
  intro y hy
  obtain ⟨z, hz, rfl⟩ := List.mem_map.1 hy
  simp [Exact.isFinite_all.1 hd z hz]

/-! ## Searches -/

/-- A search goes down: what it accepts lowers the merit by a share of what the slope promises. -/
structure Aim.Descends (value : List Exact → Except Error (Grid Exact)) (a : Aim n s p l k i t) :
    Prop where
  slope : a.slope ≤ 0
  gradient : a.direction = Vec.negate a.grad → a.slope < 0
  accepted : ∀ j, a.search.1 = .ok (some j) → ∃ step, Steps n step ∧
    j.x = along i.x a.direction step ∧ FiniteAt value j.x ∧
    merit j.rows ≤ merit i.rows + n.sigma * step * a.slope ∧
    merit i.rows + n.sigma * step * a.slope ≤ merit i.rows

/-- A point with its own equations, all of which are real. -/
structure Iterate.Regular (p : Problem σ Exact)
    (value : List Exact → Except Error (Grid Exact)) (i : Iterate Exact) : Prop where
  finite : Vec.isFinite i.x = true
  equations : p.evaluated value i.x = .ok i.rows

theorem Iterate.Regular.values (h : i.Regular p value) :
    FiniteAt value i.x ∧ Vec.isFinite (values i.rows) = true :=
  finite_of_evaluated h.equations h.finite

theorem Proper.bound_le (hn : n.Proper) {m z : ℝ} (hz : z ≤ 0) {step : Exact}
    (hstep : Steps n step) :
    ∃ b, Exact.real m + n.sigma * step * .real z = .real b ∧ b ≤ m := by
  obtain ⟨sigma, hsigma⟩ := Exact.isFinite_iff.1 hn.sigma
  have hpos : 0 < sigma := Exact.zero_lt_real.1 (hsigma ▸ hn.sigma_pos)
  obtain ⟨r, rfl, hr⟩ := hn.step_nonneg hstep
  refine ⟨m + sigma * r * z, by rw [hsigma]; rfl, ?_⟩
  have := mul_nonpos_of_nonneg_of_nonpos (mul_nonneg hpos.le hr) hz
  linarith

theorem Proper.found_step (hn : n.Proper) {x d : List Exact} {m z : ℝ} (hz : z ≤ 0)
    {r : Except Error (Option (Iterate Exact))} (h : Found n p value x d (.real m) (.real z) r)
    {j : Iterate Exact} (hj : r = .ok (some j)) : ∃ step, Steps n step ∧ j.x = along x d step ∧
      p.evaluated value j.x = .ok j.rows ∧
      merit j.rows ≤ .real m + n.sigma * step * .real z := by
  cases h with
  | step tried equations drop =>
    cases hj
    exact ⟨_, tried, rfl, equations, drop⟩
  | blind tried failed caught infinite =>
    obtain ⟨b, hb, -⟩ := hn.bound_le (m := m) hz tried
    rw [hb] at infinite
    exact absurd infinite (Exact.not_infinity_le b)
  | short => cases hj
  | endless => cases hj
  | refused failed => cases hj

theorem Aim.descends (a : Aim n s p l k i t) (hn : n.Proper) (hp : p.Answers I value)
    (ht : Around I t) (hi : i.Regular p value) :
    a.Descends value ∧ ∀ j, a.search.1 = .ok (some j) → j.Regular p value := by
  obtain ⟨-, hphi⟩ := hi.values
  obtain ⟨hd, z, hz, hle, hneg⟩ := a.slope_real hn hp ht hphi
  obtain ⟨m, hm⟩ := merit_real hphi
  have hfound := (a.found hp ht).1
  rw [hm, hz] at hfound
  have hregular (j : Iterate Exact) (hj : a.search.1 = .ok (some j)) : j.Regular p value := by
    obtain ⟨step, hstep, hx, hrows, -⟩ := hn.found_step hle hfound hj
    obtain ⟨r, rfl, -⟩ := hn.step_nonneg hstep
    refine ⟨?_, hrows⟩
    rw [hx]
    exact isFinite_along hi.finite hd
  refine ⟨⟨?_, fun heq => ?_, fun j hj => ?_⟩, hregular⟩
  · rw [hz, Exact.zero_eq]
    exact hle
  · rw [hz, Exact.zero_eq]
    exact hneg heq
  · obtain ⟨step, hstep, hx, -, hdrop⟩ := hn.found_step hle hfound hj
    refine ⟨step, hstep, hx, (hregular j hj).values.1, ?_, ?_⟩
    · rw [hm, hz]
      exact hdrop
    · obtain ⟨b, hb, hle⟩ := hn.bound_le (m := m) hle hstep
      rw [hm, hz, hb]
      exact hle

/-! ## Runs -/

theorem Head.regular (hn : n.Proper) (hp : p.Answers I value) (ht : Around I t)
    (hx : Vec.isFinite p.start = true) (h : Head n s p l t k i t') : i.Regular p value := by
  induction h with
  | first ordered some equations =>
    have hv := (hp.equations p.start ht).1
    rw [equations] at hv
    exact ⟨hx, hv.symm⟩
  | next head left step ih =>
    cases head.stepped hp ht (congrArg Prod.fst step) with
    | moved a search => exact (a.descends hn hp (head.around hp ht) ih).2 _ search

theorem Head.merit_le (hn : n.Proper) (hp : p.Answers I value) (ht : Around I t)
    (hx : Vec.isFinite p.start = true) {rows₀ : List (Row Exact)}
    (hr : p.evaluated value p.start = .ok rows₀) (h : Head n s p l t k i t') :
    merit i.rows ≤ merit rows₀ := by
  -- By induction on the iterations.
  induction h with
  | first ordered some equations =>
    have hv := (hp.equations p.start ht).1
    rw [equations] at hv
    cases hv.trans hr
    obtain ⟨m, hm⟩ := merit_real (finite_of_evaluated hr hx).2
    rw [hm]
    exact le_refl m
  | next head left step ih =>
    have hi := head.regular hn hp ht hx
    cases head.stepped hp ht (congrArg Prod.fst step) with
    | moved a search =>
      obtain ⟨_, _, _, _, hdrop, hle⟩ :=
        (a.descends hn hp (head.around hp ht) hi).1.accepted _ search
      exact Exact.le_trans (Exact.le_trans hdrop hle) ih

theorem ended_at (hp : p.Answers I value) (ht : Around I t) {o : Output Exact}
    (ho : (run n s p l t).1 = .ok o) : o.x = .vector p.start ∨
      ∃ k i t', Head n s p l t k i t' ∧ o.x = .vector i.x := by
  have hended := ended_of_run n s p l t
  rw [ho] at hended
  cases hended with
  | early u message size_eq => exact .inl rfl
  | exhausted head =>
    refine .inr ⟨_, _, _, head, ?_⟩
    unfold exhausted
    simp only
    split <;> rfl
  | stopped head step =>
    cases head.stepped hp ht step with
    | stopped u message => exact .inr ⟨_, _, _, head, rfl⟩

/-- Each search of a run goes down, and the run returns a point with a finite function and a merit
not above that of the start. -/
theorem decreases_of_run (hn : n.Proper) (hp : p.Answers I value) (ht : Around I t)
    (hx : Vec.isFinite p.start = true) (hf : FiniteAt value p.start) :
    (∀ k i t', Head n s p l t k i t' → (∀ a : Aim n s p l k i t', a.Descends value) ∧
      ∀ j, (step n s p l k i t').1 = .ok (.inr j) →
        ∃ a : Aim n s p l k i t', a.search.1 = .ok (some j)) ∧
      ∀ o, (run n s p l t).1 = .ok o → ∃ x, o.x = .vector x ∧ FiniteAt value x ∧
        ∀ rows₀, p.evaluated value p.start = .ok rows₀ →
          ∃ rows, p.evaluated value x = .ok rows ∧ merit rows ≤ merit rows₀ := by
  refine ⟨fun k i t' h => ⟨fun a => ?_, fun j hj => ?_⟩, fun o ho => ?_⟩
  · exact (a.descends hn hp (h.around hp ht) (h.regular hn hp ht hx)).1
  · cases h.stepped hp ht hj with
    | moved a search => exact ⟨a, search⟩
  rcases ended_at hp ht ho with hstart | ⟨k, i, t', h, hi⟩
  · refine ⟨p.start, hstart, hf, fun rows₀ hrows => ⟨rows₀, hrows, ?_⟩⟩
    obtain ⟨m, hm⟩ := merit_real (finite_of_evaluated hrows hx).2
    rw [hm]
    exact le_refl m
  · have hregular := h.regular hn hp ht hx
    exact ⟨i.x, hi, hregular.values.1, fun rows₀ hrows =>
      ⟨i.rows, hregular.equations, h.merit_le hn hp ht hx hrows⟩⟩

/-! ## One variable against itself -/

def itself : Problem Unit Exact where
  lower := [.infinite true]
  upper := [.infinite false]
  start := [.real 1]
  value x := pure (.vector x)
  jacobian _ := pure (.dense [[.real 1]])
  vars := []
  residuals := []

theorem answers_itself : itself.Answers (fun _ => True) fun x => .ok (.vector x) :=
  ⟨fun _ _ _ => ⟨rfl, trivial⟩, fun _ _ _ => trivial⟩

theorem evaluated_itself (a : ℝ) :
    itself.evaluated (fun x => .ok (.vector x)) [.real a] = .ok [⟨.real a, 0, 1⟩] := rfl

theorem dot_single (a b : ℝ) : Vec.dot [Exact.real a] [.real b] = .real (a * b) := by
  simpa using Exact.dot_real [a] [b]

theorem merit_itself (a : ℝ) : merit [⟨Exact.real a, 0, 1⟩] = .real (1 / 2 * a ^ 2) := by
  change Scalar.half * Vec.dot [Exact.real a] [.real a] = _
  rw [dot_single, Exact.half_eq, Exact.mul_real, sq]

noncomputable def stepping (sigma beta minStep : ℝ) : Newton Exact :=
  ⟨.real sigma, .real beta, .real 0, .real minStep, .real 0⟩

theorem proper_stepping {sigma beta minStep : ℝ} (hsigma : 0 < sigma)
    (hforward : 0 ≤ beta ∨ beta < minStep) : (stepping sigma beta minStep).Proper where
  sigma := rfl
  beta := rfl
  rho := rfl
  minStep := rfl
  gradientTolerance := rfl
  sigma_pos := Exact.zero_lt_real.2 hsigma
  rho_nonneg := Exact.zero_le_real.2 le_rfl
  tolerance_nonneg := Exact.zero_le_real.2 le_rfl
  forward := hforward.imp Exact.zero_le_real.2 Exact.lt_real.2

/-- From one, a method that halves its steps returns a point with half the merit at most. -/
theorem halving_decreases : (stepping (1 / 4) (1 / 2) (1 / 8)).Proper ∧
    ∀ (s : Setting Exact) (l : Limits Exact) (o : Output Exact),
      (run (stepping (1 / 4) (1 / 2) (1 / 8)) s itself l ⟨(), []⟩).1 = .ok o →
        ∃ x rows, o.x = .vector x ∧
          itself.evaluated (fun x => .ok (.vector x)) x = .ok rows ∧
          merit rows ≤ .real (1 / 2) := by
  have hproper : (stepping (1 / 4) (1 / 2) (1 / 8)).Proper :=
    proper_stepping (by norm_num) (.inl (by norm_num))
  refine ⟨hproper, fun s l o ho => ?_⟩
  have hstart : FiniteAt (fun x => .ok (.vector x)) itself.start := ⟨_, rfl, rfl, rfl⟩
  obtain ⟨-, hout⟩ := decreases_of_run (s := s) (l := l) (t := ⟨(), []⟩) hproper
    answers_itself trivial rfl hstart
  obtain ⟨x, hx, -, hmerit⟩ := hout o ho
  obtain ⟨rows, hrows, hle⟩ := hmerit _ (evaluated_itself 1)
  rw [merit_itself, one_pow, mul_one] at hle
  exact ⟨x, rows, hx, hrows, hle⟩

/-- The method that turns a step around if it went too far. -/
noncomputable def turning (sigma : ℝ) : Newton Exact := stepping sigma (-1) (-1)

noncomputable def onlyGradients : Setting Exact := ⟨fun _ _ => none, fun _ => 0, 2⟩

noncomputable def oneIteration : Limits Exact := ⟨.real 0, 1, Scalar.infinity, false⟩

theorem evaluate?_itself (a : ℝ) (t : Trace Unit Exact) :
    evaluate? itself [.real a] t =
      (.ok (some [⟨.real a, 0, 1⟩]), ⟨(), .valueCall :: t.events⟩) := rfl

theorem turning_search {sigma : ℝ} (hsigma : 3 / 2 ≤ sigma) (t : Trace Unit Exact) :
    (search (turning sigma) itself [.real 1] [.real (-1)] (.real (1 / 2)) (.real (-1)) 2 1 none
      t).1 = .ok (some ⟨[.real 2], [⟨.real 2, 0, 1⟩], some [⟨.real 2, 0, 1⟩]⟩) := by
  have halong (r : ℝ) : along [Exact.real 1] [.real (-1)] (.real r) = [.real (1 - r)] := by
    change [Exact.real 1 + .real r * .real (-1)] = _
    rw [Exact.mul_real, Exact.add_real, mul_neg_one, sub_eq_add_neg]
  have hstep (r : ℝ) (t : Trace Unit Exact) :
      evaluate? itself (along [.real 1] [.real (-1)] (.real r)) t =
        (.ok (some [⟨.real (1 - r), 0, 1⟩]), ⟨(), .valueCall :: t.events⟩) := by
    rw [halong, evaluate?_itself]
  have hbound (r : ℝ) : Exact.real (1 / 2) + (turning sigma).sigma * .real r * .real (-1) =
      .real (1 / 2 + sigma * r * -1) := rfl
  have hbeta (r : ℝ) : Exact.real r * (turning sigma).beta = .real (r * -1) := rfl
  rw [Exact.one_eq, search_succ 1 none (hstep 1 t), merit_itself, hbound, hbeta, if_neg, if_neg,
    search_succ 0 _ (hstep (1 * -1) _), merit_itself, hbound, if_pos]
  · have htwo : (1 : ℝ) - 1 * -1 = 2 := by norm_num
    rw [halong, htwo, Exact.one_eq]
  · exact Exact.le_real.2 (by linarith)
  · exact fun h => absurd (Exact.lt_real.1 h) (by norm_num)
  · exact fun h => absurd (Exact.le_real.1 h) (by linarith)

theorem slopes_itself (t : Trace Unit Exact) :
    Run.slopes itself [.real 1] [⟨.real 1, 0, 1⟩] t =
      (.ok [[.real 1]], ⟨(), .jacobianCall :: t.events⟩) := by
  have hentry : (0 : Exact) + 1 * .real 1 = .real 1 := by
    rw [Exact.zero_eq, Exact.one_eq, Exact.mul_real, Exact.add_real, one_mul, zero_add]
  rw [Run.slopes_apply, ← hentry]
  rfl

theorem gradient_itself :
    Mat.transposeApply [[Exact.real 1]] (values [⟨Exact.real 1, 0, 1⟩]) = [.real 1] := by
  change [Vec.dot [Exact.real 1] [.real 1]] = _
  rw [dot_single, one_mul]

theorem not_maxAbs_le_zero : ¬ Vec.maxAbs [Exact.real 1] ≤ .real 0 := by
  change ¬ Vec.maxNaN 0 (Scalar.abs (Exact.real 1)) ≤ .real 0
  rw [Exact.zero_eq, Exact.abs_real, Exact.maxNaN_real, Exact.le_real]
  norm_num

noncomputable def turningAim (sigma : ℝ) (t : Trace Unit Exact) :
    Aim (turning sigma) onlyGradients itself oneIteration 0
      ⟨[.real 1], [⟨.real 1, 0, 1⟩], none⟩ t where
  slopes := [[.real 1]]
  direction := [.real (-1)]
  before := ⟨(), .jacobianCall :: .iteration (norm [⟨.real 1, 0, 1⟩]) :: t.events⟩
  after := ⟨(), .singular :: .jacobianCall :: .iteration (norm [⟨.real 1, 0, 1⟩]) :: t.events⟩
  unsolved := not_maxAbs_le_zero
  inTime := by
    change ¬ (Scalar.infinity : Exact) < 0
    rw [Exact.zero_eq]
    exact Exact.not_infinity_lt 0
  sloped := slopes_itself _
  finite := rfl
  steep := by
    rw [gradient_itself]
    exact not_maxAbs_le_zero
  aimed := by
    rw [gradient_itself]
    rfl

theorem turningAim_search {sigma : ℝ} (hsigma : 3 / 2 ≤ sigma) (t : Trace Unit Exact) :
    (turningAim sigma t).search.1 =
      .ok (some ⟨[.real 2], [⟨.real 2, 0, 1⟩], some [⟨.real 2, 0, 1⟩]⟩) := by
  have hslope : (turningAim sigma t).slope = .real (-1) := by
    change Vec.dot (Mat.transposeApply [[Exact.real 1]] (values [⟨Exact.real 1, 0, 1⟩]))
      [.real (-1)] = _
    rw [gradient_itself, dot_single, one_mul]
  have hmerit : merit [⟨Exact.real 1, 0, 1⟩] = .real (1 / 2) := by
    rw [merit_itself, one_pow, mul_one]
  rw [Aim.search, hslope, hmerit]
  exact turning_search hsigma _

theorem turning_run {sigma : ℝ} (hsigma : 3 / 2 ≤ sigma) :
    ∃ o, (run (turning sigma) onlyGradients itself oneIteration ⟨(), []⟩).1 = .ok o ∧
      o.x = .vector [.real 2] := by
  have hcrossed : itself.hasCrossedBounds = .ok false := by
    have h : ¬ Exact.infinite false < Exact.infinite true := by
      change ¬ true < false
      decide
    change Except.ok ([decide (Exact.infinite false < Exact.infinite true)].any id) = _
    simp [h]
  have hequations : Run.equations itself itself.start ⟨(), []⟩ =
    (.ok [⟨.real 1, 0, 1⟩], ⟨(), [.valueCall]⟩) := rfl
  obtain ⟨t, ht⟩ := loop_succ_of_step 0 ((turningAim sigma ⟨(), [.valueCall]⟩).step_of_search
    (turningAim_search hsigma _))
  rw [run_eq_loop hcrossed (by decide) hequations]
  change ∃ o, (loop (turning sigma) onlyGradients itself oneIteration 1 0 _ _).1 = .ok o ∧ _
  refine ⟨_, congrArg Prod.fst ht, ?_⟩
  unfold exhausted
  simp only
  split <;> rfl

/-- A step backwards meets the bound of the search, and the merit goes up. -/
theorem turning_rises : 0 < (turning 2).sigma ∧ 0 ≤ (turning 2).rho ∧
    0 ≤ (turning 2).gradientTolerance ∧ FiniteAt (fun x => .ok (.vector x)) itself.start ∧
    ∃ o rows rows₀, (run (turning 2) onlyGradients itself oneIteration ⟨(), []⟩).1 = .ok o ∧
      o.x = .vector [.real 2] ∧
      itself.evaluated (fun x => .ok (.vector x)) [.real 2] = .ok rows ∧
      itself.evaluated (fun x => .ok (.vector x)) itself.start = .ok rows₀ ∧
      ¬ merit rows ≤ merit rows₀ := by
  have hsigma : (3 / 2 : ℝ) ≤ 2 := by norm_num
  obtain ⟨o, ho, hx⟩ := turning_run hsigma
  refine ⟨Exact.zero_lt_real.2 two_pos, Exact.zero_le_real.2 le_rfl, Exact.zero_le_real.2 le_rfl,
    ⟨_, rfl, rfl, rfl⟩, o, _, _, ho, hx, evaluated_itself 2, evaluated_itself 1, ?_⟩
  rw [merit_itself, merit_itself, Exact.le_real]
  norm_num

end Newton

end Equilibria
