import Equilibria.Proofs.Equations
import Equilibria.Proofs.Fits
import Equilibria.Proofs.Solves

/-!
# What an optimal solve leaves

With exact numbers, an optimal solve leaves values at which every component of the model is solved,
up to three times the tolerance that was asked for.
-/

namespace Equilibria

open Calls Fallible

/-! ## Solvers -/

theorem Limits.tolerance_of_ok {α : Type} [Scalar α] {o : Options} {iterations : Int}
    {l : Limits α} (h : ofOptions o iterations = .ok l) :
    ∃ t, o.getFloat "convergence_tolerance" = .ok t ∧
      l.tolerance = Scalar.ofFloat (t.getD 1e-8) := by
  obtain ⟨t, ht, h⟩ := bind_eq_ok.1 h
  obtain ⟨_, -, h⟩ := bind_eq_ok.1 h
  obtain ⟨_, -, h⟩ := bind_eq_ok.1 h
  cases h
  exact ⟨t, ht, rfl⟩

/-- The solvers that are vouched for. -/
inductive Solver.Trusted : Solver Exact → Prop
  | newton (n : Newton Exact) (s : Newton.Setting Exact) (real : n.IsReal) :
    Trusted (Solver.newton n s)
  | trustRegion (method : TrustRegion.Method (Scratch Exact) Exact) (elapsed : Exact)
    (faithful : TrustRegion.Faithful method) : Trusted (Solver.trustRegion method elapsed)

namespace Solver.Trusted

variable {solver : Solver Exact} {I : Scratch Exact → Prop} {p : Problem (Scratch Exact) Exact}
  {answer : List Exact → Except Error (List (Row Exact))}

theorem ensures_solve (h : solver.Trusted) (hp : Steady I p answer) (options : Options) :
    Ensures (Around I) (solver.solve p options) fun o =>
      ∃ t, options.getFloat "convergence_tolerance" = .ok t ∧
        o.Vouches p answer (Scalar.ofFloat (t.getD 1e-8)) := by
  cases h with
  | newton n s real =>
    refine (Ensures.lift fun l => Limits.tolerance_of_ok).bind fun l ⟨t, ht, hl⟩ => ?_
    exact (Newton.ensures_run hp real s l).mono fun o ho => ⟨t, ht, hl ▸ ho⟩
  | trustRegion method elapsed faithful =>
    refine (Ensures.lift fun l => Limits.tolerance_of_ok).bind fun l ⟨t, ht, hl⟩ => ?_
    exact (TrustRegion.ensures_run faithful hp l elapsed).mono fun o ho => ⟨t, ht, hl ▸ ho⟩

theorem code_of_optimal (h : solver.Trusted) {o : Output Exact} {n : Nat}
    (ho : (Model.classify solver o n).isOptimal = true) : o.code = Termination.solved.code :=
  Model.code_of_classify (by cases h <;> rfl) ho

end Solver.Trusted

/-! ## Stored values -/

namespace Model

/-- The values that expressions read: stored ones, or else what callbacks have bound. -/
def reading {α : Type} [Scalar α] (m : Model α) : Binding α := fun k =>
  match m.getValue k with
  | .ok x => .ok x
  | .error _ => Binding.ofList m.scratch k

section

variable {α : Type} [Scalar α] {m : Model α} (xs : List α) (scratch : Scratch α)

theorem getValue_found (h : m.Valid) (hl : xs.length = m.pairing.vars.length) {k : Key}
    (hk : m.pairing.vars.contains k = true) :
    ∃ x, (m.found xs scratch).getValue k = .ok x ∧
      Binding.ofList (m.scratch.bind m.pairing.vars xs) k = .ok x := by
  obtain ⟨a, ha, hak⟩ := Key.contains_iff.1 hk
  have hr := Key.contains_of_contains (h.known a ha) hak
  obtain ⟨v, -, -, hv⟩ := m.registry.get_of_contains hr
  obtain ⟨e, he, he'⟩ := Binding.find?_zip m.pairing.proper_vars hl
    (m.scratch.outside m.pairing.vars) hk
  refine ⟨e.2, ?_, Binding.ofList_eq (m.pairing.proper_vars.fixed_of_contains hk) he'⟩
  change ((m.registry.settled (m.pairing.vars.zip xs)).get k >>= _) = _
  rw [m.registry.get_settled hv hr he]
  rfl

theorem reading_found (h : m.Valid) (hl : xs.length = m.pairing.vars.length)
    (hs : scratch.outside m.pairing.vars = m.scratch.outside m.pairing.vars) :
    (m.found xs scratch).reading = Binding.ofList (m.scratch.bind m.pairing.vars xs) := by
  funext k
  cases hk : m.pairing.vars.contains k with
  | true =>
    obtain ⟨x, hx, hb⟩ := getValue_found xs scratch h hl hk
    rw [reading, hx, hb]
  | false =>
    have hn : m.registry.keys.contains k = false := by
      cases hc : m.registry.keys.contains k with
      | false => rfl
      | true =>
        obtain ⟨a, ha, hak⟩ := Key.contains_iff.1 hc
        rw [Key.contains_of_contains (h.paired a ha) hak] at hk
        cases hk
    obtain ⟨e, he⟩ := (m.registry.settled (m.pairing.vars.zip xs)).get_error
      (k := k) (by rw [Registry.keys_settled]; exact hn)
    have hg : (m.found xs scratch).getValue k = .error e := by
      change ((m.registry.settled (m.pairing.vars.zip xs)).get k >>= _) = _
      rw [he]
      rfl
    rw [reading, hg, m.scratch.ofList_bind xs hk, ← m.scratch.ofList_outside hk, ← hs]
    exact (scratch.ofList_outside hk).symm

end

/-- The component of a pair is solved at the stored values, up to a tolerance. -/
structure Solves (m : Model Exact) (tolerance : Exact) (pair : Pair) (f : Residual Exact)
    (v : Variable Exact) (x r : ℝ) : Prop where
  residual : m.residuals.get pair.res = .ok f
  registered : m.registry.get pair.var = .ok v
  stored : v.value = some (.real x)
  evaluate : f.expr.evaluate m.reading = .ok (.real r)
  evaluateLocal : f.expr.Local → f.expr.evaluate m.getValue = .ok (.real r)
  near : .real |natural v.lower v.upper x r| ≤ tolerance

theorem solves_of_meets {m : Model Exact} (hv : m.Valid) {vars : List (Variable Exact)}
    {flat : Flat Exact} (hvars : Problem.paired m.registry m.pairing = .ok vars)
    (hflat : Flat.ofPairs m.residuals m.pairing = .ok flat) {xs : List Exact}
    {scratch : Scratch Exact} {tolerance : Exact} (hx : Vec.isFinite xs = true)
    (hl : xs.length = m.pairing.vars.length)
    (hs : scratch.outside m.pairing.vars = m.scratch.outside m.pairing.vars)
    (hm : Meets (flat.equations vars m.scratch) tolerance xs) {pair : Pair}
    (hp : pair ∈ m.pairing.pairs) :
    ∃ f v x r, (m.found xs scratch).Solves (3 * tolerance) pair f v x r := by
  obtain ⟨rows, hrows, hmax⟩ := hm
  obtain ⟨ys, hys, he⟩ := bind_eq_ok.1 hrows
  have hb := Box.equations_of_evaluate (by simp) he
  obtain ⟨i, hi⟩ := List.getElem?_of_mem hp
  obtain ⟨hkey, ⟨v, hgv, hvi⟩, f, hgf, hfi⟩ := place_of_pair hvars hflat hi
  have hk := Flat.keys_of_ofPairs hflat
  obtain ⟨-, hys⟩ := Flat.value_eq_ok hys
  rw [hk] at hkey hys
  obtain ⟨y, hyi, hfy⟩ := getElem?_of_mapM hys hfi
  have hmem : pair.var ∈ m.pairing.vars := List.mem_of_getElem? hkey
  have hlt : i < xs.length := by
    rw [hl]
    exact (List.getElem?_eq_some_iff.1 hkey).1
  have hxi : xs[i]? = some xs[i] := List.getElem?_eq_getElem hlt
  obtain ⟨x, hxr⟩ := Exact.isFinite_iff.1 (Exact.isFinite_all.1 hx _ (List.mem_of_getElem? hxi))
  obtain ⟨r, rfl⟩ := Exact.isFinite_iff.1 (hb.finite y (List.mem_of_getElem? hyi))
  rw [hxr] at hxi
  have hnear := hb.near hx hmax (l := v.lower) (u := v.upper) (by simp [hvi]) (by simp [hvi])
    hxi hyi
  have hz : Key.Proper ((m.pairing.vars.zip xs).map (·.1)) := by
    rw [List.map_fst_zip (Nat.le_of_eq hl.symm)]
    exact m.pairing.proper_vars
  have hpoint : (pair.var, Exact.real x) ∈ m.pairing.vars.zip xs :=
    List.mem_of_getElem? (List.getElem?_zip_eq_some.2 ⟨hkey, hxi⟩)
  have hfind := hz.find?_eq hpoint (BEq.rfl (a := pair.var))
  refine ⟨f, { v with value := some (.real x) }, x, r, hgf, ?_, rfl, ?_, fun hloc => ?_, hnear⟩
  · exact m.registry.get_settled hgv (hv.known _ hmem) hfind
  · rw [reading_found xs scratch hv hl hs, ← hfy]
  · -- What the residual reads is stored, so that it need not know what else is bound.
    obtain ⟨f', hf', -, hg'⟩ := m.residuals.get_of_contains
      (hv.residualsKnown _ (List.mem_map_of_mem hp))
    cases hgf.symm.trans hg'
    rw [← hfy]
    refine f.expr.evaluate_congr hloc fun k hk => ?_
    obtain ⟨a, ha, hb⟩ := getValue_found xs scratch hv hl (hv.reads hf' k hk)
    exact ha.trans hb.symm

end Model

/-! ## A start that is a solution -/

theorem Newton.isReal_standard : (Newton.standard : Newton Exact).IsReal where
  sigma := (Exact.isFinite_ofFloat _).trans (by decide +kernel)
  beta := congrArg Scalar.isFinite Exact.half_eq
  rho := (Exact.isFinite_ofFloat _).trans (by decide +kernel)
  minStep := (Exact.isFinite_ofFloat _).trans (by decide +kernel)
  gradientTolerance := (Exact.isFinite_ofFloat _).trans (by decide +kernel)

namespace AtBound

noncomputable def var : Variable Exact where
  key := ⟨"x", []⟩
  lower := .real 0
  upper := Scalar.infinity
  start := .real 0
  value := none
  description := ""

noncomputable def model : Model Exact where
  name := "m"
  description := ""
  catalog := .empty
  registry := ⟨[(⟨"x", []⟩, var)], .cons rfl .nil (by simp)⟩
  residuals := ⟨[⟨⟨"F", []⟩, .ref ⟨"x", []⟩, ""⟩], .cons rfl .nil (by simp)⟩
  pairing := ⟨[⟨⟨"F", []⟩, ⟨"x", []⟩⟩], .cons rfl .nil (by simp), .cons rfl .nil (by simp)⟩
  options := .empty
  status := .unsolved
  scratch := []

noncomputable def problem : Problem (Scratch Exact) Exact :=
  .ofFlat [var] ⟨[⟨"x", []⟩], [.ref ⟨"x", []⟩]⟩ .dense

theorem valid : model.Valid where
  paired k hk := Key.contains_of_mem hk
  residualsPaired k hk := Key.contains_of_mem hk
  known k hk := Key.contains_of_mem hk
  residualsKnown k hk := Key.contains_of_mem hk
  bounds v hv := by
    cases List.mem_singleton.1 hv
    exact decide_eq_false (Exact.not_infinity_lt 0)
  references f hf k hk := by
    cases List.mem_singleton.1 hf
    exact Key.contains_of_mem hk

theorem posed : model.posed = .ok problem := by
  rw [Model.posed, valid.validate_ok]
  rfl

theorem notCrossed : problem.hasCrossedBounds = .ok false := by
  change Except.ok (decide ((Scalar.infinity : Exact) < Exact.real 0) || false) = _
  rw [decide_eq_false (Exact.not_infinity_lt 0)]
  rfl

noncomputable def row : Row Exact := ⟨.real 0, kinkSlope, kinkSlope⟩

theorem equations_start (t : Trace (Scratch Exact) Exact) :
    Run.equations problem [.real 0] t = (.ok [row],
      ⟨t.surroundings.bind [⟨"x", []⟩] [.real 0], .valueCall :: t.events⟩) := by
  have h : fischerBurmeister (Exact.real 0 - .real 0) (.real 0) = row := by
    have h0 : (Exact.real √((0 : ℝ) ^ 2 + 0 ^ 2) == (0 : Exact)) = true := by
      change Exact.beq _ _ = true
      simp [Exact.beq]
    simp only [fischerBurmeister, Exact.sub_real, sub_zero, Exact.hypot_real, h0, row]
    simp
  rw [← h]
  rfl

theorem values_start {l : Limits Exact} (hl : ¬ l.time < Exact.real 0)
    (t : Trace (Scratch Exact) Exact) :
    TrustRegion.values problem l (.real 0) [.real 0] t = (.ok [.real 0],
      ⟨t.surroundings.bind [⟨"x", []⟩] [.real 0], .valueCall :: t.events⟩) := by
  rw [TrustRegion.values, if_neg hl]
  change (TrustRegion.lift (Run.equations problem [.real 0]) >>= _) t = _
  rw [bind_apply, TrustRegion.lift_apply, equations_start]
  rfl

theorem jacobian_start (t : Trace (Scratch Exact) Exact) :
    ∃ h t', TrustRegion.jacobian problem [.real 0] t = (.ok [[Exact.real h]], t') := by
  have hs (t : Trace (Scratch Exact) Exact) : Run.slopes problem [.real 0] [row] t =
      (.ok [[kinkSlope + kinkSlope * 1]],
        ⟨t.surroundings.bind [⟨"x", []⟩] [.real 0], .jacobianCall :: t.events⟩) := rfl
  rw [TrustRegion.jacobian, TrustRegion.lift_apply, bind_apply, equations_start]
  simp only
  rw [hs, kinkSlope_real, Exact.one_eq]
  exact ⟨_, _, rfl⟩

theorem maxAbs_zero : Vec.maxAbs [Exact.real 0] = .real 0 := by
  simp [Vec.maxAbs, Exact.maxNaN_real]

theorem met : Vec.maxAbs [Exact.real 0] ≤ Scalar.ofFloat 1e-8 := by
  rw [maxAbs_zero]
  exact Exact.real_le_of_lt
    (Exact.ofFloat_pos (m := 6044629098073145) (e := -79) (by decide +kernel))

def EndsAtStart (solver : Solver Exact) : Prop :=
  ∃ o t, solver.runFrom [] problem .empty = (.ok o, t) ∧ o.code = Termination.solved.code ∧
    o.x = .vector [.real 0]

theorem newton_ends (n : Newton Exact) (s : Newton.Setting Exact) :
    EndsAtStart (Solver.newton n s) :=
  Newton.run_of_met n s notCrossed (by decide) (equations_start ⟨[], []⟩) met

theorem trustRegion_ends :
    EndsAtStart (Solver.trustRegion LeastSquares.minimise (.real 0)) := by
  have ht : ¬ (Scalar.ofFloat Double.infinity : Exact) < .real 0 := by
    have h : Decimal.Binary.ofFloat Double.infinity = .infinite false := by decide +kernel
    rw [Exact.ofFloat_eq, h]
    exact Exact.not_infinity_lt 0
  let l : Limits Exact := ⟨Scalar.ofFloat 1e-8, 1000, Scalar.ofFloat Double.infinity, false⟩
  obtain ⟨h, t, hj⟩ := jacobian_start ⟨Scratch.bind [] [⟨"x", []⟩] [.real 0], [.valueCall]⟩
  have hg : LeastSquares.Place.gradient ⟨[Exact.real 0], [.real 0], [[.real h]]⟩ = [.real 0] := by
    simp [LeastSquares.Place.gradient, Mat.transposeApply, Vec.dot]
  have hflat : Vec.maxAbs (LeastSquares.Place.gradient ⟨[Exact.real 0], [.real 0], [[.real h]]⟩) <
      LeastSquares.tolerance := by
    rw [hg, maxAbs_zero]
    exact Exact.ofFloat_pos (m := 5070602400912917) (e := -102) (by decide +kernel)
  have hm := TrustRegion.minimise_of_flat (show (0 : Int) < l.iterations by decide) rfl
    (values_start (l := l) ht ⟨[], []⟩) rfl hj hflat
  have hsides : problem.box.sides = .ok [.lowerOnly] := rfl
  obtain ⟨o, hr, hc, hx⟩ := TrustRegion.run_of_fit hsides notCrossed (by decide) hm met
  exact ⟨o, t, hr, hc, hx⟩

theorem solve_ok {solver : Solver Exact} (hc : solver.classifier = .standard)
    (h : EndsAtStart solver) : ∃ s m', Model.solve solver .empty model = (.ok s, m') ∧
      s.outcome.isOptimal = true := by
  obtain ⟨o, t, hr, ho, hx⟩ := h
  have hp : Model.isProper o problem.size = true := by
    rw [Model.isProper, hx]
    rfl
  have hs := Model.isOptimal_classify hc ho hp
  exact ⟨_, _, Model.solve_of_ran posed hr hs, hs⟩

def IsSolved (solver : Solver Exact) : Prop :=
  ∃ s m', Model.solve solver .empty model = (.ok s, m') ∧ s.outcome.isOptimal = true ∧
    ∃ f v x r, m'.Solves (3 * Scalar.ofFloat 1e-8) ⟨⟨"F", []⟩, ⟨"x", []⟩⟩ f v x r

end AtBound

/-! ## Any optimal solve -/

/-- After an optimal solve every component is solved at the stored point, up to three times the
tolerance. -/
theorem solves_of_optimal {solver : Solver Exact} (trusted : solver.Trusted)
    {m m' : Model Exact} {given : Options} {s : Model.Solved Exact}
    (solved : Model.solve solver given m = (.ok s, m')) (optimal : s.outcome.isOptimal = true) :
    ∃ t xs scratch, (m.options.merge given).getFloat "convergence_tolerance" = .ok t ∧
      m' = m.found xs scratch ∧
      ∀ pair ∈ m.pairing.pairs, ∃ f v x r,
        m'.Solves (3 * Scalar.ofFloat (t.getD 1e-8)) pair f v x r := by
  have hend := Model.solve_ending solver given m
  rw [solved] at hend
  cases hend with
  | failed p s scratch posed kind =>
    rw [kind] at optimal
    cases optimal
  | solved p o trace posed ran kind proper =>
    rcases m.posed_cases with ⟨vars, flat, hv, hvars, hflat, hp⟩ | ⟨e, hp, -⟩
    swap
    · cases posed.symm.trans hp
    cases posed.symm.trans hp
    have hk := Flat.keys_of_ofPairs hflat
    have hlen : vars.length = flat.keys.length := by rw [hk]; exact length_of_mapM hvars
    have hx : Vec.isFinite o.x.data = true := (Bool.and_eq_true_iff.1 proper).2
    have hl : o.x.data.length = m.pairing.vars.length := by
      rw [Model.length_of_isProper posed proper, Pairing.length_vars]
    have ran : solver.solve (Problem.ofFlat vars flat .dense) (m.options.merge given)
        ⟨m.scratch, []⟩ = (.ok o, trace) := ran
    have hrun := trusted.ensures_solve (Problem.steady_ofFlat hlen .dense m.scratch)
      (m.options.merge given) ⟨m.scratch, []⟩ rfl
    rw [ran] at hrun
    obtain ⟨hs, ho⟩ := hrun
    obtain ⟨t, ht, hvouch⟩ := ho o rfl
    refine ⟨t, o.x.data, trace.surroundings, ht, rfl, fun pair hpair => ?_⟩
    rcases hvouch (trusted.code_of_optimal kind) hx with hz | hmeets
    · rw [Model.size_of_posed posed, Pairing.size, List.length_eq_zero_iff] at hz
      rw [hz] at hpair
      cases hpair
    · rw [Around, hk] at hs
      exact Model.solves_of_meets hv hvars hflat hx hl hs hmeets hpair

/-- Both solvers solve a variable against itself. -/
theorem solves_of_atBound :
    AtBound.IsSolved (.newton .standard ⟨Linear.solve, fun _ => .real 0, 60⟩) ∧
      AtBound.IsSolved (.trustRegion LeastSquares.minimise (.real 0)) := by
  have solved {solver : Solver Exact} (trusted : solver.Trusted)
      (h : AtBound.EndsAtStart solver) : AtBound.IsSolved solver := by
    have hc : solver.classifier = .standard := by cases trusted <;> rfl
    obtain ⟨s, m', hs, ho⟩ := AtBound.solve_ok hc h
    obtain ⟨t, xs, scratch, ht, -, hp⟩ := solves_of_optimal trusted hs ho
    cases ht
    exact ⟨s, m', hs, ho, hp _ List.mem_cons_self⟩
  exact ⟨solved (.newton _ _ Newton.isReal_standard) (AtBound.newton_ends _ _),
    solved (.trustRegion _ _ TrustRegion.faithful_minimise) AtBound.trustRegion_ends⟩

end Equilibria
