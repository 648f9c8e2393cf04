import Equilibria.Proofs.Callbacks
import Equilibria.Proofs.Validation

/-!
# What a solve does

A solve that is refused changes nothing. Every other one ends in a status that its outcome
decides, and only a success stores a point.
-/

namespace Equilibria.Model

open Calls Fallible

variable {α : Type}

/-! ## Before -/

theorem flat_ok {m : Model α}
    (h : ∀ k ∈ m.pairing.residuals, m.residuals.keys.contains k = true) :
    ∃ flat, Flat.ofPairs m.residuals m.pairing = .ok flat := by
  obtain ⟨items, hi⟩ := mapM_ok_of_forall (f := m.residuals.get) fun k hk =>
    let ⟨f, _, _, hf⟩ := m.residuals.get_of_contains (h k hk)
    ⟨f, hf⟩
  exact ⟨⟨m.pairing.vars, items.map (·.expr)⟩, by rw [Flat.ofPairs, hi]; rfl⟩

section

variable {m : Model α} {flat : Flat α} (hflat : Flat.ofPairs m.residuals m.pairing = .ok flat)

include hflat

theorem sizes_of_flat : flat.exprs.length = m.pairing.size ∧ flat.size = m.pairing.size := by
  obtain ⟨items, hi, he⟩ := bind_eq_ok.1 hflat
  cases he
  have hl := length_of_mapM hi
  rw [Pairing.residuals, List.length_map] at hl
  exact ⟨by rw [List.length_map, hl]; rfl, m.pairing.length_vars⟩

theorem exprs_of_pair {i : Nat} {p : Pair} (hp : m.pairing.pairs[i]? = some p) :
    ∃ f, m.residuals.get p.res = .ok f ∧ flat.exprs[i]? = some f.expr := by
  obtain ⟨items, hi, he⟩ := bind_eq_ok.1 hflat
  cases he
  have hk : m.pairing.residuals[i]? = some p.res := by
    rw [Pairing.residuals, List.getElem?_map, hp]
    rfl
  obtain ⟨f, hf, hget⟩ := getElem?_of_mapM hi hk
  exact ⟨f, hget, by rw [List.getElem?_map, hf]; rfl⟩

theorem exprs_iff {i : Nat} {e : Expr α} : flat.exprs[i]? = some e ↔
    ∃ p f, m.pairing.pairs[i]? = some p ∧ m.residuals.get p.res = .ok f ∧ f.expr = e := by
  constructor
  · intro he
    obtain ⟨hlt, -⟩ := List.getElem?_eq_some_iff.1 he
    rw [(sizes_of_flat hflat).1] at hlt
    have hp : m.pairing.pairs[i]? = some m.pairing.pairs[i] := List.getElem?_eq_getElem hlt
    obtain ⟨f, hget, he'⟩ := exprs_of_pair hflat hp
    exact ⟨_, f, hp, hget, Option.some.inj (he'.symm.trans he)⟩
  · rintro ⟨p, f, hp, hget, rfl⟩
    obtain ⟨f', hget', he⟩ := exprs_of_pair hflat hp
    cases hget.symm.trans hget'
    exact he

theorem mem_of_flat (h : ∀ k ∈ m.pairing.residuals, m.residuals.keys.contains k = true)
    {e : Expr α} (he : e ∈ flat.exprs) : ∃ f ∈ m.residuals.items, f.expr = e := by
  obtain ⟨i, hi⟩ := List.getElem?_of_mem he
  obtain ⟨p, f, hp, hget, rfl⟩ := (exprs_iff hflat).1 hi
  have hmem : p.res ∈ m.pairing.residuals := List.mem_map_of_mem (List.mem_of_getElem? hp)
  obtain ⟨f', hf', -, hget'⟩ := m.residuals.get_of_contains (h p.res hmem)
  cases hget.symm.trans hget'
  exact ⟨f, hf', rfl⟩

theorem keys_iff {j : Nat} {k : Key} :
    flat.keys[j]? = some k ↔ ∃ q, m.pairing.pairs[j]? = some q ∧ q.var = k := by
  rw [Flat.keys_of_ofPairs hflat, Pairing.vars, List.getElem?_map, Option.map_eq_some_iff]

end

theorem var_of_pair {t : Pairing} {i : Nat} {p : Pair} (h : t.pairs[i]? = some p) :
    t.vars[i]? = some p.var := by
  rw [Pairing.vars, List.getElem?_map, h]
  rfl

theorem place_of_pair {m : Model α} {vars : List (Variable α)} {flat : Flat α}
    (hvars : Problem.paired m.registry m.pairing = .ok vars)
    (hflat : Flat.ofPairs m.residuals m.pairing = .ok flat) {i : Nat} {pair : Pair}
    (hi : m.pairing.pairs[i]? = some pair) :
    flat.keys[i]? = some pair.var ∧
      (∃ v, m.registry.get pair.var = .ok v ∧ vars[i]? = some v) ∧
      ∃ f, m.residuals.get pair.res = .ok f ∧ flat.exprs[i]? = some f.expr := by
  obtain ⟨v, hvi, hg⟩ := getElem?_of_mapM hvars (var_of_pair hi)
  exact ⟨(keys_iff hflat).2 ⟨pair, hi, rfl⟩, ⟨v, hg, hvi⟩, exprs_of_pair hflat hi⟩

variable [Scalar α]

theorem Valid.reads {m : Model α} (h : m.Valid) {f : Residual α} (hf : f ∈ m.residuals.items) :
    ∀ k ∈ f.expr.reads, m.pairing.vars.contains k = true := by
  intro k hk
  have hv : f.expr.vars.contains k = true := by
    rw [Expr.vars, Expr.contains_distinct]
    exact Key.contains_of_mem hk
  obtain ⟨a, ha, hak⟩ := Key.contains_iff.1 hv
  obtain ⟨b, hb, hba⟩ := Key.contains_iff.1 (h.references f hf a ha)
  exact Key.contains_of_contains (h.paired b hb) (Key.beq_trans hba hak)

theorem Valid.paired_ok {m : Model α} (h : m.Valid) :
    ∃ vars, Problem.paired m.registry m.pairing = .ok vars :=
  mapM_ok_of_forall fun k hk =>
    let ⟨e, _, _, he⟩ := m.registry.get_of_contains (h.known k hk)
    ⟨e.2, he⟩

theorem Valid.flat_ok {m : Model α} (h : m.Valid) :
    ∃ flat, Flat.ofPairs m.residuals m.pairing = .ok flat := Model.flat_ok h.residualsKnown

theorem Valid.posed_ok {m : Model α} (h : m.Valid) :
    ∃ vars flat, Problem.paired m.registry m.pairing = .ok vars ∧
      Flat.ofPairs m.residuals m.pairing = .ok flat ∧
      m.posed = .ok (Problem.ofFlat vars flat .dense) := by
  obtain ⟨vars, hvars⟩ := h.paired_ok
  obtain ⟨flat, hflat⟩ := h.flat_ok
  refine ⟨vars, flat, hvars, hflat, ?_⟩
  rw [posed, h.validate_ok, problem, Problem.ofPairs, hvars, hflat]
  rfl

theorem Valid.posed_eq {m : Model α} (h : m.Valid) : m.posed = m.problem "dense" := by
  rw [posed, h.validate_ok]
  rfl

theorem Refusal.posed_error {m : Model α} {e : Error} (h : m.Refusal e) : m.posed = .error e := by
  rw [posed, h.validate_error]
  rfl

theorem posed_error_iff {m : Model α} {e : Error} : m.posed = .error e ↔ m.Refusal e := by
  constructor
  · intro h
    rcases m.valid_or_refusal with hv | ⟨e', he'⟩
    · obtain ⟨_, _, -, -, hp⟩ := hv.posed_ok
      cases h.symm.trans hp
    · cases h.symm.trans he'.posed_error
      exact he'
  · exact Refusal.posed_error

theorem posed_cases (m : Model α) :
    (∃ vars flat, m.Valid ∧ Problem.paired m.registry m.pairing = .ok vars ∧
      Flat.ofPairs m.residuals m.pairing = .ok flat ∧
      m.posed = .ok (Problem.ofFlat vars flat .dense)) ∨
    ∃ e, m.posed = .error e ∧ e.family? = some .configuration := by
  rcases m.valid_or_refusal with hv | ⟨e, he⟩
  · obtain ⟨vars, flat, hvars, hflat, hp⟩ := hv.posed_ok
    exact .inl ⟨vars, flat, hv, hvars, hflat, hp⟩
  · exact .inr ⟨e, he.posed_error, he.family⟩

theorem size_of_posed {m : Model α} {p : Problem (Scratch α) α} (h : m.posed = .ok p) :
    p.size = m.pairing.size := by
  rcases m.posed_cases with ⟨vars, flat, -, hvars, -, hp⟩ | ⟨e, hp, -⟩
  · cases h.symm.trans hp
    have hl : vars.length = m.pairing.vars.length := length_of_mapM hvars
    simpa [Problem.size, Problem.ofFlat, Pairing.size, Pairing.vars] using hl
  · cases h.symm.trans hp

theorem valid_of_posed {m : Model α} {p : Problem (Scratch α) α} (h : m.posed = .ok p) :
    m.Valid := by
  rcases m.posed_cases with ⟨_, _, hv, -⟩ | ⟨e, hp, -⟩
  · exact hv
  · cases h.symm.trans hp

/-! ## After -/

omit [Scalar α] in
theorem unflatten_eq {m : Model α} (h : ∀ k ∈ m.pairing.vars, m.registry.keys.contains k = true)
    {xs : List α} (hx : xs.length = m.pairing.size) :
    unflatten xs m = (.ok (), { m with registry := m.registry.settled (m.pairing.vars.zip xs) }) := by
  have hl : m.pairing.vars.length = xs.length := by rw [hx, Pairing.length_vars]
  have hs := m.registry.store_eq (m.pairing.vars.zip xs)
    (by rw [List.map_fst_zip (Nat.le_of_eq hl)]; exact m.pairing.proper_vars)
    (fun x hm => h x.1 (List.of_mem_zip hm).1)
  have hn : (xs.length != m.pairing.size) = false := by simp [hx]
  rw [unflatten, bind_apply, get_apply]
  simp only [hn, hs]
  rfl

/-- The model with a point stored that a solver has found. -/
def found (m : Model α) (xs : List α) (scratch : Scratch α) : Model α :=
  { m with
    registry := m.registry.settled (m.pairing.vars.zip xs)
    status := .solved
    scratch := scratch }

/-- The ways in which a solve can end, with the model that each of them leaves. -/
inductive Ending (solver : Solver α) (options : Options) (m : Model α) :
    Except Error (Solved α) × Model α → Prop where
  | refused (e : Error) (posed : m.posed = .error e) (family : e.family? = some .configuration) :
    Ending solver options m (.error e, m)
  | failed (p : Problem (Scratch α) α) (s : Solved α) (scratch : Scratch α)
    (posed : m.posed = .ok p) (kind : s.outcome.isOptimal = false) :
    Ending solver options m (.ok s, { m with scratch := scratch, status := .failed })
  | solved (p : Problem (Scratch α) α) (o : Output α) (trace : Trace (Scratch α) α)
    (posed : m.posed = .ok p) (ran : solver.runFrom m.scratch p options = (.ok o, trace))
    (kind : (classify solver o p.size).isOptimal = true) (proper : isProper o p.size = true) :
    Ending solver options m (.ok ⟨classify solver o p.size, trace.events⟩,
      m.found o.x.data trace.surroundings)

theorem proper_of_optimal {solver : Solver α} {o : Output α} {n : Nat}
    (h : (classify solver o n).isOptimal = true) : isProper o n = true := by
  cases hp : isProper o n with
  | true => rfl
  | false =>
    simp only [classify, hp, Bool.not_false, Bool.and_true] at h
    split at h
    · cases h
    · rename_i hn
      exact absurd h hn

section

variable (m : Model α) (xs : List α) (scratch : Scratch α)

omit [Scalar α] in
@[simp] theorem pairing_found : (m.found xs scratch).pairing = m.pairing := rfl

omit [Scalar α] in
@[simp] theorem keys_found : (m.found xs scratch).registry.keys = m.registry.keys :=
  Registry.keys_settled ..

end

theorem length_of_isProper {m : Model α} {p : Problem (Scratch α) α} {o : Output α}
    (hp : m.posed = .ok p) (hx : isProper o p.size = true) : o.x.data.length = m.pairing.size := by
  rw [← size_of_posed hp]
  exact Grid.length_of_shape (eq_of_beq (Bool.and_eq_true_iff.1 hx).1)

theorem conclude_failed {solver : Solver α} {n : Nat} {o : Output α}
    (h : (classify solver o n).isOptimal = false) (trace : Trace (Scratch α) α) (m : Model α) :
    conclude solver n (.ok o) trace m = (.ok ⟨classify solver o n, trace.events⟩,
      { m with scratch := trace.surroundings, status := .failed }) := by
  simp only [conclude, h]
  rfl

theorem conclude_solved {solver : Solver α} {p : Problem (Scratch α) α} {o : Output α}
    {m : Model α} (hp : m.posed = .ok p) (h : (classify solver o p.size).isOptimal = true)
    (trace : Trace (Scratch α) α) :
    conclude solver p.size (.ok o) trace m = (.ok ⟨classify solver o p.size, trace.events⟩,
      m.found o.x.data trace.surroundings) := by
  have hu := unflatten_eq (m := { m with scratch := trace.surroundings })
    (valid_of_posed hp).known (length_of_isProper hp (proper_of_optimal h))
  simp only [conclude, h, if_true]
  rw [bind_apply, modify_apply]
  simp only
  rw [bind_apply, hu]
  rfl

theorem code_of_optimal {code : Int} (h : Classifier.standard.classify (some code) = .optimal) :
    code = Termination.solved.code := by
  by_contra hn
  have hs : (Termination.solved.code == code) = false := by simpa using fun he => hn he.symm
  simp only [Classifier.classify, Classifier.standard, List.find?_cons, hs] at h
  repeat' split at h
  all_goals cases h

theorem code_of_classify {solver : Solver α} {o : Output α} {n : Nat}
    (hc : solver.classifier = .standard) (h : (classify solver o n).isOptimal = true) :
    o.code = Termination.solved.code := by
  refine code_of_optimal ?_
  rw [← hc]
  unfold classify Outcome.isOptimal at h
  simp only at h
  split at h
  · cases h
  · exact eq_of_beq h

theorem isOptimal_classify {solver : Solver α} {o : Output α} {n : Nat}
    (hc : solver.classifier = .standard) (ho : o.code = Termination.solved.code)
    (hx : isProper o n = true) : (classify solver o n).isOptimal = true := by
  simp only [classify, hc, ho, hx]
  rfl

theorem dispatch_eq {solver : Solver α} {options : Options} {m : Model α}
    {p : Problem (Scratch α) α} (hp : m.posed = .ok p) :
    dispatch solver options m = conclude solver p.size (solver.runFrom m.scratch p options).1
      (solver.runFrom m.scratch p options).2 m := by
  rw [dispatch, bind_apply, get_apply]
  simp only
  rw [bind_apply, lift_apply, hp]

theorem solve_eq (solver : Solver α) (given : Options) (m : Model α) :
    solve solver given m = dispatch solver (m.options.merge given) m := rfl

theorem solve_of_ran {solver : Solver α} {given : Options} {m : Model α}
    {p : Problem (Scratch α) α} {o : Output α} {trace : Trace (Scratch α) α}
    (hp : m.posed = .ok p)
    (hr : solver.runFrom m.scratch p (m.options.merge given) = (.ok o, trace))
    (ho : (classify solver o p.size).isOptimal = true) :
    solve solver given m = (.ok ⟨classify solver o p.size, trace.events⟩,
      m.found o.x.data trace.surroundings) := by
  rw [solve_eq, dispatch_eq hp, hr]
  exact conclude_solved hp ho trace

theorem dispatch_error (solver : Solver α) (options : Options) {m : Model α} {e : Error}
    (h : m.posed = .error e) : dispatch solver options m = (.error e, m) := by
  rw [dispatch, bind_apply, get_apply]
  simp only
  rw [bind_apply, lift_apply, h]

theorem dispatch_ending (solver : Solver α) (options : Options) (m : Model α) :
    Ending solver options m (dispatch solver options m) := by
  cases hp : m.posed with
  | error e =>
    rcases m.posed_cases with ⟨_, _, -, -, -, h⟩ | ⟨e', h, he⟩
    · cases hp.symm.trans h
    · cases hp.symm.trans h
      rw [dispatch_error solver options hp]
      exact .refused e hp he
  | ok p =>
    rw [dispatch_eq hp]
    rcases hr : solver.runFrom m.scratch p options with ⟨e | o, trace⟩
    · exact .failed p _ _ hp rfl
    · cases hk : (classify solver o p.size).isOptimal with
      | false =>
        rw [conclude_failed hk]
        exact .failed p _ _ hp hk
      | true =>
        rw [conclude_solved hp hk]
        exact .solved p o trace hp hr hk (proper_of_optimal hk)

theorem solve_ending (solver : Solver α) (given : Options) (m : Model α) :
    Ending solver (m.options.merge given) m (solve solver given m) :=
  dispatch_ending solver (m.options.merge given) m

/-! ## Refusals -/

theorem Valid.sizes {m : Model α} (h : m.Valid) :
    m.registry.size = m.pairing.size ∧ m.residuals.size = m.pairing.size := by
  have hvars := m.registry.proper_keys.length_eq m.pairing.proper_vars h.paired h.known
  have hresiduals := m.residuals.proper_keys.length_eq m.pairing.proper_residuals h.residualsPaired
    h.residualsKnown
  rw [Registry.keys, List.length_map, Pairing.length_vars] at hvars
  rw [Residuals.keys, List.length_map, Pairing.residuals, List.length_map] at hresiduals
  exact ⟨hvars, hresiduals⟩

/-- A solve fails just for the reasons to refuse a model, and leaves no trace. Otherwise the solver
runs once, on a problem of the right size. -/
theorem dispatch_exact (m : Model α) :
    (∀ (solver : Solver α) (options : Options) (e : Error),
      (dispatch solver options m).1 = .error e ↔ m.Refusal e) ∧
    (∀ e, m.Refusal e → ∀ (solver : Solver α) (options : Options),
      dispatch solver options m = (.error e, m)) ∧
    ((∀ e, ¬ m.Refusal e) →
      m.registry.size = m.pairing.size ∧ m.residuals.size = m.pairing.size ∧
      ∃ p, m.problem "dense" = .ok p ∧ p.size = m.pairing.size ∧
        ∀ (solver : Solver α) (options : Options), dispatch solver options m =
          conclude solver p.size (solver.runFrom m.scratch p options).1
            (solver.runFrom m.scratch p options).2 m) := by
  have hrefused : ∀ e, m.Refusal e → ∀ (solver : Solver α) (options : Options),
      dispatch solver options m = (.error e, m) :=
    fun e h solver options => dispatch_error solver options h.posed_error
  refine ⟨fun solver options e => ?_, hrefused, fun hnone => ?_⟩
  · constructor
    · intro h
      have hending := dispatch_ending solver options m
      generalize dispatch solver options m = result at h hending
      cases hending with
      | refused e' hp _ =>
        cases h
        exact posed_error_iff.1 hp
      | failed => cases h
      | solved => cases h
    · intro h
      rw [hrefused e h solver options]
  · have hv : m.Valid := m.valid_or_refusal.resolve_right fun ⟨e, h⟩ => hnone e h
    obtain ⟨_, _, -, -, hp⟩ := hv.posed_ok
    obtain ⟨hvars, hresiduals⟩ := hv.sizes
    exact ⟨hvars, hresiduals, _, hv.posed_eq.symm.trans hp, size_of_posed hp,
      fun _ _ => dispatch_eq hp⟩

end Equilibria.Model
