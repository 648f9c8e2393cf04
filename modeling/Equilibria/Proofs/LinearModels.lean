import Equilibria.Model.Linear
import Equilibria.Proofs.Elementwise
import Equilibria.Proofs.Sums
import Equilibria.Proofs.Weights

/-!
# Linear models

The model of a matrix `M` and a vector `q` has the function `M x + q` and the Jacobian `M` at every
point, though its rows leave out the terms whose coefficients are zero.
-/

namespace Equilibria

open Calls Fallible Model

/-! ## Rows -/

def Binding.Binds {n : ℕ} (b : Binding Exact) (x : Fin n → ℝ) : Prop :=
  ∀ j : Fin n, b (rowKey "x" j) = .ok (.real (x j))

theorem rowKey_beq {name : String} {i j : Nat} :
    (rowKey name i == rowKey name j) = decide (i = j) := by
  by_cases h : i = j
  · rw [h, decide_eq_true rfl]
    exact BEq.rfl
  · rw [rowKey_ne h, decide_eq_false h]

namespace Expr

variable {n : ℕ}

/-- The function `v x + c` without the terms in which `v` is zero. -/
noncomputable def row (v : Fin n → ℝ) (c : ℝ) : Expr Exact :=
  .binary .add (.sum (rowTerms (Exact.vector v))) (.const (.real c))

theorem rowTerms_vector (v : Fin n → ℝ) : rowTerms (Exact.vector v) =
    ((List.finRange n).filter fun j => !decide (v j = 0)).map fun j =>
      multiple (v j) (rowKey "x" j) := by
  have hindexed : (Exact.vector v).zipIdx = (List.finRange n).map fun j => (.real (v j), j.1) := by
    refine List.ext_getElem (by simp) fun i hi hi' => ?_
    simp [Exact.vector]
  rw [rowTerms, hindexed, List.filter_map, List.map_map]
  congr 2
  funext j
  change (!(Exact.real (v j) == 0)) = _
  rw [Exact.zero_eq, Exact.beq_real]

theorem sums_rowTerms (v : Fin n → ℝ) :
    (sum (rowTerms (Exact.vector v))).Sums (rowTerms (Exact.vector v)) := by
  refine sums_sum fun t ht => ?_
  rw [rowTerms_vector] at ht
  obtain ⟨j, -, rfl⟩ := List.mem_map.1 ht
  rfl

theorem total_rowTerms (v : Fin n → ℝ) {f : Expr Exact → Except Error Exact} {g : Fin n → ℝ}
    (hf : ∀ j, f (multiple (v j) (rowKey "x" j)) = .ok (.real (g j)))
    (hg : ∀ j, v j = 0 → g j = 0) :
    Exact.total ((rowTerms (Exact.vector v)).map f) = .ok (.real (∑ j, g j)) := by
  rw [rowTerms_vector, List.map_map, Fin.sum_univ_def]
  exact Exact.total_filter (fun j _ => hf j) fun j _ hj => hg j (by simpa using hj)

variable {b : Binding Exact} {x : Fin n → ℝ}

theorem evaluate_row (v : Fin n → ℝ) (c : ℝ) (hb : b.Binds x) :
    (row v c).evaluate b = .ok (.real (v ⬝ᵥ x + c)) := by
  have hsum : (sum (rowTerms (Exact.vector v))).evaluate b = .ok (.real (v ⬝ᵥ x)) := by
    rw [(sums_rowTerms v).value]
    refine total_rowTerms v (fun j => evaluate_multiple (v j) (hb j)) fun j hj => ?_
    rw [hj, zero_mul]
  rw [row, evaluate, hsum]
  rfl

theorem derivative_row (v : Fin n → ℝ) (c : ℝ) (hb : b.Binds x) (j : Fin n) :
    (row v c).derivative (rowKey "x" j) b = .ok (.real (v j)) := by
  have hsum :
      (sum (rowTerms (Exact.vector v))).derivative (rowKey "x" j) b = .ok (.real (v j)) := by
    rw [(sums_rowTerms v).slope, total_rowTerms v
      (fun k => derivative_multiple (v k) (hb k) (rowKey "x" j)) fun k hk => by rw [hk, ite_self]]
    simp [rowKey_beq, Fin.val_inj]
  have hconst : (const (.real c) : Expr Exact).derivative (rowKey "x" j) b = .ok 0 :=
    derivative_of_not_mentions rfl rfl
  rw [row, derivative_add rfl rfl, hsum, hconst]
  exact congrArg Except.ok (Exact.add_zero_eq _)

theorem mentions_row (v : Fin n → ℝ) (c : ℝ) (j : Fin n) :
    (row v c).mentions (rowKey "x" j) = true ↔ v j ≠ 0 := by
  have hconst : (const (.real c) : Expr Exact).mentions (rowKey "x" j) = false := rfl
  rw [row, mentions_binary, hconst, Bool.or_false, mentions_sum, rowTerms_vector, List.any_map,
    List.any_filter, List.any_eq_true]
  constructor
  · rintro ⟨k, -, hk⟩
    rw [Function.comp_apply, mentions_multiple, rowKey_beq, Bool.and_eq_true,
      decide_eq_true_eq] at hk
    rw [← Fin.val_inj.1 hk.2]
    simpa using hk.1
  · intro hj
    refine ⟨j, List.mem_finRange j, ?_⟩
    rw [Function.comp_apply, mentions_multiple, rowKey_beq, decide_eq_true rfl, Bool.and_true]
    simpa using hj

end Expr

/-! ## Flat rows -/

namespace Flat

variable {n : ℕ}

noncomputable def ofMatrix (M : Matrix (Fin n) (Fin n) ℝ) (q : Fin n → ℝ) : Flat Exact where
  keys := (List.range n).map (rowKey "x")
  exprs := List.ofFn fun i => .row (M i) (q i)

variable (M : Matrix (Fin n) (Fin n) ℝ) (q : Fin n → ℝ)

@[simp]
theorem size_ofMatrix : (ofMatrix M q).size = n := by simp [ofMatrix, size]

@[simp]
theorem length_exprs_ofMatrix : (ofMatrix M q).exprs.length = n := List.length_ofFn

theorem exprs_ofMatrix {i : Nat} {e : Expr Exact} :
    (ofMatrix M q).exprs[i]? = some e ↔ ∃ a : Fin n, a.1 = i ∧ .row (M a) (q a) = e := by
  rw [ofMatrix, List.getElem?_ofFn]
  constructor
  · intro h
    split at h
    · rename_i hi
      cases h
      exact ⟨⟨i, hi⟩, rfl, rfl⟩
    · cases h
  · rintro ⟨a, rfl, rfl⟩
    exact dif_pos a.2

theorem keys_ofMatrix {j : Nat} {k : Key} :
    (ofMatrix M q).keys[j]? = some k ↔ ∃ a : Fin n, a.1 = j ∧ rowKey "x" a = k := by
  rw [ofMatrix, List.getElem?_map, Option.map_eq_some_iff]
  constructor
  · rintro ⟨j', hj, rfl⟩
    obtain ⟨hlt, rfl⟩ := List.getElem?_eq_some_iff.1 hj
    rw [List.length_range] at hlt
    exact ⟨⟨j, hlt⟩, rfl, by rw [List.getElem_range]⟩
  · rintro ⟨a, rfl, rfl⟩
    exact ⟨a, List.getElem?_range a.2, rfl⟩

theorem mem_places_ofMatrix {place : Nat × Nat} :
    place ∈ (ofMatrix M q).places ↔ ∃ i j : Fin n, place = (i.1, j.1) ∧ M i j ≠ 0 := by
  obtain ⟨i, j⟩ := place
  rw [mem_places]
  simp only [exprs_ofMatrix, keys_ofMatrix]
  constructor
  · rintro ⟨_, _, ⟨a, rfl, rfl⟩, ⟨b, rfl, rfl⟩, hment⟩
    exact ⟨a, b, rfl, (Expr.mentions_row _ _ _).1 hment⟩
  · rintro ⟨a, b, hab, hne⟩
    cases hab
    exact ⟨_, _, ⟨a, rfl, rfl⟩, ⟨b, rfl, rfl⟩, (Expr.mentions_row _ _ _).2 hne⟩

theorem binds_vector (s : Scratch Exact) (x : Fin n → ℝ) :
    (Binding.ofList (s.bind (ofMatrix M q).keys (Exact.vector x))).Binds x := by
  intro j
  have hproper : Key.Proper (((ofMatrix M q).keys.zip (Exact.vector x)).map (·.1)) := by
    rw [List.map_fst_zip (by simp [ofMatrix])]
    exact proper_rowKeys "x" n
  have hpair : (rowKey "x" j, Exact.real (x j)) ∈ (ofMatrix M q).keys.zip (Exact.vector x) := by
    refine List.mem_of_getElem? (i := j) (List.getElem?_zip_eq_some.2 ⟨?_, ?_⟩)
    · exact (keys_ofMatrix M q).2 ⟨j, rfl, rfl⟩
    · simp [Exact.vector]
  refine Binding.ofList_eq (e := (rowKey "x" j, Exact.real (x j))) rfl ?_
  rw [Scratch.bind_eq, List.find?_append, hproper.find?_eq hpair BEq.rfl]
  rfl

theorem value_ofMatrix (x : Fin n → ℝ) (s : Scratch Exact) :
    ((ofMatrix M q).value (.vector (Exact.vector x)) s).1 =
      .ok (Exact.vector (M.mulVec x + q)) := by
  rw [value_apply, if_pos (by simp [Grid.vector])]
  have hrow : ∀ i : Fin n, (Expr.row (M i) (q i)).evaluate _ = _ := fun i =>
    Expr.evaluate_row (M i) (q i) (binds_vector M q s x)
  change (List.ofFn fun i => Expr.row (M i) (q i)).mapM _ = _
  rw [List.ofFn_eq_map, List.mapM_map]
  refine (mapM_eq_map fun i _ => hrow i).trans ?_
  rw [Exact.vector, List.ofFn_eq_map]
  rfl

theorem cell_matrix (i j : Fin n) : cell (Exact.matrix M) i j = some (.real (M i j)) := by
  simp [cell, Exact.matrix, Exact.vector]

theorem square_matrix : Square n (Exact.matrix M) := by
  refine ⟨Exact.length_matrix M, fun row h => ?_⟩
  obtain ⟨i, rfl⟩ := (List.mem_ofFn' _ _).1 h
  exact Exact.length_vector _

theorem Holds.eq_matrix {b : Binding Exact} {x : Fin n → ℝ} (hb : b.Binds x)
    {rows : List (List Exact)} (hs : Square n rows) (h : (ofMatrix M q).Holds b rows) :
    rows = Exact.matrix M := by
  refine hs.ext (square_matrix M) fun i j hi hj => ?_
  obtain ⟨d, hd, hcell⟩ := h ((exprs_ofMatrix M q).2 ⟨⟨i, hi⟩, rfl, rfl⟩)
    ((keys_ofMatrix M q).2 ⟨⟨j, hj⟩, rfl, rfl⟩)
  rw [hd, cell_matrix M ⟨i, hi⟩ ⟨j, hj⟩]
  split at hcell
  · cases (Expr.derivative_row _ _ hb ⟨j, hj⟩).symm.trans hcell
    rfl
  · rename_i hment
    have hzero : M ⟨i, hi⟩ ⟨j, hj⟩ = 0 :=
      not_not.1 fun hne => hment ((Expr.mentions_row _ _ _).2 hne)
    rw [hcell, hzero, Exact.zero_eq]

theorem jacobian_ofMatrix (format : MatrixFormat) (x : Fin n → ℝ) (s : Scratch Exact) :
    ∃ j, ((ofMatrix M q).jacobian format (.vector (Exact.vector x)) s).1 = .ok j ∧
      j.toRows = Exact.matrix M := by
  have hbinds := binds_vector M q s x
  have hagree := formatsAgree (f := ofMatrix M q) (by simp) Exact.sameness_eq
    (.vector (Exact.vector x)) s
  obtain ⟨rows, items, hdense, hentries, hsums, -, hsquare, hholds⟩ :=
    hagree.filled (by simp [Grid.vector]) fun he hk _ => by
      obtain ⟨a, rfl, rfl⟩ := (exprs_ofMatrix M q).1 he
      obtain ⟨b, rfl, rfl⟩ := (keys_ofMatrix M q).1 hk
      exact ⟨_, Expr.derivative_row _ _ hbinds b⟩
  have hrows := same_of_summed Exact.sameness_eq hsums
  rw [List.forall₂_eq_eq_eq, List.forall₂_eq_eq_eq] at hrows
  have hmatrix : rows = Exact.matrix M :=
    hholds.eq_matrix M q hbinds (by rwa [size_ofMatrix] at hsquare)
  cases format with
  | dense => exact ⟨_, hdense, hmatrix⟩
  | entries => exact ⟨_, hentries, hrows.trans hmatrix⟩

end Flat

/-! ## The model of rows -/

namespace Model

section

variable {α : Type} [Scalar α] {n : Nat}

def rowVariables (lower upper : List α) : List (Variable α) :=
  (lower.zip upper).zipIdx.map fun ((l, u), i) => rowVariable i l u

def rowResiduals (rows : List (List α)) (q : List α) : List (Residual α) :=
  (rows.zip q).zipIdx.map fun ((row, q), i) => rowResidual i row q

theorem map_rowKey_zipIdx {β : Type} (name : String) {xs : List β} (h : xs.length = n) :
    (xs.zipIdx.map fun e => rowKey name e.2) = (List.range n).map (rowKey name) := by
  rw [← h, List.range_eq_range', ← List.zipIdx_map_snd, List.map_map]
  rfl

theorem keys_rowVariables {lower upper : List α} (hl : lower.length = n) (hu : upper.length = n) :
    (rowVariables lower upper).map (·.key) = (List.range n).map (rowKey "x") := by
  rw [rowVariables, List.map_map]
  exact map_rowKey_zipIdx "x" (by simp [hl, hu])

theorem keys_rowResiduals {rows : List (List α)} {q : List α} (hr : rows.length = n)
    (hq : q.length = n) :
    (rowResiduals rows q).map (·.key) = (List.range n).map (rowKey "F") := by
  rw [rowResiduals, List.map_map]
  exact map_rowKey_zipIdx "F" (by simp [hr, hq])

/-- What the rows, the vector and the bounds of a linear model leave in it. -/
structure HasRows (m : Model α) (n : Nat) (rows : List (List α)) (q lower upper : List α) :
    Prop where
  entries : m.registry.entries = (rowVariables lower upper).map fun v => (v.key, v)
  items : m.residuals.items = rowResiduals rows q
  pairs : m.pairing.pairs = (List.range n).map fun i => ⟨rowKey "F" i, rowKey "x" i⟩

theorem hasRows_ofRows (name : String) {rows : List (List α)} {q lower upper : List α}
    (hr : rows.length = n) (hq : q.length = n) (hl : lower.length = n) (hu : upper.length = n) :
    (ofRows name rows q lower upper).HasRows n rows q lower upper := by
  refine ⟨?_, rfl, ?_⟩
  · rw [rowVariables, List.map_map]
    rfl
  · have hcount : min (lower.zip upper).length (rows.zip q).length = n := by simp [hr, hq, hl, hu]
    exact congrArg (fun k => (List.range k).map fun i => Pair.mk (rowKey "F" i) (rowKey "x" i))
      hcount

end

end Model

/-! ## Linear models -/

section

variable {n : ℕ} (M : Matrix (Fin n) (Fin n) ℝ) (q : Fin n → ℝ) (lower upper : List Exact)

/-- A problem with the function `M x + q` and the Jacobian `M`. -/
structure Problem.Linear (p : Problem (Scratch Exact) Exact) : Prop where
  vars : p.vars = (List.range n).map (rowKey "x")
  lower : p.lower = lower
  upper : p.upper = upper
  value : ∀ (x : Fin n → ℝ) s,
    (p.value (Exact.vector x) s).1 = .ok (.vector (Exact.vector (M.mulVec x + q)))
  jacobian : ∀ (x : Fin n → ℝ) s,
    ∃ j, (p.jacobian (Exact.vector x) s).1 = .ok j ∧ j.toRows = Exact.matrix M

/-- An unsolved model that poses the linear problem in either format, with the pattern of `M`. -/
structure Model.Linear (m : Model Exact) : Prop where
  status : m.status = .unsolved
  vars : m.registry.keys = (List.range n).map (rowKey "x")
  residuals : m.residuals.keys = (List.range n).map (rowKey "F")
  pairs : m.pairing.pairs = (List.range n).map fun i => ⟨rowKey "F" i, rowKey "x" i⟩
  problem : ∀ format ∈ ["dense", "csr"], ∃ p, m.problem format = .ok p ∧ p.Linear M q lower upper
  places : ∃ places, m.places = .ok places ∧ places.Nodup ∧
    ∀ place, place ∈ places ↔ ∃ i j : Fin n, place = (i.1, j.1) ∧ M i j ≠ 0

variable {M q lower upper}

theorem exprs_rowResiduals (M : Matrix (Fin n) (Fin n) ℝ) (q : Fin n → ℝ) :
    (rowResiduals (Exact.matrix M) (Exact.vector q)).map (·.expr) = (Flat.ofMatrix M q).exprs := by
  refine List.ext_getElem (by simp [rowResiduals, Flat.ofMatrix]) fun i hi hi' => ?_
  simp [rowResiduals, Flat.ofMatrix, Exact.matrix, Exact.vector, rowResidual, Expr.row]

theorem bounds_rowVariables {α : Type} [Scalar α] {lower upper : List α}
    (h : lower.length = upper.length) : (rowVariables lower upper).map (·.lower) = lower ∧
      (rowVariables lower upper).map (·.upper) = upper := by
  constructor
  · refine List.ext_getElem (by simp [rowVariables, h]) fun i hi hi' => ?_
    simp [rowVariables, rowVariable]
  · refine List.ext_getElem (by simp [rowVariables, h]) fun i hi hi' => ?_
    simp [rowVariables, rowVariable]

theorem Problem.linear_ofFlat {vars : List (Variable Exact)}
    (hk : vars.map (·.key) = (List.range n).map (rowKey "x")) (hl : vars.map (·.lower) = lower)
    (hu : vars.map (·.upper) = upper) (format : MatrixFormat) :
    (Problem.ofFlat vars (.ofMatrix M q) format).Linear M q lower upper := by
  refine ⟨hk, hl, hu, fun x s => ?_, fun x s => ?_⟩
  · rw [value_apply, Flat.value_ofMatrix]
    rfl
  · exact Flat.jacobian_ofMatrix M q format x s

theorem Model.linear_of_hasRows {m : Model Exact} (hs : m.status = .unsolved)
    (h : m.HasRows n (Exact.matrix M) (Exact.vector q) lower upper) (hl : lower.length = n)
    (hu : upper.length = n) : m.Linear M q lower upper := by
  have hvars : m.registry.vars = rowVariables lower upper := by
    rw [Registry.vars, h.entries, List.map_map]
    exact List.map_id' _
  have hkeys : m.registry.keys = (List.range n).map (rowKey "x") := by
    rw [Registry.keys, h.entries, List.map_map]
    exact keys_rowVariables hl hu
  have hresiduals : m.residuals.keys = (List.range n).map (rowKey "F") := by
    rw [Residuals.keys, h.items]
    exact keys_rowResiduals (Exact.length_matrix M) (Exact.length_vector q)
  have hpairedVars : m.pairing.vars = m.registry.keys := by
    rw [Pairing.vars, h.pairs, hkeys, List.map_map]
    rfl
  have hpairedResiduals : m.pairing.residuals = m.residuals.keys := by
    rw [Pairing.residuals, h.pairs, hresiduals, List.map_map]
    rfl
  have hflat : Flat.ofPairs m.residuals m.pairing = .ok (.ofMatrix M q) := by
    rw [Flat.ofPairs, hpairedResiduals, m.residuals.mapM_get_keys, hpairedVars, hkeys, h.items]
    change Except.ok (Flat.mk _ _) = _
    rw [exprs_rowResiduals]
    rfl
  have hpaired : Problem.paired m.registry m.pairing = .ok (rowVariables lower upper) := by
    rw [Problem.paired, hpairedVars, m.registry.mapM_get_keys, hvars]
  obtain ⟨hlower, hupper⟩ := bounds_rowVariables (hl.trans hu.symm)
  have hlinear := Problem.linear_ofFlat (M := M) (q := q) (keys_rowVariables hl hu) hlower hupper
  refine ⟨hs, hkeys, hresiduals, h.pairs, fun format hformat => ?_, _, places_of_flat hflat,
    (Flat.ofMatrix M q).nodup_places, fun place => Flat.mem_places_ofMatrix M q⟩
  rw [problem, Problem.ofPairs, hpaired, hflat]
  rcases List.mem_pair.1 hformat with rfl | rfl
  · exact ⟨_, rfl, hlinear .dense⟩
  · exact ⟨_, rfl, hlinear .entries⟩

end

end Equilibria
