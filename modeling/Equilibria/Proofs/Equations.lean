import Equilibria.Proofs.Callbacks
import Equilibria.Proofs.Complementarity
import Equilibria.Proofs.Descent

/-!
# The equations of a flat problem

The equations that a solver makes of callbacks are those of the components, one for each, whatever
has been called before.
-/

namespace Equilibria

open Calls Fallible

variable {α : Type}

/-! ## Boxes -/

namespace Box

variable [Scalar α]

theorem align_eq_zip {β : Type} {xs ys : List β} (h : xs.length = ys.length) :
    align xs ys = .ok (xs.zip ys) := by
  unfold align
  split
  · obtain ⟨y, rfl⟩ := List.length_eq_one_iff.1 h.symm
    rfl
  · obtain ⟨x, rfl⟩ := List.length_eq_one_iff.1 h
    rfl
  · rw [if_pos (beq_iff_eq.2 h)]

theorem rows_eq_ok {b : Box α} {x f : List α} (hl : b.lower.length = x.length)
    (hu : b.upper.length = x.length) :
    b.rows x f = .ok (List.zipWith (fun (l, u) (x, f) => boxRow l u x f)
      (b.lower.zip b.upper) (x.zip f)) := by
  have halign := align_eq_zip (hl.trans hu.symm)
  have hfits : b.fits ((b.lower.zip b.upper).map fun (l, u) => Side.of l u) x.length = true := by
    simp [fits, hl, hu]
  rw [rows, halign]
  exact if_pos hfits

theorem finite_of_notFinite {f : List α} (h : notFinite f = []) :
    ∀ y ∈ f, Scalar.isFinite y = true := by
  intro y hy
  rw [notFinite, List.map_eq_nil_iff, List.filter_eq_nil_iff] at h
  obtain ⟨i, hi⟩ := List.getElem?_of_mem hy
  simpa using h (y, i) (List.mem_zipIdx_iff_getElem?.2 hi)

/-- The equations of a box are those of its components, for values that are finite. -/
structure Equations (b : Box α) (x f : List α) (rows : List (Row α)) : Prop where
  length : f.length = x.length
  finite : ∀ y ∈ f, Scalar.isFinite y = true
  row : ∀ (i : Nat) (r : Row α), rows[i]? = some r ↔
    ∃ l u a y, b.lower[i]? = some l ∧ b.upper[i]? = some u ∧ x[i]? = some a ∧ f[i]? = some y ∧
      boxRow l u a y = r

theorem equations_of_evaluate {b : Box α} {x f : List α} {rows : List (Row α)}
    (hb : b.lower.length = b.upper.length) (h : b.evaluate x [f.length] f = .ok rows) :
    b.Equations x f rows := by
  unfold evaluate at h
  split at h
  · cases h
  rename_i hs
  split at h
  · rename_i hn
    obtain ⟨bounds, ha, h⟩ := bind_eq_ok.1 h
    cases (align_eq_zip hb).symm.trans ha
    split at h
    · cases h
      refine ⟨by simpa using hs, finite_of_notFinite hn, fun i r => ?_⟩
      constructor
      · intro hr
        obtain ⟨⟨l, u⟩, ⟨a, y⟩, hlu, hay, rfl⟩ := List.getElem?_zipWith_eq_some.1 hr
        obtain ⟨hl, hu⟩ := List.getElem?_zip_eq_some.1 hlu
        obtain ⟨ha, hy⟩ := List.getElem?_zip_eq_some.1 hay
        exact ⟨l, u, a, y, hl, hu, ha, hy, rfl⟩
      · rintro ⟨l, u, a, y, hl, hu, ha, hy, rfl⟩
        exact List.getElem?_zipWith_eq_some.2 ⟨(l, u), (a, y), List.getElem?_zip_eq_some.2 ⟨hl, hu⟩,
          List.getElem?_zip_eq_some.2 ⟨ha, hy⟩, rfl⟩
    · cases h
  · cases h

theorem Equations.isFinite {b : Box Exact} {x f : List Exact} {rows : List (Row Exact)}
    (h : b.Equations x f rows) (hx : Vec.isFinite x = true) :
    Vec.isFinite (rows.map Row.value) = true := by
  rw [Exact.isFinite_all]
  intro v hv
  obtain ⟨r, hr, rfl⟩ := List.mem_map.1 hv
  obtain ⟨i, hi⟩ := List.getElem?_of_mem hr
  obtain ⟨l, u, a, y, -, -, ha, hy, rfl⟩ := (h.row i r).1 hi
  obtain ⟨a, rfl⟩ := Exact.isFinite_iff.1 (Exact.isFinite_all.1 hx a (List.mem_of_getElem? ha))
  obtain ⟨y, rfl⟩ := Exact.isFinite_iff.1 (h.finite y (List.mem_of_getElem? hy))
  rw [boxRow_real]
  rfl

theorem Equations.near {b : Box Exact} {xs f : List Exact} {rows : List (Row Exact)} {t : Exact}
    (h : b.Equations xs f rows) (hx : Vec.isFinite xs = true)
    (hm : Vec.maxAbs (rows.map Row.value) ≤ t) {i : Nat} {l u : Exact} {x r : ℝ}
    (hl : b.lower[i]? = some l) (hu : b.upper[i]? = some u) (hi : xs[i]? = some (.real x))
    (hf : f[i]? = some (.real r)) : .real |natural l u x r| ≤ 3 * t := by
  have hrow := (h.row i _).2 ⟨l, u, .real x, .real r, hl, hu, hi, hf, rfl⟩
  have hmem : Exact.real (equation l u x r) ∈ rows.map Row.value := by
    rw [← boxRow_real]
    exact List.mem_map_of_mem (List.mem_of_getElem? hrow)
  rw [Exact.three_eq]
  exact Exact.le_mul (by norm_num) (abs_natural_le l u x r)
    (Exact.abs_le_of_maxAbs (h.isFinite hx) hm hmem)

end Box

theorem Jacobian.fits_eq {rows : List (List α)} {k : Nat} (hheight : rows.length = k)
    (hwidth : ∀ row ∈ rows, row.length = k) (n : Nat) :
    ((rows.length == n || rows.length == 1) && rows.all fun r =>
      r.length == (rows.headD []).length && (r.length == n || r.length == 1)) =
        (k == n || k == 1) := by
  have hhead : (rows.headD []).length = k := by
    cases rows with
    | nil => exact hheight
    | cons r rest => exact hwidth r List.mem_cons_self
  rw [hheight, hhead]
  cases hk : k == n || k == 1 with
  | false => rfl
  | true =>
    refine List.all_eq_true.2 fun row hrow => ?_
    rw [hwidth row hrow, hk, BEq.rfl]
    rfl

theorem Jacobian.fits_of_square {rows : List (List α)} {n : Nat} (hheight : rows.length = n)
    (hwidth : ∀ row ∈ rows, row.length = n) :
    ((rows.length == n || rows.length == 1) && rows.all fun r =>
      r.length == (rows.headD []).length && (r.length == n || r.length == 1)) = true := by
  rw [fits_eq hheight hwidth, BEq.rfl]
  rfl

/-! ## Runs -/

variable [Scalar α]

namespace Run

variable {σ : Type}

theorem equations_apply (p : Problem σ α) (x : List α) (t : Trace σ α) :
    equations p x t = ((p.value x t.surroundings).1 >>= fun f => p.box.evaluate x f.shape f.data,
      ⟨(p.value x t.surroundings).2, .valueCall :: t.events⟩) := by
  change (note .valueCall >>= fun _ => call (p.value x) >>= fun f =>
    liftM (p.box.evaluate x f.shape f.data)) t = _
  rw [bind_apply]
  change (call (p.value x) >>= fun f => liftM (p.box.evaluate x f.shape f.data))
    (⟨t.surroundings, .valueCall :: t.events⟩ : Trace σ α) = _
  rw [bind_apply, call]
  rcases p.value x t.surroundings with ⟨_ | f, s⟩ <;> rfl

theorem slopes_apply (p : Problem σ α) (x : List α) (rows : List (Row α)) (t : Trace σ α) :
    slopes p x rows t = ((p.jacobian x t.surroundings).1 >>= Jacobian.ofBox rows,
      ⟨(p.jacobian x t.surroundings).2, .jacobianCall :: t.events⟩) := by
  change (note .jacobianCall >>= fun _ => call (p.jacobian x) >>= fun j =>
    liftM (Jacobian.ofBox rows j)) t = _
  rw [bind_apply]
  change (call (p.jacobian x) >>= fun j => liftM (Jacobian.ofBox rows j))
    (⟨t.surroundings, .jacobianCall :: t.events⟩ : Trace σ α) = _
  rw [bind_apply, call]
  rcases p.jacobian x t.surroundings with ⟨_ | j, s⟩ <;> rfl

end Run

/-! ## Flat problems -/

namespace Flat

/-- The equations at a point of the problem of these variables. -/
def equations (f : Flat α) (vars : List (Variable α)) (s : Scratch α) (x : List α) :
    Except Error (List (Row α)) := do
  let y ← (f.value (.vector x) s).1
  Box.evaluate ⟨vars.map (·.lower), vars.map (·.upper)⟩ x [y.length] y

theorem value_eq_ok {f : Flat α} {x y : List α} {s : Scratch α}
    (h : (f.value (.vector x) s).1 = .ok y) : x.length = f.keys.length ∧
      f.exprs.mapM (·.evaluate (Binding.ofList (s.bind f.keys x))) = .ok y := by
  rw [value_apply] at h
  split at h
  · rename_i hs
    exact ⟨by simpa [Grid.vector, size] using hs, h⟩
  · cases h

theorem length_of_isFloatingPoint {f : Flat α} {x : List α} {s : Scratch α} {e : Error}
    (h : (f.value (.vector x) s).1 = .error e) (he : e.isFloatingPoint = true) :
    x.length = f.keys.length := by
  rw [value_apply] at h
  split at h
  · rename_i hs
    simpa [Grid.vector, size] using hs
  · cases h
    cases he

end Flat

/-- Whatever a solver calls, the equations that it sees are the same. -/
theorem Problem.steady_ofFlat {vars : List (Variable Exact)} {flat : Flat Exact}
    (hl : vars.length = flat.keys.length) (format : MatrixFormat) (s : Scratch Exact) :
    Steady (fun t => Scratch.outside t flat.keys = s.outside flat.keys)
      (ofFlat vars flat format) (flat.equations vars s) where
  equations x t ht := by
    rw [Run.equations_apply, Problem.value_apply, flat.value_congr (.vector x) ht]
    refine ⟨(flat.outside_value _ _).trans ht, ?_⟩
    rw [Flat.equations]
    cases (flat.value (.vector x) s).1 <;> rfl
  slopes x rows t ht := by
    rw [Run.slopes_apply, Problem.jacobian_apply]
    exact (flat.outside_jacobian format _ _).trans ht
  sized x rows h := by
    obtain ⟨y, hy, -⟩ := bind_eq_ok.1 h
    rw [(Flat.value_eq_ok hy).1, ← hl]
    simp [size, ofFlat]
  sizedAnyhow x e h he := by
    have hx : x.length = flat.keys.length := by
      cases hy : (flat.value (.vector x) s).1 with
      | ok y => exact (Flat.value_eq_ok hy).1
      | error e' =>
        rw [Flat.equations, hy] at h
        cases h
        exact Flat.length_of_isFloatingPoint hy he
    rw [hx, ← hl]
    simp [size, ofFlat]
  finite x rows h hx := by
    obtain ⟨y, -, he⟩ := bind_eq_ok.1 h
    exact (Box.equations_of_evaluate (by simp) he).isFinite hx

end Equilibria
