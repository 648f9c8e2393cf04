import Equilibria.Proofs.Calls
import Equilibria.Proofs.Exact
import Equilibria.Solver.Newton

/-!
# What a success of the Newton method vouches for

With exact numbers, a point that is reported as a solution has equations that meet the tolerance.
The equations that a run holds are those of the point where it stands, at least if that point is
finite: a trial without equations never counts as a decrease.
-/

namespace Equilibria

open Calls

variable {σ α : Type}

variable [Scalar α]

def Around (I : σ → Prop) (t : Trace σ α) : Prop := I t.surroundings

/-- The equations at a point are the same whenever they are asked for, as long as `I` holds. -/
structure Steady (I : σ → Prop) (p : Problem σ α)
    (answer : List α → Except Error (List (Row α))) : Prop where
  equations : ∀ x t, Around I t →
    Around I (Run.equations p x t).2 ∧ (Run.equations p x t).1 = answer x
  slopes : ∀ x rows t, Around I t → Around I (Run.slopes p x rows t).2
  sized : ∀ x rows, answer x = .ok rows → x.length = p.size
  sizedAnyhow : ∀ x e, answer x = .error e → e.isFloatingPoint = true → x.length = p.size
  finite : ∀ x rows, answer x = .ok rows → Vec.isFinite x = true →
    Vec.isFinite (rows.map Row.value) = true

/-- The equations at a point meet a tolerance. -/
def Meets (answer : List α → Except Error (List (Row α))) (tolerance : α) (x : List α) : Prop :=
  ∃ rows, answer x = .ok rows ∧ Vec.maxAbs (rows.map Row.value) ≤ tolerance

/-- A success at a finite point vouches for the equations there. -/
def Output.Vouches (p : Problem σ α) (answer : List α → Except Error (List (Row α)))
    (tolerance : α) (o : Output α) : Prop :=
  o.code = Termination.solved.code → Vec.isFinite o.x.data = true →
    p.size = 0 ∨ Meets answer tolerance o.x.data

theorem Termination.code_eq_solved {t : Termination} : t.code = solved.code ↔ t = .solved := by
  cases t <;> decide

theorem Output.vouches_of_ne {p : Problem σ α} {answer : List α → Except Error (List (Row α))}
    {tolerance : α} {t : Termination} {x : List α} {message : String} {count : Int}
    {norm : Option α} (h : t ≠ .solved) :
    (Output.finish x t message count norm).Vouches p answer tolerance :=
  fun ht => absurd (Termination.code_eq_solved.1 ht) h

omit [Scalar α] in
theorem ensures_note {I : σ → Prop} (e : Event α) :
    Ensures (Around I) (Run.note e) fun _ => True := fun _ h => ⟨h, fun _ _ => trivial⟩

namespace Steady

variable {I : σ → Prop} {p : Problem σ α} {answer : List α → Except Error (List (Row α))}

theorem ensures_equations (h : Steady I p answer) (x : List α) :
    Ensures (Around I) (Run.equations p x) fun rows => answer x = .ok rows := by
  intro t ht
  obtain ⟨hi, ha⟩ := h.equations x t ht
  exact ⟨hi, fun rows hr => ha.symm.trans hr⟩

theorem ensures_slopes (h : Steady I p answer) (x : List α) (rows : List (Row α)) :
    Ensures (Around I) (Run.slopes p x rows) fun _ => True :=
  fun t ht => ⟨h.slopes x rows t ht, fun _ _ => trivial⟩

theorem ensures_tryCatch {β : Type} (h : Steady I p answer) (x : List α) (f : List (Row α) → β)
    {handle : Error → Run σ α β} {Q : β → Prop} (hf : ∀ rows, answer x = .ok rows → Q (f rows))
    (hh : ∀ e, answer x = .error e → Ensures (Around I) (handle e) Q) :
    Ensures (Around I) (tryCatch (f <$> Run.equations p x) handle) Q := by
  intro t ht
  obtain ⟨hi, ha⟩ := h.equations x t ht
  rw [tryCatch_apply, map_apply]
  rcases hr : Run.equations p x t with ⟨e | rows, t'⟩
  · rw [hr] at hi ha
    exact hh e ha.symm t' hi
  · rw [hr] at hi ha
    refine ⟨hi, fun b hb => ?_⟩
    cases hb
    exact hf rows ha.symm

theorem ensures_evaluate? (h : Steady I p answer) (x : List α) :
    Ensures (Around I) (Newton.evaluate? p x) fun r =>
      x.length = p.size ∧ ∀ rows, r = some rows → answer x = .ok rows := by
  refine h.ensures_tryCatch x some (fun rows hr => ⟨h.sized x rows hr, ?_⟩) fun e he => ?_
  · rintro _ ⟨⟩
    exact hr
  · split
    · rename_i hcaught
      exact .pure ⟨h.sizedAnyhow x e he hcaught, fun rows hn => by cases hn⟩
    · exact .throw _

end Steady

namespace Newton

structure IsReal (n : Newton Exact) : Prop where
  sigma : Scalar.isFinite n.sigma = true
  beta : Scalar.isFinite n.beta = true
  rho : Scalar.isFinite n.rho = true
  minStep : Scalar.isFinite n.minStep = true
  gradientTolerance : Scalar.isFinite n.gradientTolerance = true

/-- A point with an entry for each component and, if it is finite, its own equations. -/
structure Iterate.Fits (p : Problem σ α) (answer : List α → Except Error (List (Row α)))
    (i : Iterate α) : Prop where
  length : i.x.length = p.size
  rows : Vec.isFinite i.x = true → answer i.x = .ok i.rows

variable {I : σ → Prop} {p : Problem σ Exact}
  {answer : List Exact → Except Error (List (Row Exact))} {n : Newton Exact}

theorem isFinite_merit {rows : List (Row Exact)} (h : Vec.isFinite (values rows) = true) :
    Scalar.isFinite (merit rows) = true := by
  rw [merit, Exact.half_eq, Exact.isFinite_mul, Exact.isFinite_dot h h]
  rfl

theorem not_infinity_le_of_finite {a : Exact} (h : Scalar.isFinite a = true) :
    ¬ (Scalar.infinity : Exact) ≤ a := by
  obtain ⟨x, rfl⟩ := Exact.isFinite_iff.1 h
  exact Exact.not_infinity_le x

theorem ensures_direction (s : Setting Exact) (h : List (List Exact)) (phi grad : List Exact) :
    Ensures (Around I) (direction n s h phi grad) fun d =>
      Vec.isFinite grad = true → Vec.isFinite d = true := by
  unfold direction
  split
  · exact (ensures_note _).bind fun _ _ => .pure Exact.isFinite_negate
  · split
    · exact .pure Exact.isFinite_negate
    · rename_i d hd
      refine (Ensures.lift (Q := fun _ => True) fun _ _ => trivial).bind fun q _ => ?_
      split
      · exact (ensures_note _).bind fun _ _ => .pure Exact.isFinite_negate
      · exact .pure fun _ => by simpa using hd

theorem ensures_search (hp : Steady I p answer) (hn : n.IsReal) {x d : List Exact}
    {merit₀ slope : Exact} (hx : x.length = p.size)
    (hm : Vec.isFinite x = true → Scalar.isFinite merit₀ = true)
    (hs : Vec.isFinite x = true → Scalar.isFinite slope = true) (patience : Nat) (step : Exact)
    (trial : Option (List (Row Exact))) (hstep : Scalar.isFinite step = true) :
    Ensures (Around I) (search n p x d merit₀ slope patience step trial) fun r =>
      ∀ i, r = some i → i.Fits p answer := by
  induction patience generalizing step trial with
  | zero => exact .throw _
  | succ patience ih =>
    unfold search
    simp only
    refine (hp.ensures_evaluate? _).bind fun rows ⟨hl, hrows⟩ => ?_
    split
    · rename_i hle
      -- The bound that the merit meets is real, so that the trial has equations.
      have hfound (hf : Vec.isFinite (Vec.add x (Vec.scale step d)) = true) :
          ∃ r, rows = some r := by
        cases rows with
        | some r => exact ⟨r, rfl⟩
        | none =>
          have hxf := Exact.isFinite_of_add hf (hl.trans hx.symm)
          refine absurd hle (not_infinity_le_of_finite ?_)
          simp [hm hxf, hs hxf, hn.sigma, hstep]
      split
      · rename_i r hr
        refine .pure fun i hi => ?_
        cases hi
        refine ⟨hl, fun hf => ?_⟩
        obtain ⟨r', rfl⟩ := hfound hf
        cases hr
        exact hrows r rfl
      · exact .throw _
    · split
      · exact .pure fun i hi => by cases hi
      · exact ih _ _ (by simp [hstep, hn.beta])

/-- An iteration ends with what is true, or goes on from a point with its own equations. -/
def Goes (p : Problem σ Exact) (answer : List Exact → Except Error (List (Row Exact)))
    (tolerance : Exact) : Output Exact ⊕ Iterate Exact → Prop
  | .inl o => o.Vouches p answer tolerance
  | .inr i => i.Fits p answer

theorem ensures_step (hp : Steady I p answer) (hn : n.IsReal) (s : Setting Exact)
    (l : Limits Exact) (k : Nat) {i : Iterate Exact} (hi : i.Fits p answer) :
    Ensures (Around I) (step n s p l k i) (Goes p answer l.tolerance) := by
  have hstop {t : Termination} (ht : t ≠ .solved) (message : String) :
      Goes p answer l.tolerance (.inl (.finish i.x t message k (some (norm i.rows)))) :=
    Output.vouches_of_ne ht
  unfold step
  simp only
  refine (ensures_note _).bind fun _ _ => ?_
  split
  · rename_i hle
    exact .pure fun _ hf => .inr ⟨i.rows, hi.rows hf, hle⟩
  split
  · exact .pure (hstop (by decide) _)
  refine (hp.ensures_slopes _ _).bind fun h _ => ?_
  split
  · exact .pure (hstop (by decide) _)
  rename_i hh
  split
  · exact .pure (hstop (by decide) _)
  refine (ensures_direction s h _ _).bind fun d hd => ?_
  have hphi (hf : Vec.isFinite i.x = true) : Vec.isFinite (values i.rows) = true :=
    hp.finite _ _ (hi.rows hf) hf
  have hgrad (hf : Vec.isFinite i.x = true) :
      Vec.isFinite (Mat.transposeApply h (values i.rows)) = true :=
    Exact.isFinite_transposeApply (by simpa using hh) (hphi hf)
  have hfound := ensures_search (d := d) hp hn hi.length (fun hf => isFinite_merit (hphi hf))
    (fun hf => Exact.isFinite_dot (hgrad hf) (hd (hgrad hf))) s.patience 1 i.trial rfl
  refine hfound.bind fun r hr => ?_
  split
  · exact .pure (hr _ rfl)
  · exact .pure (hstop (by decide) _)

theorem ensures_loop (hp : Steady I p answer) (hn : n.IsReal) (s : Setting Exact)
    (l : Limits Exact) (left k : Nat) {i : Iterate Exact} (hi : i.Fits p answer) :
    Ensures (Around I) (loop n s p l left k i) fun o => o.Vouches p answer l.tolerance := by
  induction left generalizing k i with
  | zero =>
    refine .pure ?_
    unfold exhausted
    simp only
    split
    · rename_i hle
      exact fun _ hf => .inr ⟨i.rows, hi.rows hf, hle⟩
    · exact Output.vouches_of_ne (by decide)
  | succ left ih =>
    unfold loop
    refine (ensures_step hp hn s l k hi).bind fun r hr => ?_
    split
    · exact .pure hr
    · exact ih _ hr

/-- A success of the method vouches for the equations at its point. -/
theorem ensures_run (hp : Steady I p answer) (hn : n.IsReal) (s : Setting Exact)
    (l : Limits Exact) :
    Ensures (Around I) (run n s p l) fun o => o.Vouches p answer l.tolerance := by
  unfold run
  simp only
  refine (Ensures.lift (Q := fun _ => True) fun _ _ => trivial).bind fun crossed _ => ?_
  split
  · exact .pure (Output.vouches_of_ne (by decide))
  split
  · rename_i hz
    exact .pure fun _ _ => .inl (eq_of_beq hz)
  refine Ensures.bind (Q := fun r => ∀ rows, r = .ok rows → answer p.start = .ok rows) ?_
    fun r hr => ?_
  · refine hp.ensures_tryCatch p.start Except.ok (fun rows hr => ?_) fun e he => ?_
    · rintro _ ⟨⟩
      exact hr
    · split
      · exact .pure fun rows hn => by cases hn
      · exact .throw _
  split
  · exact .pure (Output.vouches_of_ne (by decide))
  · exact ensures_loop hp hn s l _ _ ⟨rfl, fun _ => hr _ rfl⟩

/-! ## A start that is a solution -/

section

variable {p : Problem σ α} {l : Limits α} {t t' : Trace σ α} {rows : List (Row α)}

theorem run_of_met (n : Newton α) (s : Setting α) (hc : p.hasCrossedBounds = .ok false)
    (hz : p.size ≠ 0) (he : Run.equations p p.start t = (.ok rows, t'))
    (hm : norm rows ≤ l.tolerance) :
    ∃ o t'', run n s p l t = (.ok o, t'') ∧ o.code = Termination.solved.code ∧
      o.x = .vector p.start := by
  have hz : (p.size == 0) = false := by simpa using hz
  unfold run
  rw [bind_apply, Calls.lift_apply, hc]
  simp only [hz, Bool.false_eq_true, if_false]
  rw [bind_apply, tryCatch_apply, map_apply, he]
  simp only [Except.map]
  cases l.iterations.toNat with
  | zero =>
    refine ⟨_, _, rfl, ?_⟩
    simp only [exhausted, if_pos hm]
    exact ⟨rfl, rfl⟩
  | succ left =>
    unfold loop step
    simp only [if_pos hm]
    exact ⟨_, _, rfl, rfl, rfl⟩

end

end Newton

end Equilibria
