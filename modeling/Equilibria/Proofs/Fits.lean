import Equilibria.Proofs.Descent
import Equilibria.Solver.TrustRegion

/-!
# What a success of the trust region method vouches for

All that is asked of a method for sums of squares is that the values it returns are those of its
point. Whether they meet the tolerance is looked up afterwards.
-/

namespace Equilibria.TrustRegion

open Calls

variable {σ α : Type}

/-- The values of a fit are those of the objective at its point. -/
def Sound (J : Trace σ α → Prop) (objective : List α → Search σ α (List α))
    (fit : LeastSquares.Fit α) : Prop :=
  ∃ t, J t ∧ (objective fit.x t).1 = .ok fit.values

def Returns (J : Trace σ α → Prop) (objective : List α → Search σ α (List α))
    (r : Except Error (LeastSquares.Fit α)) : Prop :=
  ∀ fit, r = .ok fit → Sound J objective fit

/-- A method changes nothing but through its functions, and returns the values of its point. -/
def Faithful (method : Method σ α) : Prop :=
  ∀ (J : Trace σ α → Prop) (objective : List α → Search σ α (List α))
    (jacobian : List α → Search σ α (List (List α))) (start : List α) (limit : Int),
    (∀ x, Ensures J (objective x) fun _ => True) → (∀ x, Ensures J (jacobian x) fun _ => True) →
    Ensures J (method objective jacobian start limit) (Returns J objective)

/-! ## Runs -/

theorem lift_apply {β : Type} (c : Run σ α β) (t : Trace σ α) :
    lift c t = ((c t).1.mapError Halt.failed, (c t).2) := by
  change (match c t with | (r, t') => (r.mapError Halt.failed, t')) = _
  rfl

theorem ensures_lift {β : Type} {I : Trace σ α → Prop} {c : Run σ α β} {Q : β → Prop}
    (h : Ensures I c Q) : Ensures I (lift c) Q := by
  intro t ht
  obtain ⟨hi, hq⟩ := h t ht
  rw [lift_apply]
  refine ⟨hi, fun b hb => hq b ?_⟩
  cases hc : (c t).1 with
  | error e =>
    rw [hc] at hb
    cases hb
  | ok a =>
    rw [hc] at hb
    cases hb
    rfl

variable [Scalar α]

variable {I : σ → Prop} {p : Problem σ α} {answer : List α → Except Error (List (Row α))}

theorem ensures_values (hp : Steady I p answer) (l : Limits α) (elapsed : α) (x : List α) :
    Ensures (Around I) (values p l elapsed x) fun v =>
      ∃ rows, answer x = .ok rows ∧ v = Newton.values rows := by
  unfold values
  split
  · exact .throw _
  · exact (ensures_lift (hp.ensures_equations x)).bind fun rows hr => .pure ⟨rows, hr, rfl⟩

theorem ensures_jacobian (hp : Steady I p answer) (x : List α) :
    Ensures (Around I) (jacobian p x) fun _ => True :=
  ensures_lift ((hp.ensures_equations x).bind fun rows _ => hp.ensures_slopes x rows)

theorem vouches_report (hp : Steady I p answer) {l : Limits α} {elapsed : α}
    {fit : LeastSquares.Fit α} (h : Sound (Around I) (values p l elapsed) fit) :
    (report l fit).Vouches p answer l.tolerance := by
  obtain ⟨t, ht, hv⟩ := h
  obtain ⟨rows, hr, hs⟩ := (ensures_values hp l elapsed fit.x t ht).2 _ hv
  unfold report
  simp only
  split
  · rename_i hle
    rw [hs] at hle
    exact fun _ _ => .inr ⟨rows, hr, hle⟩
  · split <;> exact Output.vouches_of_ne (by decide)

/-- A success of the method vouches for the equations at its point. -/
theorem ensures_run {method : Method σ α} (hm : Faithful method) (hp : Steady I p answer)
    (l : Limits α) (elapsed : α) :
    Ensures (Around I) (run method p l elapsed) fun o => o.Vouches p answer l.tolerance := by
  have hfit := hm (Around I) (values p l elapsed) (jacobian p) p.start l.iterations
    (fun x => (ensures_values hp l elapsed x).mono fun _ _ => trivial) (ensures_jacobian hp)
  unfold run
  simp only
  refine (Ensures.lift (Q := fun _ => True) fun _ _ => trivial).bind fun _ _ => ?_
  refine (Ensures.lift (Q := fun _ => True) fun _ _ => trivial).bind fun crossed _ => ?_
  split
  · exact .pure (Output.vouches_of_ne (by decide))
  split
  · rename_i hz
    exact .pure fun _ _ => .inl (eq_of_beq hz)
  -- The minimisation is run apart, and what it leaves is taken over.
  refine Ensures.bind (Q := fun r => Around I r.2 ∧ ∀ fit, r.1 = .ok (.ok fit) →
    Sound (Around I) (values p l elapsed) fit) (fun t ht => ?_) fun r ⟨ht, hr⟩ => ?_
  · obtain ⟨hi, hs⟩ := hfit t ht
    refine ⟨hi, fun r hr => ?_⟩
    cases hr
    exact ⟨hi, fun fit hf => hs _ hf fit rfl⟩
  refine Ensures.bind (Q := fun _ => True) (fun _ _ => ⟨ht, fun _ _ => trivial⟩) fun _ _ => ?_
  split
  · exact .pure (vouches_report hp (hr _ ‹_›))
  · exact .throw _
  · exact .pure (Output.vouches_of_ne (by decide))
  · split
    · exact .pure (Output.vouches_of_ne (by decide))
    · exact .throw _

/-! ## The minimisation is such a method -/

variable {J : Trace σ α → Prop} {objective : List α → Search σ α (List α)}
  {slopes : List α → Search σ α (List (List α))}

omit [Scalar α] in
theorem witnessed {β : Type} {c : Search σ α β} (h : Ensures J c fun _ => True) :
    Ensures J c fun b => ∃ t, J t ∧ (c t).1 = .ok b :=
  fun t ht => ⟨(h t ht).1, fun _ hb => ⟨t, ht, hb⟩⟩

omit [Scalar α] in
theorem returns_fit {place : LeastSquares.Place α}
    (h : ∃ t, J t ∧ (objective place.x t).1 = .ok place.f) (count : Nat)
    (ending : LeastSquares.Ending) :
    Returns J objective (.ok (LeastSquares.fit place count ending)) := by
  intro fit hf
  cases hf
  exact h

omit [Scalar α] in
theorem returns_error (e : Error) : Returns J objective (.error e) := fun _ hf => by cases hf

theorem ensures_go (ho : ∀ x, Ensures J (objective x) fun _ => True)
    (hs : ∀ x, Ensures J (slopes x) fun _ => True) (limit left : Nat)
    {place : LeastSquares.Place α} (model : LeastSquares.Model α) (radius alpha : α)
    (h : ∃ t, J t ∧ (objective place.x t).1 = .ok place.f) :
    Ensures J (LeastSquares.go objective slopes limit left place model radius alpha)
      (Returns J objective) := by
  induction left generalizing place model radius alpha with
  | zero => exact .pure (returns_fit h _ _)
  | succ left ih =>
    unfold LeastSquares.go
    simp only
    refine (witnessed (ho _)).bind fun v hv => ?_
    split
    · exact ih _ _ _ h
    split
    · refine (hs _).bind fun rows _ => ?_
      split
      · exact .pure (returns_fit hv _ _)
      split
      · exact .pure (returns_fit hv _ _)
      split
      · exact .pure (returns_fit hv _ _)
      split
      · exact .pure (returns_error _)
      · exact ih _ _ _ hv
    · split
      · exact .pure (returns_fit h _ _)
      · exact ih _ _ _ h

theorem faithful_minimise : Faithful (LeastSquares.minimise : Method σ α) := by
  intro J objective slopes start limit ho hs
  unfold LeastSquares.minimise
  split
  · exact .pure (returns_error _)
  refine (witnessed (ho _)).bind fun v hv => ?_
  split
  · exact .pure (returns_error _)
  refine (hs _).bind fun rows _ => ?_
  simp only
  split
  · exact .pure (returns_fit hv _ _)
  split
  · exact .pure (returns_fit hv _ _)
  split
  · exact .pure (returns_error _)
  · exact ensures_go ho hs _ _ _ _ _ hv

/-! ## A start that is a solution -/

section

variable {l : Limits α} {t t₁ t₂ : Trace σ α}

theorem minimise_of_flat {objective : List α → Search σ α (List α)}
    {slopes : List α → Search σ α (List (List α))} {x values : List α} {rows : List (List α)}
    {limit : Int} (hl : 0 < limit) (hx : x.any Scalar.isNaN = false)
    (hv : objective x t = (.ok values, t₁)) (hf : Vec.isFinite values = true)
    (hs : slopes x t₁ = (.ok rows, t₂))
    (hg : Vec.maxAbs (LeastSquares.Place.gradient ⟨x, values, rows⟩) < LeastSquares.tolerance) :
    LeastSquares.minimise objective slopes x limit t =
      (.ok (.ok (LeastSquares.fit ⟨x, values, rows⟩ 1 .gradient)), t₂) := by
  have hl : decide (limit ≤ 0) = false := by simpa using hl
  unfold LeastSquares.minimise
  simp only [hl, hx, Bool.or_false, Bool.false_eq_true, if_false]
  rw [bind_apply, hv]
  simp only [hf, Bool.not_true, Bool.false_eq_true, if_false]
  rw [bind_apply, hs]
  simp only [if_pos hg]
  rfl

theorem run_of_fit {method : Method σ α} {elapsed : α} {sides : List Side}
    {fit : LeastSquares.Fit α} (hb : p.box.sides = .ok sides)
    (hc : p.hasCrossedBounds = .ok false) (hz : p.size ≠ 0)
    (hm : method (values p l elapsed) (jacobian p) p.start l.iterations t = (.ok (.ok fit), t₁))
    (hl : Vec.maxAbs fit.values ≤ l.tolerance) :
    ∃ o, run method p l elapsed t = (.ok o, t₁) ∧ o.code = Termination.solved.code ∧
      o.x = .vector fit.x := by
  have hz : (p.size == 0) = false := by simpa using hz
  have hr : run method p l elapsed t = (.ok (report l fit), t₁) := by
    unfold run
    rw [bind_apply, Calls.lift_apply, hb]
    simp only
    rw [bind_apply, Calls.lift_apply, hc]
    simp only [hz, Bool.false_eq_true, if_false]
    rw [bind_apply, hm]
    rfl
  refine ⟨report l fit, hr, ?_⟩
  simp only [report, if_pos hl]
  exact ⟨rfl, rfl⟩

end

end Equilibria.TrustRegion
