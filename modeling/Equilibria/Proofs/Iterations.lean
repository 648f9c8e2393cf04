import Equilibria.Linear.Elimination
import Equilibria.Proofs.Descent
import Equilibria.Proofs.Equations

/-!
# The iterations of the Newton method

A run stands at a point with the equations of that point. It goes on from a trial that has
equations, unless the merit is so large that a failed trial meets the bound on it: infinity is not
above infinity. Then the run breaks down, or goes on with the equations of another trial.
-/

namespace Equilibria

open Calls

variable {σ α : Type}

/-! ## Values that depend on the point -/

variable [Scalar α]

namespace Box

theorem align_error {β : Type} {xs ys : List β} {e : Error} (h : align xs ys = .error e) :
    e = .unlikeShapes := by
  unfold align at h
  split at h
  · cases h
  · cases h
  · split at h <;> cases h
    rfl

inductive Flaw (x : List α) (shape : List Nat) (f : List α) : Error → Prop
  | shape : Flaw x shape f (.valueShape shape [x.length])
  | infinite (some : notFinite f ≠ []) : Flaw x shape f (.notFinite (notFinite f))
  | bounds : Flaw x shape f .unlikeShapes
  | size : Flaw x shape f .noItem

theorem flaw_of_evaluate {b : Box α} {x : List α} {shape : List Nat} {f : List α} {e : Error}
    (h : b.evaluate x shape f = .error e) : Flaw x shape f e := by
  unfold evaluate at h
  split at h
  · cases h
    exact .shape
  split at h
  · unfold rows at h
    cases ha : align b.lower b.upper with
    | error e' =>
      rw [ha] at h
      cases h
      rw [align_error ha]
      exact .bounds
    | ok bounds =>
      rw [ha] at h
      simp only [bind, Except.bind] at h
      split at h <;> cases h
      exact .size
  · rename_i hsome
    cases h
    exact .infinite hsome

end Box

namespace Problem

/-- The values of a problem depend on the point only, as long as `I` holds. -/
structure Answers (I : σ → Prop) (p : Problem σ α) (value : List α → Except Error (Grid α)) :
    Prop where
  value : ∀ x s, I s → (p.value x s).1 = value x ∧ I (p.value x s).2
  jacobian : ∀ x s, I s → I (p.jacobian x s).2

def evaluated (p : Problem σ α) (value : List α → Except Error (Grid α)) (x : List α) :
    Except Error (List (Row α)) := do
  let f ← value x
  p.box.evaluate x f.shape f.data

variable {p : Problem σ α} {value : List α → Except Error (Grid α)} {x : List α}

theorem evaluated_ne_noTrial (hv : value x ≠ .error .noTrial) :
    p.evaluated value x ≠ .error .noTrial := by
  intro h
  rw [evaluated] at h
  cases hx : value x with
  | error e =>
    rw [hx] at h
    cases h
    exact hv hx
  | ok f =>
    rw [hx] at h
    cases Box.flaw_of_evaluate h

theorem not_isFloatingPoint_of_finite {f : Grid α} {e : Error} (hx : value x = .ok f)
    (hf : Vec.isFinite f.data = true) (h : p.evaluated value x = .error e) :
    e.isFloatingPoint = false := by
  rw [evaluated, hx] at h
  cases Box.flaw_of_evaluate h with
  | shape | bounds | size => rfl
  | infinite some =>
    refine absurd (List.map_eq_nil_iff.2 (List.filter_eq_nil_iff.2 ?_)) some
    rintro ⟨y, i⟩ hy
    simp [List.all_eq_true.1 hf y (List.fst_mem_of_mem_zipIdx hy)]

/-- The equations of a trial, or none if they are no numbers. -/
def attempted : Except Error (List (Row α)) → Except Error (Option (List (Row α)))
  | .ok rows => .ok (some rows)
  | .error e => if e.isFloatingPoint then .ok none else .error e

omit [Scalar α] in
theorem of_attempted_error {r : Except Error (List (Row α))} {e : Error}
    (h : .error e = attempted r) : r = .error e ∧ e.isFloatingPoint = false := by
  unfold attempted at h
  split at h
  · cases h
  · split at h <;> cases h
    rename_i hne
    exact ⟨rfl, Bool.eq_false_of_not_eq_true hne⟩

omit [Scalar α] in
theorem of_attempted_some {r : Except Error (List (Row α))} {rows : List (Row α)}
    (h : .ok (some rows) = attempted r) : r = .ok rows := by
  unfold attempted at h
  split at h
  · cases h
    rfl
  · split at h <;> cases h

omit [Scalar α] in
theorem of_attempted_none {r : Except Error (List (Row α))} (h : .ok none = attempted r) :
    ∃ e, r = .error e ∧ e.isFloatingPoint = true := by
  unfold attempted at h
  split at h
  · cases h
  · split at h <;> cases h
    exact ⟨_, rfl, by assumption⟩

namespace Answers

variable {I : σ → Prop} {p : Problem σ α} {value : List α → Except Error (Grid α)}

theorem equations (hp : p.Answers I value) (x : List α) {t : Trace σ α} (ht : Around I t) :
    (Run.equations p x t).1 = p.evaluated value x ∧ Around I (Run.equations p x t).2 := by
  obtain ⟨hv, hi⟩ := hp.value x t.surroundings ht
  rw [Run.equations_apply, evaluated, ← hv]
  exact ⟨rfl, hi⟩

theorem evaluate? (hp : p.Answers I value) (x : List α) {t : Trace σ α} (ht : Around I t) :
    (Newton.evaluate? p x t).1 = attempted (p.evaluated value x) ∧
      Around I (Newton.evaluate? p x t).2 := by
  obtain ⟨hv, hi⟩ := hp.equations x ht
  unfold Newton.evaluate?
  rw [tryCatch_apply, map_apply, ← hv]
  rcases hr : Run.equations p x t with ⟨e | rows, t'⟩
  · rw [hr] at hi
    simp only [Except.map, attempted]
    split
    · exact ⟨rfl, hi⟩
    · exact ⟨rfl, hi⟩
  · rw [hr] at hi
    exact ⟨rfl, hi⟩

end Answers

end Problem

namespace Newton

variable {I : σ → Prop} {p : Problem σ α} {value : List α → Except Error (Grid α)}
  {n : Newton α} {s : Setting α} {l : Limits α}

/-! ## The line search -/

inductive Steps (n : Newton α) : α → Prop
  | full : Steps n 1
  | back {step : α} (tried : Steps n step) (long : ¬ step * n.beta < n.minStep) :
    Steps n (step * n.beta)

def along (x d : List α) (step : α) : List α := Vec.add x (Vec.scale step d)

/-- How a line search can end. It is blind if a step without equations meets the bound, which is
infinite. -/
inductive Found (n : Newton α) (p : Problem σ α) (value : List α → Except Error (Grid α))
    (x d : List α) (merit₀ slope : α) : Except Error (Option (Iterate α)) → Prop
  | step {step : α} {rows : List (Row α)} (tried : Steps n step)
    (equations : p.evaluated value (along x d step) = .ok rows)
    (drop : merit rows ≤ merit₀ + n.sigma * step * slope) :
    Found n p value x d merit₀ slope (.ok (some ⟨along x d step, rows, some rows⟩))
  | blind {step : α} {e : Error} (tried : Steps n step)
    (failed : p.evaluated value (along x d step) = .error e) (caught : e.isFloatingPoint = true)
    (infinite : Scalar.infinity ≤ merit₀ + n.sigma * step * slope)
    (r : Except Error (Option (Iterate α))) : Found n p value x d merit₀ slope r
  | short : Found n p value x d merit₀ slope (.ok none)
  | endless : Found n p value x d merit₀ slope (.error .endless)
  | refused {step : α} {e : Error} (failed : p.evaluated value (along x d step) = .error e) :
    Found n p value x d merit₀ slope (.error e)

theorem search_succ {x d : List α} {merit₀ slope step : α} {rows : List (Row α)}
    (patience : Nat) (trial : Option (List (Row α))) {t t' : Trace σ α}
    (he : evaluate? p (along x d step) t = (.ok (some rows), t')) :
    search n p x d merit₀ slope (patience + 1) step trial t =
      if merit rows ≤ merit₀ + n.sigma * step * slope then
        (.ok (some ⟨along x d step, rows, some rows⟩), t')
      else if step * n.beta < n.minStep then (.ok none, t')
      else search n p x d merit₀ slope patience (step * n.beta) (some rows) t' := by
  have he : evaluate? p (Vec.add x (Vec.scale step d)) t = (.ok (some rows), t') := he
  rw [search]
  simp only
  rw [bind_apply, he]
  simp only
  split
  · rename_i h
    have h : merit rows ≤ merit₀ + n.sigma * step * slope := h
    rw [if_pos h]
    rfl
  · rename_i h
    have h : ¬ merit rows ≤ merit₀ + n.sigma * step * slope := h
    rw [if_neg h]
    split <;> rfl

theorem found_of_search (hp : p.Answers I value) {x d : List α} {merit₀ slope : α}
    (patience : Nat) {step : α} (hs : Steps n step) (trial : Option (List (Row α)))
    {t : Trace σ α} (ht : Around I t) :
    Found n p value x d merit₀ slope (search n p x d merit₀ slope patience step trial t).1 ∧
      Around I (search n p x d merit₀ slope patience step trial t).2 := by
  -- By induction on how often the search may still go back.
  induction patience generalizing step trial t with
  | zero => exact ⟨.endless, ht⟩
  | succ patience ih =>
    obtain ⟨hv, hi⟩ := hp.evaluate? (Vec.add x (Vec.scale step d)) ht
    unfold search
    simp only
    rw [bind_apply]
    rcases hr : evaluate? p (Vec.add x (Vec.scale step d)) t with ⟨e | rows, t'⟩
    · rw [hr] at hv hi
      exact ⟨.refused (Problem.of_attempted_error hv).1, hi⟩
    · rw [hr] at hv hi
      simp only
      split
      · rename_i hle
        cases rows with
        | some rows => exact ⟨.step hs (Problem.of_attempted_some hv) hle, hi⟩
        | none =>
          -- A failed trial stands for an infinite merit, so it was taken because the bound is
          -- infinite. What the search answers now depends on the trial before.
          obtain ⟨e, hfailed, hcaught⟩ := Problem.of_attempted_none hv
          refine ⟨.blind hs hfailed hcaught hle _, ?_⟩
          cases trial <;> exact hi
      · split
        · exact ⟨.short, hi⟩
        · rename_i hlong
          exact ih (.back hs hlong) _ hi

/-! ## The direction -/

/-- The steepest descent, or the direction of a linear system if that descends enough. -/
inductive Directed (n : Newton α) (grad : List α) : Except Error (List α) → Prop
  | gradient : Directed n grad (.ok (Vec.negate grad))
  | linear {d : List α} {q : α} (finite : Vec.isFinite d = true) (size : sizePower d = .ok q)
    (descent : ¬ -n.rho * q < Vec.dot grad d) : Directed n grad (.ok d)
  | overflow : Directed n grad (.error .overflow)

theorem sizePower_error {d : List α} {e : Error} (h : sizePower d = .error e) : e = .overflow := by
  unfold sizePower at h
  simp only at h
  split at h <;> cases h
  rfl

theorem direction_cases (h : List (List α)) (phi grad : List α) {t : Trace σ α}
    (ht : Around I t) : Directed n grad (direction n s h phi grad t).1 ∧
      Around I (direction n s h phi grad t).2 := by
  unfold direction
  cases s.solve h (Vec.negate phi) with
  | none => exact ⟨.gradient, ht⟩
  | some d =>
    simp only
    split
    · exact ⟨.gradient, ht⟩
    · rename_i hd
      rw [bind_apply]
      cases hq : sizePower d with
      | error e =>
        cases sizePower_error hq
        exact ⟨.overflow, ht⟩
      | ok q =>
        rw [lift_apply]
        simp only
        split
        · exact ⟨.gradient, ht⟩
        · rename_i hlt
          exact ⟨.linear (by simpa using hd) hq hlt, ht⟩

theorem slopes_cases (hp : p.Answers I value) (x : List α) (rows : List (Row α)) {t : Trace σ α}
    (ht : Around I t) : Around I (Run.slopes p x rows t).2 ∧
      ∀ e, (Run.slopes p x rows t).1 = .error e →
        (∃ s', (p.jacobian x s').1 = .error e) ∨ e = .unlikeShapes := by
  rw [Run.slopes_apply]
  refine ⟨hp.jacobian x t.surroundings ht, fun e he => ?_⟩
  cases hj : (p.jacobian x t.surroundings).1 with
  | error e' =>
    rw [hj] at he
    cases he
    exact .inl ⟨_, hj⟩
  | ok j =>
    rw [hj] at he
    have he : Jacobian.ofBox rows j = .error e := he
    unfold Jacobian.ofBox at he
    simp only at he
    split at he <;> cases he
    exact .inr rfl

/-! ## One iteration -/

/-- An iteration has come to the search for a step along a direction. -/
structure Aim (n : Newton α) (s : Setting α) (p : Problem σ α) (l : Limits α) (k : Nat)
    (i : Iterate α) (t : Trace σ α) where
  slopes : List (List α)
  direction : List α
  before : Trace σ α
  after : Trace σ α
  unsolved : ¬ norm i.rows ≤ l.tolerance
  inTime : ¬ l.time < s.elapsed k
  sloped : Run.slopes p i.x i.rows ⟨t.surroundings, .iteration (norm i.rows) :: t.events⟩ =
    (.ok slopes, before)
  finite : Mat.isFinite slopes = true
  steep : ¬ Vec.maxAbs (Mat.transposeApply slopes (values i.rows)) ≤ n.gradientTolerance
  aimed : Newton.direction n s slopes (values i.rows) (Mat.transposeApply slopes (values i.rows))
    before = (.ok direction, after)

namespace Aim

variable {k : Nat} {i : Iterate α} {t : Trace σ α}

def grad (a : Aim n s p l k i t) : List α := Mat.transposeApply a.slopes (values i.rows)

def slope (a : Aim n s p l k i t) : α := Vec.dot a.grad a.direction

def search (a : Aim n s p l k i t) : Except Error (Option (Iterate α)) × Trace σ α :=
  Newton.search n p i.x a.direction (merit i.rows) a.slope s.patience 1 i.trial a.after

variable (a : Aim n s p l k i t)

theorem directed (hp : p.Answers I value) (ht : Around I t) :
    Directed n a.grad (.ok a.direction) ∧ Around I a.after := by
  have hb := (slopes_cases hp i.x i.rows
    (t := ⟨t.surroundings, .iteration (norm i.rows) :: t.events⟩) ht).1
  rw [a.sloped] at hb
  have hd := direction_cases (n := n) (s := s) a.slopes (values i.rows) a.grad hb
  rw [grad, a.aimed] at hd
  exact hd

theorem found (hp : p.Answers I value) (ht : Around I t) :
    Found n p value i.x a.direction (merit i.rows) a.slope a.search.1 ∧ Around I a.search.2 :=
  found_of_search hp s.patience .full i.trial (a.directed hp ht).2

end Aim

theorem Aim.step_of_search {k : Nat} {i j : Iterate α} {t : Trace σ α} (a : Aim n s p l k i t)
    (h : a.search.1 = .ok (some j)) : (step n s p l k i t).1 = .ok (.inr j) := by
  have hnote : Run.note (.iteration (norm i.rows)) t =
    (.ok ⟨⟩, ⟨t.surroundings, .iteration (norm i.rows) :: t.events⟩) := rfl
  have hfinite : ¬ (!Mat.isFinite a.slopes) = true := by simp [a.finite]
  have hsearch : Newton.search n p i.x a.direction (merit i.rows)
    (Vec.dot (Mat.transposeApply a.slopes (values i.rows)) a.direction) s.patience 1 i.trial
      a.after = a.search := rfl
  unfold step
  simp only
  rw [bind_apply, hnote]
  simp only
  rw [if_neg a.unsolved, if_neg a.inTime, bind_apply, a.sloped]
  simp only
  rw [if_neg hfinite, if_neg a.steep, bind_apply, a.aimed]
  simp only
  rw [bind_apply, hsearch]
  rcases hq : a.search with ⟨r, t'⟩
  rw [hq] at h
  cases h
  rfl

/-- How an iteration can end. -/
inductive Stepped (n : Newton α) (s : Setting α) (p : Problem σ α) (l : Limits α) (k : Nat)
    (i : Iterate α) (t : Trace σ α) : Except Error (Output α ⊕ Iterate α) → Prop
  | stopped (u : Termination) (message : String) :
    Stepped n s p l k i t (.ok (.inl (.finish i.x u message k (some (norm i.rows)))))
  | refused {e : Error} (cause : (∃ s', (p.jacobian i.x s').1 = .error e) ∨ e = .unlikeShapes ∨
      e = .overflow) : Stepped n s p l k i t (.error e)
  | moved (a : Aim n s p l k i t) {j : Iterate α} (search : a.search.1 = .ok (some j)) :
    Stepped n s p l k i t (.ok (.inr j))
  | failed (a : Aim n s p l k i t) {e : Error} (search : a.search.1 = .error e) :
    Stepped n s p l k i t (.error e)

theorem step_cases (hp : p.Answers I value) (n : Newton α) (s : Setting α) (l : Limits α) (k : Nat)
    (i : Iterate α) {t : Trace σ α} (ht : Around I t) :
    Stepped n s p l k i t (step n s p l k i t).1 ∧ Around I (step n s p l k i t).2 := by
  have hnote : Run.note (.iteration (norm i.rows)) t =
    (.ok ⟨⟩, ⟨t.surroundings, .iteration (norm i.rows) :: t.events⟩) := rfl
  unfold step
  simp only
  rw [bind_apply, hnote]
  simp only
  split
  · exact ⟨.stopped _ _, ht⟩
  rename_i hunsolved
  split
  · exact ⟨.stopped _ _, ht⟩
  rename_i htime
  obtain ⟨hi, hcause⟩ := slopes_cases hp i.x i.rows
    (t := ⟨t.surroundings, .iteration (norm i.rows) :: t.events⟩) ht
  rw [bind_apply]
  rcases hh : Run.slopes p i.x i.rows ⟨t.surroundings, .iteration (norm i.rows) :: t.events⟩ with
    ⟨e | h, before⟩
  · rw [hh] at hi hcause
    exact ⟨.refused ((hcause e rfl).imp id .inl), hi⟩
  rw [hh] at hi
  simp only
  split
  · exact ⟨.stopped _ _, hi⟩
  rename_i hfinite
  split
  · exact ⟨.stopped _ _, hi⟩
  rename_i hsteep
  obtain ⟨hd, hi⟩ := direction_cases (n := n) (s := s) h (values i.rows)
    (Mat.transposeApply h (values i.rows)) hi
  rw [bind_apply]
  rcases ha : Newton.direction n s h (values i.rows) (Mat.transposeApply h (values i.rows))
    before with ⟨e | d, after⟩
  · rw [ha] at hd hi
    cases hd
    exact ⟨.refused (.inr (.inr rfl)), hi⟩
  -- Here the iteration looks for a step: all that it has checked so far makes an aim.
  let a : Aim n s p l k i t :=
    ⟨h, d, before, after, hunsolved, htime, hh, by simpa using hfinite, hsteep, ha⟩
  have hfound := (a.found hp ht).2
  have hsearch : search n p i.x d (merit i.rows) (Vec.dot (Mat.transposeApply h (values i.rows)) d)
    s.patience 1 i.trial after = a.search := rfl
  simp only
  rw [bind_apply, hsearch]
  rcases hq : a.search with ⟨e | _ | j, t'⟩
  · rw [hq] at hfound
    exact ⟨.failed a (by rw [hq]), hfound⟩
  · rw [hq] at hfound
    exact ⟨.stopped _ _, hfound⟩
  · rw [hq] at hfound
    exact ⟨.moved a (by rw [hq]), hfound⟩

theorem around_step (hp : p.Answers I value) {k : Nat} {i : Iterate α} {t t' : Trace σ α}
    {r : Except Error (Output α ⊕ Iterate α)} (ht : Around I t)
    (h : step n s p l k i t = (r, t')) : Around I t' := by
  have hi := (step_cases hp n s l k i ht).2
  rw [h] at hi
  exact hi

/-! ## Runs -/

/-- Where a run from `t` stands after `k` iterations. -/
inductive Head (n : Newton α) (s : Setting α) (p : Problem σ α) (l : Limits α) (t : Trace σ α) :
    Nat → Iterate α → Trace σ α → Prop
  | first {rows : List (Row α)} {t' : Trace σ α} (ordered : p.hasCrossedBounds = .ok false)
    (some : p.size ≠ 0) (equations : Run.equations p p.start t = (.ok rows, t')) :
    Head n s p l t 0 ⟨p.start, rows, none⟩ t'
  | next {k : Nat} {i j : Iterate α} {t₁ t₂ : Trace σ α} (head : Head n s p l t k i t₁)
    (left : k < l.iterations.toNat) (step : step n s p l k i t₁ = (.ok (.inr j), t₂)) :
    Head n s p l t (k + 1) j t₂

/-- How a run can end. -/
inductive Ended (n : Newton α) (s : Setting α) (p : Problem σ α) (l : Limits α) (t : Trace σ α) :
    Except Error (Output α) → Prop
  | early (u : Termination) (message : String) {size : Option α}
    (size_eq : size = none ∨ p.size = 0 ∧ size = some 0) :
    Ended n s p l t (.ok (.finish p.start u message 0 size))
  | refused {e : Error} (cause : p.hasCrossedBounds = .error e ∨
      (Run.equations p p.start t).1 = .error e) : Ended n s p l t (.error e)
  | exhausted {k : Nat} {i : Iterate α} {t' : Trace σ α} (head : Head n s p l t k i t') :
    Ended n s p l t (.ok (exhausted l i))
  | stopped {k : Nat} {i : Iterate α} {t' : Trace σ α} {o : Output α}
    (head : Head n s p l t k i t') (step : (step n s p l k i t').1 = .ok (.inl o)) :
    Ended n s p l t (.ok o)
  | failed {k : Nat} {i : Iterate α} {t' : Trace σ α} {e : Error}
    (head : Head n s p l t k i t') (step : (step n s p l k i t').1 = .error e) :
    Ended n s p l t (.error e)

variable {t : Trace σ α}

theorem run_eq_loop {rows : List (Row α)} {t' : Trace σ α} (hc : p.hasCrossedBounds = .ok false)
    (hz : p.size ≠ 0) (he : Run.equations p p.start t = (.ok rows, t')) :
    run n s p l t = loop n s p l l.iterations.toNat 0 ⟨p.start, rows, none⟩ t' := by
  have hz : ¬ (p.size == 0) = true := by simpa using hz
  unfold run
  rw [bind_apply, lift_apply, hc]
  simp only
  rw [if_neg Bool.false_ne_true, if_neg hz, bind_apply, tryCatch_apply, map_apply, he]
  rfl

theorem loop_succ_of_step (left : Nat) {k : Nat} {i j : Iterate α}
    (h : (step n s p l k i t).1 = .ok (.inr j)) :
    ∃ t', loop n s p l (left + 1) k i t = loop n s p l left (k + 1) j t' := by
  rcases hs : step n s p l k i t with ⟨r, t'⟩
  rw [hs] at h
  cases h
  refine ⟨t', ?_⟩
  rw [loop, bind_apply, hs]

theorem ended_of_loop (left : Nat) {k : Nat} {i : Iterate α} {t' : Trace σ α}
    (hk : left + k = l.iterations.toNat) (h : Head n s p l t k i t') :
    Ended n s p l t (loop n s p l left k i t').1 := by
  -- By induction on the iterations that are left.
  induction left generalizing k i t' with
  | zero => exact .exhausted h
  | succ left ih =>
    unfold loop
    rw [bind_apply]
    rcases hs : step n s p l k i t' with ⟨e | o | j, t₂⟩
    · exact .failed h (by rw [hs])
    · exact .stopped h (by rw [hs])
    · exact ih (by omega) (h.next (by omega) hs)

theorem ended_of_run (n : Newton α) (s : Setting α) (p : Problem σ α) (l : Limits α)
    (t : Trace σ α) : Ended n s p l t (run n s p l t).1 := by
  unfold run
  rw [bind_apply, lift_apply]
  cases hc : p.hasCrossedBounds with
  | error e => exact .refused (.inl hc)
  | ok crossed =>
    simp only
    split
    · exact .early _ _ (.inl rfl)
    rename_i hcrossed
    split
    · rename_i hz
      exact .early _ _ (.inr ⟨eq_of_beq hz, rfl⟩)
    rename_i hz
    rw [bind_apply, tryCatch_apply, map_apply]
    rcases he : Run.equations p p.start t with ⟨e | rows, t'⟩
    · have hr : (Run.equations p p.start t).1 = .error e := by rw [he]
      cases hcaught : e.isFloatingPoint with
      | true =>
        simp only [Except.map, hcaught, if_true]
        exact .early _ _ (.inl rfl)
      | false =>
        simp only [Except.map, hcaught, Bool.false_eq_true, if_false]
        exact .refused (.inr hr)
    · have hc : p.hasCrossedBounds = .ok false := by
        rw [hc]
        exact congrArg Except.ok (Bool.eq_false_of_not_eq_true hcrossed)
      exact ended_of_loop _ rfl (.first hc (by simpa using hz) he)

/-! ## Coherence -/

variable {k : Nat} {i : Iterate α} {t' : Trace σ α}

/-- A step without equations meets the bound of the search, which is infinite. -/
def Aim.Blind (value : List α → Except Error (Grid α)) (a : Aim n s p l k i t) : Prop :=
  ∃ step e, Steps n step ∧ p.evaluated value (along i.x a.direction step) = .error e ∧
    e.isFloatingPoint = true ∧ Scalar.infinity ≤ merit i.rows + n.sigma * step * a.slope

/-- No search of a run is blind. -/
def Sighted (n : Newton α) (s : Setting α) (p : Problem σ α) (l : Limits α) (t : Trace σ α)
    (value : List α → Except Error (Grid α)) : Prop :=
  ∀ (k : Nat) (i : Iterate α) (t' : Trace σ α), Head n s p l t k i t' →
    ∀ a : Aim n s p l k i t', ¬ a.Blind value

theorem sighted_of_finite (h : ∀ x, ∃ f, value x = .ok f ∧ Vec.isFinite f.data = true) :
    Sighted n s p l t value := by
  rintro k i t' - a ⟨step, e, -, hfailed, hcaught, -⟩
  obtain ⟨f, hx, hf⟩ := h (along i.x a.direction step)
  rw [Problem.not_isFloatingPoint_of_finite hx hf hfailed] at hcaught
  cases hcaught

theorem Aim.search_cases (a : Aim n s p l k i t) (hp : p.Answers I value) (ht : Around I t)
    (ha : ¬ a.Blind value) :
    (∀ j, a.search.1 = .ok (some j) → p.evaluated value j.x = .ok j.rows) ∧
      ∀ e, a.search.1 = .error e → e = .endless ∨ ∃ x, p.evaluated value x = .error e := by
  have hf := (a.found hp ht).1
  generalize a.search.1 = r at hf
  cases hf with
  | step tried equations drop =>
    refine ⟨fun j hj => ?_, nofun⟩
    cases hj
    exact equations
  | blind tried failed caught infinite =>
    exact absurd ⟨_, _, tried, failed, caught, infinite⟩ ha
  | short => exact ⟨nofun, nofun⟩
  | endless =>
    refine ⟨nofun, fun e he => ?_⟩
    cases he
    exact .inl rfl
  | refused failed =>
    refine ⟨nofun, fun e he => ?_⟩
    cases he
    exact .inr ⟨_, failed⟩

theorem Head.around (hp : p.Answers I value) (ht : Around I t) (h : Head n s p l t k i t') :
    Around I t' := by
  induction h with
  | first ordered some equations =>
    have hi := (hp.equations p.start ht).2
    rw [equations] at hi
    exact hi
  | next head left step ih => exact around_step hp ih step

theorem Head.stepped (hp : p.Answers I value) (ht : Around I t) (h : Head n s p l t k i t')
    {r : Except Error (Output α ⊕ Iterate α)} (hr : (step n s p l k i t').1 = r) :
    Stepped n s p l k i t' r := by
  rw [← hr]
  exact (step_cases hp n s l k i (h.around hp ht)).1

theorem Head.coherent (hp : p.Answers I value) (ht : Around I t)
    (hs : Sighted n s p l t value) (h : Head n s p l t k i t') :
    p.evaluated value i.x = .ok i.rows := by
  -- By induction: a run goes on only from a trial with equations of its own.
  induction h with
  | first ordered some equations =>
    have hv := (hp.equations p.start ht).1
    rw [equations] at hv
    exact hv.symm
  | next head left step ih =>
    cases head.stepped hp ht (congrArg Prod.fst step) with
    | moved a search =>
      exact (a.search_cases hp (head.around hp ht) (hs _ _ _ head a)).1 _ search

theorem Head.step_ne_noTrial (hp : p.Answers I value) (ht : Around I t)
    (hs : Sighted n s p l t value) (hv : ∀ x, value x ≠ .error .noTrial)
    (hj : ∀ x s', (p.jacobian x s').1 ≠ .error .noTrial) (h : Head n s p l t k i t') :
    (step n s p l k i t').1 ≠ .error .noTrial := by
  intro he
  cases h.stepped hp ht he with
  | refused cause =>
    rcases cause with ⟨s', hs'⟩ | h | h
    · exact hj _ _ hs'
    · cases h
    · cases h
  | failed a search =>
    rcases (a.search_cases hp (h.around hp ht) (hs _ _ _ h a)).2 _ search with h | ⟨x, hx⟩
    · cases h
    · exact Problem.evaluated_ne_noTrial (hv x) hx

/-- The output of a run has the size of the equations at its point, if it has any. -/
structure Reports (p : Problem σ α) (value : List α → Except Error (Grid α)) (o : Output α) :
    Prop where
  norm : ∃ x, o.x = .vector x ∧ ∀ size, o.norm = some size →
    p.size = 0 ∧ size = 0 ∨ ∃ rows, p.evaluated value x = .ok rows ∧ size = norm rows

theorem reports_exhausted (l : Limits α) (h : p.evaluated value i.x = .ok i.rows) :
    Reports p value (exhausted l i) := by
  unfold exhausted
  simp only
  split
  · refine ⟨_, rfl, fun size hsize => .inr ⟨_, h, ?_⟩⟩
    cases hsize
    rfl
  · refine ⟨_, rfl, fun size hsize => .inr ⟨_, h, ?_⟩⟩
    cases hsize
    rfl

theorem hasCrossedBounds_ne_noTrial (p : Problem σ α) : p.hasCrossedBounds ≠ .error .noTrial := by
  intro h
  unfold Problem.hasCrossedBounds at h
  cases ha : Box.align p.lower p.upper with
  | error e =>
    rw [ha] at h
    cases h
    cases Box.align_error ha
  | ok bounds =>
    rw [ha] at h
    cases h

/-- If no search is blind, a run always stands at a point with its own equations and reports their
size. -/
theorem coherent_of_run (hp : p.Answers I value) (ht : Around I t)
    (hs : Sighted n s p l t value) (hv : ∀ x, value x ≠ .error .noTrial)
    (hj : ∀ x s', (p.jacobian x s').1 ≠ .error .noTrial) :
    (∀ k i t', Head n s p l t k i t' → p.evaluated value i.x = .ok i.rows) ∧
      (∀ o, (run n s p l t).1 = .ok o → Reports p value o) ∧
      (run n s p l t).1 ≠ .error .noTrial := by
  have hcoherent {k : Nat} {i : Iterate α} {t' : Trace σ α} (h : Head n s p l t k i t') :=
    h.coherent hp ht hs
  have hended := ended_of_run n s p l t
  refine ⟨fun k i t' h => hcoherent h, fun o ho => ?_, fun he => ?_⟩
  · rw [ho] at hended
    cases hended with
    | early u message size_eq =>
      refine ⟨_, rfl, fun size hsize => ?_⟩
      rcases size_eq with rfl | ⟨hz, rfl⟩
      · cases hsize
      · cases hsize
        exact .inl ⟨hz, rfl⟩
    | exhausted head => exact reports_exhausted l (hcoherent head)
    | stopped head step =>
      cases head.stepped hp ht step with
      | stopped u message =>
        refine ⟨_, rfl, fun size hsize => .inr ⟨_, hcoherent head, ?_⟩⟩
        cases hsize
        rfl
  · rw [he] at hended
    cases hended with
    | refused cause =>
      rcases cause with hc | hc
      · exact hasCrossedBounds_ne_noTrial p hc
      · rw [(hp.equations p.start ht).1] at hc
        exact Problem.evaluated_ne_noTrial (hv _) hc
    | failed head step => exact head.step_ne_noTrial hp ht hs hv hj step

/-! ## A merit that is infinite -/

def nearlyFlat (f : Float → Float) : Problem Unit Float where
  lower := [-Double.infinity]
  upper := [Double.infinity]
  start := [0]
  value x := pure (.vector (x.map f))
  jacobian _ := pure (.dense [[1e-150]])
  vars := []
  residuals := []

theorem answers_nearlyFlat (f : Float → Float) :
    (nearlyFlat f).Answers (fun _ => True) fun x => .ok (.vector (x.map f)) :=
  ⟨fun _ _ _ => ⟨rfl, trivial⟩, fun _ _ _ => trivial⟩

def plainSetting : Setting Float := ⟨Linear.solve, fun _ => 0, 1000⟩

def plainLimits : Limits Float := ⟨1e-8, 3, Double.infinity, false⟩

/-- Where the function is large everywhere, the run goes on to its last iteration. -/
theorem nearlyFlat_reports : ∃ o x rows,
    (run standard plainSetting (nearlyFlat fun _ => 1e160) plainLimits ⟨(), []⟩).1 = .ok o ∧
      o.x = .vector x ∧
      (nearlyFlat fun _ => 1e160).evaluated (fun x => .ok (.vector (x.map fun _ => 1e160))) x =
        .ok rows ∧
      o.norm = some (norm rows) := by
  have hlarge : Scalar.isFinite (1e160 : Float) = true := by decide +kernel
  have hfinite (x : List Float) : Vec.isFinite (x.map fun _ => (1e160 : Float)) = true := by
    simp [Vec.isFinite, hlarge]
  obtain ⟨-, hreports, -⟩ := coherent_of_run (n := standard) (s := plainSetting) (l := plainLimits)
    (t := ⟨(), []⟩) (answers_nearlyFlat fun _ => 1e160) trivial
    (sighted_of_finite fun x => ⟨_, rfl, hfinite x⟩)
    (fun _ => by intro h; cases h) (fun _ _ => by intro h; cases h)
  have hrun : ((run standard plainSetting (nearlyFlat fun _ => 1e160) plainLimits
      ⟨(), []⟩).1.toOption.bind Output.norm).isSome = true := by
    decide +kernel
  revert hreports hrun
  generalize (run standard plainSetting (nearlyFlat fun _ => 1e160) plainLimits ⟨(), []⟩).1 = r
  intro hreports hrun
  cases r with
  | error e => cases hrun
  | ok o =>
    obtain ⟨x, hx, hnorm⟩ := (hreports o rfl).norm
    obtain ⟨size, hsize⟩ := Option.isSome_iff_exists.1 hrun
    rcases hnorm size hsize with ⟨hz, -⟩ | ⟨rows, hrows, rfl⟩
    · cases hz
    · exact ⟨o, x, rows, rfl, hx, hrows, hsize⟩

/-- Where the function is no number below the start, the first trial meets the bound without
equations, and the run breaks down. -/
theorem nearlyFlat_breaks_down :
    (run standard plainSetting (nearlyFlat fun a => 1e160 + a.sqrt) plainLimits ⟨(), []⟩).1 =
      .error .noTrial := by
  have h : ((run standard plainSetting (nearlyFlat fun a => 1e160 + a.sqrt) plainLimits
      ⟨(), []⟩).1 matches .error .noTrial) = true := by
    decide +kernel
  revert h
  generalize (run standard plainSetting (nearlyFlat fun a => 1e160 + a.sqrt) plainLimits
    ⟨(), []⟩).1 = r
  intro h
  split at h
  · rfl
  · cases h

end Newton

end Equilibria
