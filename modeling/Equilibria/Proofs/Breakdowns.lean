import Equilibria.Proofs.Budget
import Equilibria.Proofs.Iterations
import Equilibria.Proofs.Sparsity

/-!
# How a run of the Newton method breaks down

Whatever the callbacks answer, a run ends after a number of calls that is known before, and it ends
with a code if they raise no error and answer the right shapes. This fails in two places: where the
power of a direction is too large for a number, and where a failed trial meets the bound of a search
because that is infinite.
-/

namespace Equilibria

open Calls Run

variable {σ α : Type}

/-! ## Callbacks -/

variable [Scalar α]

namespace Problem

structure Sized (p : Problem σ α) : Prop where
  lower : p.lower.length = p.size
  upper : p.upper.length = p.size

theorem Sized.hasCrossedBounds_ok {p : Problem σ α} (hp : p.Sized) :
    ∃ crossed, p.hasCrossedBounds = .ok crossed := by
  unfold hasCrossedBounds
  rw [Box.align_eq_zip (hp.lower.trans hp.upper.symm)]
  exact ⟨_, rfl⟩

/-- The surroundings that calls can lead to. -/
inductive Reaches (p : Problem σ α) (s : σ) : σ → Prop
  | start : Reaches p s s
  | value (x : List α) {s' : σ} (reached : Reaches p s s') : Reaches p s (p.value x s').2
  | jacobian (x : List α) {s' : σ} (reached : Reaches p s s') : Reaches p s (p.jacobian x s').2

/-- A callback raises an error or answers with the wrong shape. A floating-point error of the values
is none: solvers take it for an answer. -/
inductive Fails (p : Problem σ α) (s : σ) : Error → Prop
  | value {x : List α} {s' : σ} {e : Error} (size : x.length = p.size) (reached : p.Reaches s s')
    (raised : (p.value x s').1 = .error e) (other : e.isFloatingPoint = false) : Fails p s e
  | valueShape {x : List α} {s' : σ} {g : Grid α} (size : x.length = p.size)
    (reached : p.Reaches s s') (answered : (p.value x s').1 = .ok g) (wrong : g.shape ≠ [p.size]) :
    Fails p s (.valueShape g.shape [p.size])
  | jacobian {x : List α} {s' : σ} {e : Error} (size : x.length = p.size)
    (reached : p.Reaches s s') (raised : (p.jacobian x s').1 = .error e) : Fails p s e
  | jacobianShape {x : List α} {s' : σ} {j : Jacobian α} (size : x.length = p.size)
    (reached : p.Reaches s s') (answered : (p.jacobian x s').1 = .ok j)
    (wrong : ¬ Flat.Square p.size j.toRows) : Fails p s .unlikeShapes

end Problem

def Output.Coded (o : Output α) : Prop := ∃ u : Termination, o.code = u.code

theorem Box.settled_evaluate {b : Box α} {x : List α} (hl : b.lower.length = x.length)
    (hu : b.upper.length = x.length) (g : Grid α) :
    Settled (fun e => g.shape ≠ [x.length] ∧ e = .valueShape g.shape [x.length] ∨
        e.isFloatingPoint = true)
      (fun rows => rows.length = x.length) (b.evaluate x g.shape g.data) := by
  unfold evaluate
  split
  · rename_i hshape
    exact .error (.inl ⟨by simpa using hshape, rfl⟩)
  rename_i hshape
  split
  · have hf : g.data.length = x.length := Grid.length_of_shape (by simpa using hshape)
    rw [rows_eq_ok hl hu]
    exact .ok (by simp [hl, hu, hf])
  · exact .error (.inr rfl)

theorem Jacobian.settled_ofBox (rows : List (Row α)) (j : Jacobian α) :
    Settled (fun e => ¬ Flat.Square rows.length j.toRows ∧ e = .unlikeShapes)
      (Flat.Square rows.length) (Jacobian.ofBox rows j) := by
  unfold ofBox
  simp only
  split
  · refine .ok ⟨by simp, fun row hrow => ?_⟩
    obtain ⟨_, -, rfl⟩ := List.mem_map.1 hrow
    simp
  · rename_i hmisfit
    exact .error ⟨fun h => hmisfit (fits_of_square h.height h.width), rfl⟩

namespace Newton

variable {n : Newton α} {s : Setting α} {p : Problem σ α} {l : Limits α} {s₀ : σ} {K : Nat}

omit [Scalar α] in
theorem settles_note {I : σ → Prop} {E : Error → Prop} (e : Event α) :
    Settles (Around I) (Run.note e) E fun _ => True := fun _ h => ⟨h, .ok trivial⟩

theorem settles_equations (hp : p.Sized) {x : List α} (hx : x.length = p.size) :
    Settles (Around (p.Reaches s₀)) (Run.equations p x)
      (fun e => p.Fails s₀ e ∨ e.isFloatingPoint = true)
      (fun rows => rows.length = p.size) := by
  intro t ht
  rw [Run.equations_apply]
  refine ⟨ht.value x, ?_⟩
  cases hv : (p.value x t.surroundings).1 with
  | error e =>
    by_cases hcaught : e.isFloatingPoint = true
    · exact .error (.inr hcaught)
    · exact .error (.inl (.value hx ht hv (Bool.eq_false_of_not_eq_true hcaught)))
  | ok g =>
    have h := Box.settled_evaluate (b := p.box) (hp.lower.trans hx.symm) (hp.upper.trans hx.symm) g
    refine h.mono ?_ fun rows hrows => hrows.trans hx
    rintro e (⟨hwrong, rfl⟩ | hnot)
    · rw [hx] at hwrong ⊢
      exact .inl (.valueShape hx ht hv hwrong)
    · exact .inr hnot

theorem settles_slopes {x : List α} (hx : x.length = p.size) {rows : List (Row α)}
    (hrows : rows.length = p.size) :
    Settles (Around (p.Reaches s₀)) (Run.slopes p x rows) (p.Fails s₀) (Flat.Square p.size) := by
  intro t ht
  rw [Run.slopes_apply]
  refine ⟨ht.jacobian x, ?_⟩
  cases hj : (p.jacobian x t.surroundings).1 with
  | error e => exact .error (.jacobian hx ht hj)
  | ok j =>
    have h := Jacobian.settled_ofBox rows j
    rw [hrows] at h
    refine h.mono ?_ fun _ => id
    rintro e ⟨hwrong, rfl⟩
    exact .jacobianShape hx ht hj hwrong

/-! ## One search -/

def Tried (p : Problem σ α) (s₀ : σ) (x : List α) : Option (List (Row α)) → Prop
  | some rows => rows.length = p.size
  | none => ∃ t e, Around (p.Reaches s₀) t ∧ (Run.equations p x t).1 = .error e ∧
    e.isFloatingPoint = true

theorem settles_evaluate? (hp : p.Sized) {x : List α} (hx : x.length = p.size) :
    Settles (Around (p.Reaches s₀)) (evaluate? p x) (p.Fails s₀) (Tried p s₀ x) := by
  intro t ht
  obtain ⟨hi, h⟩ := settles_equations hp hx t ht
  unfold evaluate?
  rw [tryCatch_apply, map_apply]
  rcases hr : Run.equations p x t with ⟨e | rows, t'⟩
  · rw [hr] at hi h
    simp only [Except.map]
    split
    · rename_i hcaught
      exact ⟨hi, .ok ⟨t, e, ht, congrArg Prod.fst hr, hcaught⟩⟩
    · rename_i hother
      exact ⟨hi, .error (h.of_error.resolve_right hother)⟩
  · rw [hr] at hi h
    exact ⟨hi, .ok h.of_ok⟩

structure Iterate.Sized (p : Problem σ α) (i : Iterate α) : Prop where
  point : i.x.length = p.size
  rows : i.rows.length = p.size
  trial : ∀ rows, i.trial = some rows → rows.length = p.size

/-- A step without equations meets the bound on the merit, which is infinite. -/
def Blinds (n : Newton α) (p : Problem σ α) (s₀ : σ) (K : Nat) (x d : List α)
    (merit₀ slope : α) : Prop :=
  ∃ k < K, Scalar.infinity ≤ merit₀ + n.sigma * backs n k * slope ∧
    ∃ t e, Around (p.Reaches s₀) t ∧
      (Run.equations p (along x d (backs n k)) t).1 = .error e ∧ e.isFloatingPoint = true

theorem length_along {x d : List α} (hx : x.length = p.size) (hd : d.length = p.size) (step : α) :
    (along x d step).length = p.size := by
  simp [along, Vec.add, Vec.scale, hx, hd]

theorem settles_search (hp : p.Sized) (hK : backs n K < n.minStep) {x d : List α}
    (hx : x.length = p.size) (hd : d.length = p.size) (merit₀ slope : α) (patience : Nat) {k : Nat}
    (hk : k < K) (hlast : K ≤ k + patience) {trial : Option (List (Row α))}
    (ht : ∀ rows, trial = some rows → rows.length = p.size) :
    Settles (Around (p.Reaches s₀)) (search n p x d merit₀ slope patience (backs n k) trial)
      (fun e => p.Fails s₀ e ∨ e = .noTrial ∧ Blinds n p s₀ K x d merit₀ slope)
      (fun r => ∀ i, r = some i → i.Sized p) := by
  -- The patience lasts until the steps are too short, so it never ends the search.
  induction patience generalizing k trial with
  | zero => omega
  | succ patience ih =>
    have hsize := length_along hx hd (backs n k)
    unfold search
    simp only
    refine ((settles_evaluate? hp hsize).mono (fun e => .inl) fun _ => id).bind
      fun rows hrows => ?_
    have htrial : ∀ r, (rows <|> trial) = some r → r.length = p.size := by
      intro r hr
      cases rows with
      | some rows =>
        cases hr
        exact hrows
      | none => exact ht r hr
    split
    · rename_i hle
      split
      · rename_i r hr
        refine .pure fun i hi => ?_
        cases hi
        exact ⟨hsize, htrial r hr, htrial⟩
      · rename_i hnone
        -- Nothing can be taken, so the trial has failed and its bound is infinite.
        cases rows with
        | some rows => cases hnone
        | none =>
          exact .throw (.inr ⟨rfl, k, hk, hle, hrows⟩)
    · split
      · exact .pure nofun
      · rename_i hlong
        have hne : k + 1 ≠ K := by
          rintro rfl
          exact hlong hK
        have hnext : k + 1 < K := by omega
        have hlast : K ≤ k + 1 + patience := by omega
        exact ih hnext hlast htrial

/-! ## One iteration -/

def Setting.Sized (s : Setting α) : Prop :=
  ∀ h right d, s.solve h right = some d → d.length = h.length

/-- How an iteration breaks down though no callback fails. -/
inductive Overruns (n : Newton α) (s : Setting α) (p : Problem σ α) (s₀ : σ) (K : Nat)
    (i : Iterate α) : Error → Prop
  | power {t : Trace σ α} {h : List (List α)} {d : List α} (reached : Around (p.Reaches s₀) t)
    (sloped : (Run.slopes p i.x i.rows t).1 = .ok h)
    (solved : s.solve h (Vec.negate (values i.rows)) = some d) (finite : Vec.isFinite d = true)
    (large : sizePower d = .error .overflow) : Overruns n s p s₀ K i .overflow
  | blind {t t' : Trace σ α} {h : List (List α)} {d : List α} (reached : Around (p.Reaches s₀) t)
    (sloped : (Run.slopes p i.x i.rows t).1 = .ok h)
    (aimed : (direction n s h (values i.rows) (Mat.transposeApply h (values i.rows)) t').1 = .ok d)
    (blinds : Blinds n p s₀ K i.x d (merit i.rows)
      (Vec.dot (Mat.transposeApply h (values i.rows)) d)) : Overruns n s p s₀ K i .noTrial

theorem length_gradient {h : List (List α)} (hh : Flat.Square p.size h) (phi : List α) :
    (Vec.negate (Mat.transposeApply h phi)).length = p.size := by
  cases h with
  | nil => simp [Vec.negate, Mat.transposeApply, ← hh.height]
  | cons row rest => simp [Vec.negate, Mat.transposeApply, hh.width row]

theorem settles_direction (hs : s.Sized) {h : List (List α)}
    (hh : Flat.Square p.size h) (phi : List α) :
    Settles (Around (p.Reaches s₀)) (direction n s h phi (Mat.transposeApply h phi))
      (fun e => e = .overflow ∧ ∃ d, s.solve h (Vec.negate phi) = some d ∧
        Vec.isFinite d = true ∧ sizePower d = .error .overflow)
      (fun d => d.length = p.size) := by
  have hgrad := length_gradient hh phi
  unfold direction
  cases hd : s.solve h (Vec.negate phi) with
  | none => exact (settles_note _).bind fun _ _ => .pure hgrad
  | some d =>
    have hsize : d.length = p.size := (hs h _ d hd).trans hh.height
    simp only
    split
    · exact .pure hgrad
    rename_i hfinite
    cases hq : sizePower d with
    | error e =>
      cases sizePower_error hq
      exact .throw ⟨rfl, d, rfl, by simpa using hfinite, hq⟩
    | ok q =>
      refine (Settles.pure (b := q) trivial).bind (Q := fun _ => True) fun q _ => ?_
      split
      · exact (settles_note _).bind fun _ _ => .pure hgrad
      · exact .pure hsize

def Lands (p : Problem σ α) : Output α ⊕ Iterate α → Prop
  | .inl o => o.Coded
  | .inr i => i.Sized p

theorem settles_step (hp : p.Sized) (hs : s.Sized) (hK : backs n K < n.minStep) (hpos : 0 < K)
    (hpatience : K ≤ s.patience) (l : Limits α) (k : Nat) {i : Iterate α} (hi : i.Sized p) :
    Settles (Around (p.Reaches s₀)) (step n s p l k i)
      (fun e => p.Fails s₀ e ∨ Overruns n s p s₀ K i e) (Lands p) := by
  have hstop (u : Termination) (message : String) (size : Option α) :
      Lands p (.inl (.finish i.x u message k size)) := ⟨u, rfl⟩
  unfold step
  simp only
  refine (settles_note _).bind fun _ _ => ?_
  split
  · exact .pure (hstop ..)
  split
  · exact .pure (hstop ..)
  refine ((settles_slopes hi.point hi.rows).reached.mono (fun _ => .inl) fun _ => id).bind ?_
  rintro h ⟨hh, t, hreached, hsloped⟩
  split
  · exact .pure (hstop ..)
  split
  · exact .pure (hstop ..)
  refine ((settles_direction hs hh (values i.rows)).reached.mono ?_ fun _ => id).bind ?_
  · rintro e ⟨rfl, d, hsolved, hfinite, hlarge⟩
    exact .inr (.power hreached hsloped hsolved hfinite hlarge)
  rintro d ⟨hd, t', -, haimed⟩
  refine ((settles_search hp hK hi.point hd _ _ s.patience hpos (by omega) hi.trial).mono ?_
    fun _ => id).bind ?_
  · rintro e (hfails | ⟨rfl, hblinds⟩)
    · exact .inl hfails
    · exact .inr (.blind hreached hsloped haimed hblinds)
  intro r hr
  split
  · rename_i next
    exact .pure (hr next rfl)
  · exact .pure (hstop ..)

/-! ## Runs -/

variable {t t' : Trace σ α}

theorem Head.sized (hp : p.Sized) (hs : s.Sized) (hK : backs n K < n.minStep) (hpos : 0 < K)
    (hpatience : K ≤ s.patience) {k : Nat} {i : Iterate α} (h : Head n s p l t k i t') :
    Around (p.Reaches t.surroundings) t' ∧ i.Sized p := by
  induction h with
  | first ordered some equations =>
    have hstart : Around (p.Reaches t.surroundings) t := .start
    obtain ⟨hi, h⟩ := settles_equations hp rfl t hstart
    rw [equations] at hi h
    exact ⟨hi, rfl, h.of_ok, nofun⟩
  | @next k _ _ _ _ head left step ih =>
    obtain ⟨hi, h⟩ := settles_step hp hs hK hpos hpatience l k ih.2 _ ih.1
    rw [step] at hi h
    exact ⟨hi, h.of_ok⟩

theorem ok_of_start {e : Error} (hp : p.Sized) (h : (Run.equations p p.start t).1 = .error e)
    (hcaught : e.isFloatingPoint = true) : ∃ o, (run n s p l t).1 = .ok o := by
  obtain ⟨crossed, hc⟩ := hp.hasCrossedBounds_ok
  unfold run
  rw [bind_apply, lift_apply, hc]
  simp only
  split
  · exact ⟨_, rfl⟩
  split
  · exact ⟨_, rfl⟩
  rw [bind_apply, tryCatch_apply, map_apply]
  rcases he : Run.equations p p.start t with ⟨r, t'⟩
  rw [he] at h
  cases h
  simp only [Except.map, hcaught, if_true]
  exact ⟨_, rfl⟩

theorem coded_exhausted (l : Limits α) (i : Iterate α) : (exhausted l i).Coded := by
  unfold exhausted
  simp only
  split
  · exact ⟨.solved, rfl⟩
  · exact ⟨.majorIterationLimit, rfl⟩

/-- Why a run breaks down: a callback fails, or an iteration overruns. -/
def Breaks (n : Newton α) (s : Setting α) (p : Problem σ α) (l : Limits α) (t : Trace σ α)
    (K : Nat) (e : Error) : Prop :=
  p.Fails t.surroundings e ∨
    ∃ k i t', Head n s p l t k i t' ∧ Overruns n s p t.surroundings K i e

theorem settled_run (hp : p.Sized) (hs : s.Sized) (hK : backs n K < n.minStep) (hpos : 0 < K)
    (hpatience : K ≤ s.patience) (l : Limits α) (t : Trace σ α) :
    Settled (Breaks n s p l t K) Output.Coded (run n s p l t).1 := by
  have hstep {k : Nat} {i : Iterate α} {t' : Trace σ α} (h : Head n s p l t k i t') :=
    have ⟨hi, hsized⟩ := h.sized hp hs hK hpos hpatience
    (settles_step hp hs hK hpos hpatience l k hsized t' hi).2
  have hended := ended_of_run n s p l t
  cases hr : (run n s p l t).1 with
  | ok o =>
    rw [hr] at hended
    cases hended with
    | early u message size_eq => exact .ok ⟨u, rfl⟩
    | exhausted head => exact .ok (coded_exhausted l _)
    | stopped head step =>
      have h := hstep head
      rw [step] at h
      exact .ok h.of_ok
  | error e =>
    rw [hr] at hended
    cases hended with
    | refused cause =>
      obtain ⟨crossed, hc⟩ := hp.hasCrossedBounds_ok
      rcases cause with hcrossed | hstart
      · cases hc.symm.trans hcrossed
      · have hfrom : Around (p.Reaches t.surroundings) t := .start
        have h := (settles_equations hp rfl t hfrom).2
        rw [hstart] at h
        rcases h.of_error with hfails | hcaught
        · exact .error (.inl hfails)
        · obtain ⟨o, ho⟩ := ok_of_start (n := n) (s := s) (l := l) hp hstart hcaught
          cases hr.symm.trans ho
    | failed head step =>
      have h := hstep head
      rw [step] at h
      exact .error (h.of_error.imp_right fun hover => ⟨_, _, _, head, hover⟩)

/-- What holds of every run and search if the step is too short after `K` times. -/
structure Bounded (σ : Type) (n : Newton α) (K : Nat) : Prop where
  searches : ∀ (p : Problem σ α) (x d : List α) (merit₀ slope : α) (patience : Nat)
    (trial : Option (List (Row α))), Costs (search n p x d merit₀ slope patience 1 trial) K 0
  runs : ∀ (s : Setting α) (p : Problem σ α) (l : Limits α),
    Costs (run n s p l) (1 + l.iterations.toNat * K) l.iterations.toNat
  ends : ∀ (s : Setting α) (p : Problem σ α) (l : Limits α) (t : Trace σ α), s.Sized → p.Sized →
    K ≤ s.patience → Settled (Breaks n s p l t K) Output.Coded (run n s p l t).1

theorem bounded_of_stepsLike {b m : ℝ} (hshort : K ∈ shortAfter b m) (hn : StepsLike n b m K) :
    Bounded σ n K := by
  obtain ⟨hpos, hpow⟩ := hshort
  have hK : backs n K < n.minStep := (hn K hpos (Nat.le_refl K)).2 hpow
  exact {
    searches p x d merit₀ slope patience trial :=
      costs_search hK p x d merit₀ slope patience hpos trial
    runs := costs_run hK hpos
    ends s p l t hs hp hpatience := settled_run hp hs hK hpos hpatience l t }

/-- For every factor below one there is a least number of times after which the step is too short.
It bounds the calls of each search and of the run, and the run ends. -/
theorem bounded_of_steps {b m : ℝ} (hb : 0 < b) (hb' : b < 1) (hm : 0 < m) :
    (∃ K, IsLeast (shortAfter b m) K) ∧
      ∀ K, IsLeast (shortAfter b m) K → (∀ n : Newton α, StepsLike n b m K → Bounded σ n K) ∧
        ∀ n : Newton Exact, n.beta = .real b → n.minStep = .real m → Bounded σ n K := by
  refine ⟨exists_shortAfter hb hb' hm, fun K hleast => ⟨fun n hn => ?_, fun n hbeta hmin => ?_⟩⟩
  · exact bounded_of_stepsLike hleast.1 hn
  · exact bounded_of_stepsLike hleast.1 (stepsLike_real hbeta hmin K)

end Newton

/-! ## The standard method -/

namespace Linear

theorem length_of_eliminate {n : Nat} {rows : List (List α)} {xs : List α}
    (h : eliminate n rows = some xs) : xs.length = n := by
  induction n generalizing rows xs with
  | zero =>
    cases h
    rfl
  | succ n ih =>
    rw [eliminate] at h
    obtain ⟨⟨pivot, rest⟩, -, h⟩ := Option.bind_eq_some_iff.1 h
    simp only at h
    split at h
    · cases h
    · obtain ⟨ys, hys, h⟩ := Option.bind_eq_some_iff.1 h
      cases h
      rw [List.length_cons, ih hys]

theorem length_of_solve {rows : List (List α)} {right xs : List α}
    (h : solve rows right = some xs) : xs.length = rows.length := length_of_eliminate h

end Linear

namespace Newton

theorem isLeast_forty : IsLeast (shortAfter (1 / 2) (1 / 10 ^ 12)) 40 := by
  refine ⟨⟨by norm_num, by norm_num⟩, fun k ⟨_, hk⟩ => ?_⟩
  by_contra hlt
  have hle : ((1 : ℝ) / 2) ^ 39 ≤ (1 / 2) ^ k :=
    pow_le_pow_of_le_one (by norm_num) (by norm_num) (by omega)
  have hlong : (1 : ℝ) / 10 ^ 12 < (1 / 2) ^ 39 := by norm_num
  linarith

theorem stepsLike_standard : StepsLike (standard : Newton Float) (1 / 2) (1 / 10 ^ 12) 40 := by
  have hlong : ∀ k < 40, ¬ backs (standard : Newton Float) k < standard.minStep := by
    decide +kernel
  have hshort : backs (standard : Newton Float) 40 < standard.minStep := by decide +kernel
  intro k hpos hk
  rcases Nat.lt_or_eq_of_le hk with hlt | rfl
  · refine iff_of_false (hlong k hlt) fun h => ?_
    exact absurd (isLeast_forty.2 ⟨hpos, h⟩) (Nat.not_le_of_lt hlt)
  · exact iff_of_true hshort isLeast_forty.1.2

theorem sized_plainSetting : plainSetting.Sized := fun _ _ _ h => Linear.length_of_solve h

def cliff (height : Float) : Problem Unit Float where
  lower := [-Double.infinity, -Double.infinity]
  upper := [Double.infinity, Double.infinity]
  start := [0, 0]
  value x := pure (.vector [height + (x.getD 0 0).sqrt, x.getD 1 0])
  jacobian _ := pure (.dense [[1e-150, 0], [1e-150, 0]])
  vars := []
  residuals := []

theorem sized_cliff (height : Float) : (cliff height).Sized := ⟨rfl, rfl⟩

theorem not_fails_cliff (height : Float) (e : Error) : ¬ (cliff height).Fails () e := by
  intro h
  cases h with
  | value _ _ raised _ => cases raised
  | valueShape _ _ answered wrong =>
    cases answered
    exact wrong (by simp [Grid.vector, cliff, Problem.size])
  | jacobian _ _ raised => cases raised
  | jacobianShape _ _ answered wrong =>
    cases answered
    exact wrong ⟨rfl, by simp [cliff, Jacobian.toRows, Problem.size]⟩

/-- From a high cliff no step leads on, and the run ends with a code. -/
theorem cliff_bounded :
    valueCalls (run standard plainSetting (cliff 1e140) plainLimits ⟨(), []⟩).2 = 1 + 40 ∧
    Costs (run standard plainSetting (cliff 1e140) plainLimits) (1 + 3 * 40) 3 ∧
      ∃ o, (run standard plainSetting (cliff 1e140) plainLimits ⟨(), []⟩).1 = .ok o ∧
        o.Coded := by
  have hbounded : Bounded Unit (standard : Newton Float) 40 :=
    ((bounded_of_steps (by norm_num) (by norm_num) (by norm_num)).2 40 isLeast_forty).1 standard
      stepsLike_standard
  have hpatience : 40 ≤ plainSetting.patience := by simp [plainSetting]
  have hends := hbounded.ends plainSetting (cliff 1e140) plainLimits ⟨(), []⟩
    sized_plainSetting (sized_cliff 1e140) hpatience
  have hcosts := hbounded.runs plainSetting (cliff 1e140) plainLimits
  have hthree : plainLimits.iterations.toNat = 3 := rfl
  rw [hthree] at hcosts
  obtain ⟨hcalls, hrun⟩ :
      valueCalls (run standard plainSetting (cliff 1e140) plainLimits ⟨(), []⟩).2 = 1 + 40 ∧
        (run standard plainSetting (cliff 1e140) plainLimits ⟨(), []⟩).1.isOk = true := by
    decide +kernel
  refine ⟨hcalls, hcosts, ?_⟩
  revert hends hrun
  generalize (run standard plainSetting (cliff 1e140) plainLimits ⟨(), []⟩).1 = r
  intro hends hrun
  cases r with
  | error e => cases hrun
  | ok o => exact ⟨o, rfl, hends.of_ok⟩

/-- From a higher one the merit is infinite: the first trial meets the bound without equations, and
the run breaks down. -/
theorem cliff_breaks_down :
    (∀ e, ¬ (cliff 1e160).Fails () e) ∧
      (run standard plainSetting (cliff 1e160) plainLimits ⟨(), []⟩).1 = .error .noTrial := by
  refine ⟨not_fails_cliff 1e160, ?_⟩
  have h : ((run standard plainSetting (cliff 1e160) plainLimits ⟨(), []⟩).1
      matches .error .noTrial) = true := by
    decide +kernel
  revert h
  generalize (run standard plainSetting (cliff 1e160) plainLimits ⟨(), []⟩).1 = r
  intro h
  split at h
  · rfl
  · cases h

end Newton

end Equilibria
