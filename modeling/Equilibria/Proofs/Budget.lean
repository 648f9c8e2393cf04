import Mathlib.Algebra.Order.Archimedean.Basic
import Equilibria.Proofs.Equations

/-!
# How often a run calls

A line search calls the values once for each step that it tries, and the steps get too short after
a number of times that depends on the method alone. So there is a bound on the calls of a run,
whatever the callbacks answer.
-/

namespace Equilibria

open Calls

variable {σ α β γ : Type}

/-! ## Counting -/

namespace Tally

theorem count_foldl {count : Tally → Nat}
    (h : ∀ t (e : Event α), count (t.add e) = count t + count (add {} e)) (hz : count {} = 0)
    (events : List (Event α)) (t : Tally) :
    count (events.foldl add t) = count (ofEvents events) + count t := by
  induction events generalizing t with
  | nil => rw [ofEvents, List.foldl_nil, List.foldl_nil, hz, Nat.zero_add]
  | cons e rest ih =>
    rw [ofEvents, List.foldl_cons, List.foldl_cons, ih, ih (add {} e), h t e]
    omega

theorem values_cons (e : Event α) (events : List (Event α)) :
    (ofEvents (e :: events)).values = (ofEvents events).values + (add {} e).values :=
  count_foldl (fun _ e => by cases e <;> rfl) rfl events _

theorem jacobians_cons (e : Event α) (events : List (Event α)) :
    (ofEvents (e :: events)).jacobians = (ofEvents events).jacobians + (add {} e).jacobians :=
  count_foldl (fun _ e => by cases e <;> rfl) rfl events _

end Tally

namespace Run

def valueCalls (t : Trace σ α) : Nat := (Tally.ofEvents t.events).values

def jacobianCalls (t : Trace σ α) : Nat := (Tally.ofEvents t.events).jacobians

/-- A computation adds at most `m` to what is counted, whether it fails or not. -/
def Adds (count : Trace σ α → Nat) (c : Run σ α β) (m : Nat) : Prop :=
  ∀ t, count (c t).2 ≤ count t + m

namespace Adds

variable {count : Trace σ α → Nat} {c : Run σ α β} {m k : Nat}

theorem bind {f : β → Run σ α γ} (hc : Adds count c m) (hf : ∀ b, Adds count (f b) k) :
    Adds count (c >>= f) (m + k) := by
  intro t
  have hm := hc t
  rw [bind_apply]
  rcases hr : c t with ⟨e | b, t'⟩
  · rw [hr] at hm
    exact hm.trans (Nat.add_le_add_left (Nat.le_add_right m k) _)
  · have hk := hf b t'
    rw [hr] at hm
    simp only at hm ⊢
    omega

theorem tryCatch {handle : Error → Run σ α β} (hc : Adds count c m)
    (hh : ∀ e, Adds count (handle e) 0) : Adds count (MonadExcept.tryCatch c handle) m := by
  intro t
  have hm := hc t
  rw [tryCatch_apply]
  rcases hr : c t with ⟨e | b, t'⟩
  · have hz := hh e t'
    rw [hr] at hm
    exact hz.trans hm
  · rw [hr] at hm
    exact hm

end Adds

/-- A computation calls the values and the Jacobian at most so often. -/
structure Costs (c : Run σ α β) (values jacobians : Nat) : Prop where
  values : Adds valueCalls c values
  jacobians : Adds jacobianCalls c jacobians

namespace Costs

variable {c : Run σ α β} {f : β → Run σ α γ} {v w j k values jacobians : Nat}

theorem of_still (h : ∀ t, (c t).2 = t) : Costs c v j := by
  constructor <;> intro t <;> rw [h t] <;> exact Nat.le_add_right ..

theorem of_event (e : Event α) (h : ∀ t, (c t).2.events = e :: t.events)
    (hv : (Tally.add {} e).values = v) (hj : (Tally.add {} e).jacobians = j) : Costs c v j := by
  subst hv hj
  constructor
  · intro t
    rw [valueCalls, h t, Tally.values_cons]
    exact Nat.le_refl _
  · intro t
    rw [jacobianCalls, h t, Tally.jacobians_cons]
    exact Nat.le_refl _

theorem pure (b : β) : Costs (Pure.pure b : Run σ α β) v j := of_still fun _ => rfl

theorem throw (e : Error) : Costs (MonadExcept.throw e : Run σ α β) v j := of_still fun _ => rfl

theorem lift (x : Except Error β) : Costs (liftM x : Run σ α β) v j := of_still fun _ => rfl

theorem bind (hc : Costs c v j) (hf : ∀ b, Costs (f b) w k) (hvalues : v + w = values)
    (hjacobians : j + k = jacobians) : Costs (c >>= f) values jacobians := by
  subst hvalues hjacobians
  exact ⟨hc.values.bind fun b => (hf b).values, hc.jacobians.bind fun b => (hf b).jacobians⟩

theorem after (hc : Costs c 0 0) (hf : ∀ b, Costs (f b) w k) : Costs (c >>= f) w k :=
  hc.bind hf (Nat.zero_add w) (Nat.zero_add k)

theorem map (g : β → γ) (hc : Costs c v j) : Costs (g <$> c) v j := by
  rw [map_eq_pure_bind]
  exact hc.bind (fun _ => .pure _) (Nat.add_zero v) (Nat.add_zero j)

theorem tryCatch {handle : Error → Run σ α β} (hc : Costs c v j) (hh : ∀ e, Costs (handle e) 0 0) :
    Costs (MonadExcept.tryCatch c handle) v j :=
  ⟨hc.values.tryCatch fun e => (hh e).values, hc.jacobians.tryCatch fun e => (hh e).jacobians⟩

end Costs

theorem costs_iteration (size : α) : Costs (note (.iteration size) : Run σ α Unit) 0 0 :=
  .of_event (.iteration size) (fun _ => rfl) rfl rfl

theorem costs_singular : Costs (note .singular : Run σ α Unit) 0 0 :=
  .of_event .singular (fun _ => rfl) rfl rfl

theorem costs_notDescent : Costs (note .notDescent : Run σ α Unit) 0 0 :=
  .of_event .notDescent (fun _ => rfl) rfl rfl

variable [Scalar α]

theorem costs_equations (p : Problem σ α) (x : List α) : Costs (equations p x) 1 0 :=
  .of_event .valueCall (fun t => by rw [equations_apply]) rfl rfl

theorem costs_slopes (p : Problem σ α) (x : List α) (rows : List (Row α)) :
    Costs (slopes p x rows) 0 1 :=
  .of_event .jacobianCall (fun t => by rw [slopes_apply]) rfl rfl

end Run

namespace Newton

open Run

variable [Scalar α]

variable {n : Newton α} {p : Problem σ α}

theorem costs_evaluate? (p : Problem σ α) (x : List α) : Costs (evaluate? p x) 1 0 := by
  refine ((costs_equations p x).map some).tryCatch fun e => ?_
  split
  · exact .pure none
  · exact .throw _

theorem costs_direction (n : Newton α) (s : Setting α) (h : List (List α)) (phi grad : List α) :
    Costs (direction n s h phi grad : Run σ α (List α)) 0 0 := by
  unfold direction
  split
  · exact costs_singular.after fun _ => .pure _
  · split
    · exact .pure _
    · refine (Costs.lift _).after fun q => ?_
      split
      · exact costs_notDescent.after fun _ => .pure _
      · exact .pure _

/-! ## Steps -/

def backs (n : Newton α) : Nat → α
  | 0 => 1
  | k + 1 => backs n k * n.beta

/-- Up to the `K`-th time the steps compare with the shortest one as real numbers do. -/
def StepsLike (n : Newton α) (b m : ℝ) (K : Nat) : Prop :=
  ∀ k, 1 ≤ k → k ≤ K → (backs n k < n.minStep ↔ b ^ k < m)

/-- The numbers of times after which a step is too short. -/
def shortAfter (b m : ℝ) : Set Nat := {k | 1 ≤ k ∧ b ^ k < m}

theorem exists_shortAfter {b m : ℝ} (hb : 0 < b) (hb' : b < 1) (hm : 0 < m) :
    ∃ K, IsLeast (shortAfter b m) K := by
  obtain ⟨k, hk⟩ := exists_pow_lt_of_lt_one hm hb'
  have hsome : (shortAfter b m).Nonempty :=
    ⟨k + 1, Nat.le_add_left 1 k, (pow_le_pow_of_le_one hb.le hb'.le (Nat.le_succ k)).trans_lt hk⟩
  exact ⟨sInf (shortAfter b m), Nat.sInf_mem hsome, fun _ h => Nat.sInf_le h⟩

theorem stepsLike_real {n : Newton Exact} {b m : ℝ} (hb : n.beta = .real b)
    (hm : n.minStep = .real m) (K : Nat) : StepsLike n b m K := by
  have hback (k : Nat) : backs n k = .real (b ^ k) := by
    induction k with
    | zero => rw [backs, Exact.one_eq, pow_zero]
    | succ k ih => rw [backs, ih, hb, Exact.mul_real, pow_succ]
  intro k _ _
  rw [hback, hm, Exact.lt_real]

/-! ## Calls -/

variable {K : Nat}

theorem costs_search (hK : backs n K < n.minStep) (p : Problem σ α) (x d : List α)
    (merit₀ slope : α) (patience : Nat) {k : Nat} (hk : k < K) (trial : Option (List (Row α))) :
    Costs (search n p x d merit₀ slope patience (backs n k) trial) (K - k) 0 := by
  -- Each trial is one call, and after the one at `K - 1` the next step is too short.
  induction patience generalizing k trial with
  | zero => exact .throw _
  | succ patience ih =>
    unfold search
    simp only
    refine (costs_evaluate? p _).bind (fun rows => (?_ : Costs _ (K - (k + 1)) 0)) (by omega) rfl
    split
    · split
      · exact .pure _
      · exact .throw _
    · split
      · exact .pure _
      · rename_i hlong
        have hne : k + 1 ≠ K := by
          rintro rfl
          exact hlong hK
        have hnext : k + 1 < K := by omega
        exact ih hnext _

theorem costs_step (hK : backs n K < n.minStep) (hpos : 0 < K) (s : Setting α) (p : Problem σ α)
    (l : Limits α) (k : Nat) (i : Iterate α) : Costs (step n s p l k i) K 1 := by
  unfold step
  simp only
  refine (costs_iteration _).after fun _ => ?_
  split
  · exact .pure _
  split
  · exact .pure _
  refine (costs_slopes p i.x i.rows).bind (fun h => (?_ : Costs _ K 0)) (Nat.zero_add K) rfl
  split
  · exact .pure _
  split
  · exact .pure _
  refine (costs_direction n s h _ _).after fun d => ?_
  refine (costs_search hK p i.x d _ _ s.patience hpos i.trial).bind (fun r => (?_ : Costs _ 0 0))
    (by omega) rfl
  split
  · exact .pure _
  · exact .pure _

theorem costs_loop (hK : backs n K < n.minStep) (hpos : 0 < K) (s : Setting α) (p : Problem σ α)
    (l : Limits α) (left k : Nat) (i : Iterate α) :
    Costs (loop n s p l left k i) (left * K) left := by
  induction left generalizing k i with
  | zero => exact .pure _
  | succ left ih =>
    unfold loop
    refine (costs_step hK hpos s p l k i).bind (fun r => (?_ : Costs _ (left * K) left))
      (by rw [Nat.succ_mul, Nat.add_comm]) (Nat.add_comm 1 left)
    split
    · exact .pure _
    · exact ih _ _

theorem costs_run (hK : backs n K < n.minStep) (hpos : 0 < K) (s : Setting α) (p : Problem σ α)
    (l : Limits α) :
    Costs (run n s p l) (1 + l.iterations.toNat * K) l.iterations.toNat := by
  unfold run
  simp only
  refine (Costs.lift _).after fun crossed => ?_
  split
  · exact .pure _
  split
  · exact .pure _
  refine Costs.bind ?_ (fun r => (?_ : Costs _ (l.iterations.toNat * K) l.iterations.toNat))
    rfl (Nat.zero_add _)
  · refine ((costs_equations p p.start).map Except.ok).tryCatch fun e => ?_
    split
    · exact .pure _
    · exact .throw _
  · split
    · exact .pure _
    · exact costs_loop hK hpos s p l _ _ _

end Newton

end Equilibria
