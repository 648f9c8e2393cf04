import Equilibria.Proofs.Locking

/-!
# The life of a model

A model has values only while it is solved, and then all of them. They come with a solve that
succeeds and go with a reset.
-/

namespace Equilibria

open Calls Fallible

variable {α : Type}

/-! ## Values of a registry -/

variable [Scalar α]

namespace Registry

theorem values_settled {r : Registry α} {xs : List (Key × α)}
    (hx : ∀ x ∈ xs, Scalar.isFinite x.2 = true)
    (hk : ∀ k ∈ r.keys, (xs.map (·.1)).contains k = true) :
    ∀ o ∈ (r.settled xs).values, ∃ x, o = some x ∧ Scalar.isFinite x = true := by
  intro o ho
  simp only [values, vars, settled, List.map_map] at ho
  obtain ⟨e, he, rfl⟩ := List.mem_map.1 ho
  obtain ⟨a, ha, hae⟩ := Key.contains_iff.1 (hk e.1 (List.mem_map_of_mem he))
  obtain ⟨x, hm, rfl⟩ := List.mem_map.1 ha
  cases hf : xs.find? (·.1 == e.1) with
  | none =>
    have := List.find?_eq_none.1 hf x hm
    rw [hae] at this
    exact absurd rfl this
  | some y =>
    refine ⟨y.2, ?_, hx y (List.mem_of_find?_eq_some hf)⟩
    simp only [Function.comp_apply, settle, hf]

omit [Scalar α] in
theorem values_clearValues (r : Registry α) : ∀ o ∈ r.clearValues.values, o = none := by
  intro o ho
  simp only [values, vars, clearValues, mapVariables, List.map_map] at ho
  obtain ⟨e, -, rfl⟩ := List.mem_map.1 ho
  rfl

omit [Scalar α] in
theorem tied_settled {r : Registry α} (h : r.Tied) (xs : List (Key × α)) :
    (r.settled xs).Tied := by
  rw [Tied, keys_settled, ← h]
  simp only [vars, settled, List.map_map]
  refine List.map_congr_left fun e _ => ?_
  simp only [Function.comp_apply, settle]
  split <;> rfl

omit [Scalar α] in
theorem tied_clearValues {r : Registry α} (h : r.Tied) : r.clearValues.Tied := by
  simpa [Tied, vars, keys, clearValues, mapVariables, Function.comp_def] using h

end Registry

namespace Model

/-! ## The invariant -/

/-- Values are there just as the status says. -/
structure Consistent (m : Model α) : Prop where
  unsolved : m.status = .unsolved → ∀ o ∈ m.registry.values, o = none
  paired : m.status = .solved → ∀ k ∈ m.registry.keys, m.pairing.hasVariable k = .ok true
  solved : m.status = .solved →
    ∀ o ∈ m.registry.values, ∃ x, o = some x ∧ Scalar.isFinite x = true

theorem consistent_empty (name description : String) (options : Options) :
    (empty (α := α) name description options .unsolved).Consistent where
  unsolved := by
    intro _ o ho
    cases ho
  paired := by
    intro h
    cases h
  solved := by
    intro h
    cases h

theorem Consistent.readable {m : Model α} (h : m.Consistent) (hs : m.status = .solved) :
    ∀ k ∈ m.registry.keys, ∃ x, m.getValue k = .ok x ∧ Scalar.isFinite x = true := by
  intro k hk
  obtain ⟨e, he, rfl⟩ := List.mem_map.1 hk
  obtain ⟨x, hx, hf⟩ := h.solved hs e.2.value (List.mem_map_of_mem (List.mem_map_of_mem he))
  refine ⟨x, ?_, hf⟩
  have hr : m.requireSolved = .ok () := by rw [requireSolved, hs]; rfl
  rw [getValue, hr, m.registry.get_eq he BEq.rfl]
  simp only [bind, Except.bind, hx]
  rfl

theorem consistent_of_failed {m : Model α} (h : m.status = .failed) : m.Consistent := by
  refine ⟨?_, ?_, ?_⟩
  · intro hs
    cases h.symm.trans hs
  · intro hs
    cases h.symm.trans hs
  · intro hs
    cases h.symm.trans hs

theorem consistent_of_ending {solver : Solver α} {options : Options} {m m' : Model α}
    {r : Except Error (Solved α)} (h : m.Consistent) (he : Ending solver options m (r, m')) :
    m'.Consistent := by
  cases he with
  | refused => exact h
  | failed => exact consistent_of_failed rfl
  | solved p o trace hp hr hk hx =>
    have hv := valid_of_posed hp
    refine ⟨fun hs => (by cases hs), ?_, ?_⟩
    · intro _ k hk
      rw [keys_found] at hk
      rw [pairing_found, Pairing.hasVariable, Pairing.lookUp, if_pos (m.registry.proper_keys.fixed k hk),
        hv.paired k hk]
    · intro _
      have hl := length_of_isProper hp hx
      refine Registry.values_settled ?_ ?_
      · intro x hm
        exact List.all_eq_true.1 (Bool.and_eq_true_iff.1 hx).2 x.2 (List.of_mem_zip hm).2
      · rw [List.map_fst_zip (by simp [hl])]
        exact hv.paired

theorem consistent_reset (m : Model α) : m.reset.Consistent where
  unsolved _ := m.registry.values_clearValues
  paired h := by cases h
  solved h := by cases h

end Model

namespace Operation

theorem consistent_step {m : Model α} (h : m.Consistent) (op : Operation α) :
    (op.step m).Consistent := by
  rcases op.kind with hs | rfl | hop
  · obtain ⟨solver, options, r, he, -⟩ := ending_of_solve hs m
    exact Model.consistent_of_ending h he
  · exact m.consistent_reset
  · have hb := built_step hop m
    obtain ⟨n, hn⟩ := hb.registry.values
    by_cases hm : m.status = .unsolved
    · have hm' := hb.status.trans hm
      refine ⟨?_, fun hs => ?_, fun hs => ?_⟩
      · intro _ o ho
        rw [hn, List.mem_append] at ho
        rcases ho with ho | ho
        · exact h.unsolved hm o ho
        · exact (List.mem_replicate.1 ho).2
      · cases hm'.symm.trans hs
      · cases hm'.symm.trans hs
    · -- A locked model gets no new variables, so there are no new values either.
      have hk := (kept_step hm (isReset_of_isBuilding hop)).1
      have hlen : n = 0 := by
        have := congrArg List.length hn
        have hl := congrArg List.length hk.registry.keys
        simp [Registry.values, Registry.vars, Registry.keys] at this hl
        omega
      subst hlen
      rw [List.replicate_zero, List.append_nil] at hn
      refine ⟨fun hs => absurd (hb.status.symm.trans hs) hm, fun hs => ?_, fun hs => ?_⟩
      · rw [hk.registry.keys, hk.pairing]
        exact h.paired (hb.status.symm.trans hs)
      · rw [hn]
        exact h.solved (hb.status.symm.trans hs)

theorem consistent_runAll {m : Model α} (h : m.Consistent) (ops : List (Operation α)) :
    (runAll m ops).Consistent := by
  induction ops generalizing m with
  | nil => exact h
  | cons op rest ih => exact ih (consistent_step h op)

def renames (op : Operation α) : Bool := op.edits.any (·.renames)

theorem tied_step {m : Model α} (h : m.registry.Tied) {op : Operation α}
    (hn : op.renames = false) : (op.step m).registry.Tied := by
  rcases op.kind with hs | rfl | hop
  · obtain ⟨solver, options, r, he, -⟩ := ending_of_solve hs m
    generalize op.step m = m' at he
    cases he with
    | refused => exact h
    | failed => exact h
    | solved => exact Registry.tied_settled h _
  · exact Registry.tied_clearValues h
  · exact (built_step hop m).registry.tied (by simpa [renames] using hn) h

theorem tied_runAll {m : Model α} (h : m.registry.Tied) {ops : List (Operation α)}
    (hn : ∀ op ∈ ops, op.renames = false) : (runAll m ops).registry.Tied := by
  induction ops generalizing m with
  | nil => exact h
  | cons op rest ih =>
    exact ih (tied_step h (hn op List.mem_cons_self)) fun o ho => hn o (List.mem_cons_of_mem _ ho)

/-! ## One operation -/

/-- The operation is a reset, or a solve that comes back with a success. -/
def Renews (op : Operation α) (m : Model α) : Prop :=
  op.isReset = true ∨ ∃ s, (op.run m).1 = .ok (.solved s) ∧ s.outcome.isOptimal = true

/-- What one operation does to the values and to the status. -/
structure Orderly (op : Operation α) (m : Model α) : Prop where
  values : ¬op.Renews m →
    ∃ n, (op.step m).registry.values = m.registry.values ++ List.replicate n none
  status : op.isSolve = true →
    (∃ e, op.run m = (.error e, m) ∧ e.family? = some .configuration) ∨
      ∃ s, (op.run m).1 = .ok (.solved s) ∧
        (op.step m).status = if s.outcome.isOptimal then .solved else .failed

theorem orderly (op : Operation α) (m : Model α) : op.Orderly m := by
  rcases op.kind with hs | rfl | hop
  · obtain ⟨solver, options, r, he, hr⟩ := ending_of_solve hs m
    have hstep : op.run m = ((op.run m).1, op.step m) := rfl
    rw [hr] at hstep
    refine ⟨fun hn => ?_, fun _ => ?_⟩
    · generalize op.step m = m' at he
      cases he with
      | refused => exact ⟨0, by simp⟩
      | failed => exact ⟨0, by simp⟩
      | solved p o trace hp hrun hk hx => exact absurd (.inr ⟨_, hr, hk⟩) hn
    · generalize op.step m = m' at he hstep
      cases he with
      | refused e hp hf => exact .inl ⟨e, hstep, hf⟩
      | failed p s scratch hp hk => exact .inr ⟨s, hr, by rw [hk]; rfl⟩
      | solved p o trace hp hrun hk hx => exact .inr ⟨_, hr, by rw [hk]; rfl⟩
  · exact ⟨fun hn => absurd (.inl rfl) hn, fun h => by cases h⟩
  · refine ⟨fun _ => (built_step hop m).registry.values, fun h => ?_⟩
    simp [isBuilding, h] at hop

end Operation

/-- In every run values and status go together, and operations change them only as they should. -/
theorem lifecycle_of_run (name description : String) (options : Options)
    (ops : List (Operation α)) :
    let m := Operation.runAll (.empty name description options .unsolved) ops
    m.Consistent ∧
      (m.status = .solved →
        ∀ k ∈ m.registry.keys, ∃ x, m.getValue k = .ok x ∧ Scalar.isFinite x = true) ∧
      ((∀ op ∈ ops, op.renames = false) → m.registry.Tied) ∧
      ∀ op : Operation α, op.Orderly m := by
  intro m
  have hc : m.Consistent :=
    Operation.consistent_runAll (Model.consistent_empty name description options) ops
  have ht : (Model.empty (α := α) name description options .unsolved).registry.Tied := rfl
  exact ⟨hc, hc.readable, Operation.tied_runAll ht, fun op => op.orderly m⟩

end Equilibria
