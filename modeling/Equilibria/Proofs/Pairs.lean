import Equilibria.Proofs.Locking

/-!
# What pairs join

Pairs are made of registered components only, so the residuals in them stay registered in every
run. A residual that is new to a model is in no pair, which is why it can always be paired.
-/

namespace Equilibria

open Calls Fallible

variable {α : Type}

/-! ## Pairing -/

namespace Pairing

theorem ext {t u : Pairing} (h : t.pairs = u.pairs) : t = u := by
  cases t
  cases u
  cases h
  rfl

theorem repeated_of_proper {taken keys : List Key} (hd : keys.Pairwise fun a b => (a == b) = false) :
    ∀ {seen : List Key}, (∀ k ∈ keys, taken.contains k = false ∧ seen.contains k = false) →
      repeated taken seen [] keys = [] := by
  induction keys with
  | nil => exact fun _ => rfl
  | cons k r ih =>
    intro seen hnew
    obtain ⟨hk, hr⟩ := List.pairwise_cons.1 hd
    obtain ⟨ht, hs⟩ := hnew k List.mem_cons_self
    rw [repeated, ht, hs]
    refine ih hr fun a ha => ?_
    obtain ⟨hta, hsa⟩ := hnew a (List.mem_cons_of_mem _ ha)
    refine ⟨hta, ?_⟩
    rw [List.contains_cons, hsa, Key.beq_false_symm (hk a ha)]
    rfl

theorem pairs_of_correspond {t t' : Pairing} {residuals vars : List Key} {pairs : List Pair}
    (h : t.correspond residuals vars = .ok (t', pairs)) :
    t'.pairs = t.pairs ++ List.zipWith Pair.mk residuals vars ∧
      residuals.length = vars.length := by
  unfold correspond at h
  split at h
  · rename_i hl
    split at h
    · split at h
      · cases h
        exact ⟨rfl, hl⟩
      · cases h
    · cases h
  · cases h

theorem of_correspond {t t' : Pairing} {residuals vars : List Key} {pairs : List Pair}
    (h : t.correspond residuals vars = .ok (t', pairs)) :
    t'.residuals = t.residuals ++ residuals := by
  obtain ⟨hpairs, hl⟩ := pairs_of_correspond h
  rw [Pairing.residuals, hpairs, List.map_append, map_res_zipWith hl]
  rfl

theorem correspond_ok {t : Pairing} {residuals vars : List Key}
    (hl : residuals.length = vars.length) (hr : Key.Proper residuals) (hv : Key.Proper vars)
    (hnewr : ∀ k ∈ residuals, t.residuals.contains k = false)
    (hnewv : ∀ k ∈ vars, t.vars.contains k = false) :
    ∃ t' pairs, t.correspond residuals vars = .ok (t', pairs) := by
  have hf : residuals.all Key.isFixed = true ∧ vars.all Key.isFixed = true :=
    ⟨List.all_eq_true.2 hr.fixed, List.all_eq_true.2 hv.fixed⟩
  have hrv : repeated t.vars [] [] vars = [] :=
    repeated_of_proper hv.distinct fun k hk => ⟨hnewv k hk, List.contains_nil⟩
  have hrr : repeated t.residuals [] [] residuals = [] :=
    repeated_of_proper hr.distinct fun k hk => ⟨hnewr k hk, List.contains_nil⟩
  unfold correspond
  rw [dif_pos hl, dif_pos hf]
  split
  · exact ⟨_, _, rfl⟩
  · rename_i h
    exact absurd hrr (h hrv)

end Pairing

namespace Model

/-! ## Registered residuals -/

/-- Every residual in a pair is registered. -/
def Linked (m : Model α) : Prop := ∀ k ∈ m.pairing.residuals, m.residuals.keys.contains k = true

theorem linked_empty (name description : String) (options : Options) (status : Status) :
    (empty name description options status : Model α).Linked := by
  intro k hk
  cases hk

theorem Linked.of_grown {m m' : Model α} (h : m.Linked) (hp : m'.pairing = m.pairing)
    {batch : List (Residual α)} (hr : m'.residuals.items = m.residuals.items ++ batch) :
    m'.Linked := by
  intro k hk
  rw [hp] at hk
  rw [Residuals.keys, hr, List.map_append, List.contains_append, Bool.or_eq_true]
  exact .inl (h k hk)

theorem Linked.of_paired {m m' : Model α} (h : m.Linked) {residuals vars : List Key}
    {t : Pairing × List Pair} (ht : m.pairing.correspond residuals vars = .ok t)
    (hr : ∀ k ∈ residuals, m.residuals.keys.contains k = true)
    (hp : m'.pairing = t.1) (hm : m'.residuals = m.residuals) : m'.Linked := by
  intro k hk
  rw [hp, Pairing.of_correspond ht] at hk
  rw [hm]
  rcases List.mem_append.1 hk with hk | hk
  · exact h k hk
  · exact hr k hk

theorem Linked.unpaired {m : Model α} (h : m.Linked) {k : Key}
    (hk : m.residuals.keys.contains k = false) : m.pairing.residuals.contains k = false := by
  cases hc : m.pairing.residuals.contains k with
  | false => rfl
  | true =>
    obtain ⟨a, ha, hak⟩ := Key.contains_iff.1 hc
    rw [Key.contains_of_contains (h a ha) hak] at hk
    cases hk

variable [Scalar α]

theorem Linked.of_change {edits : List Variable.Edit} {m m' : Model α} (h : m.Linked)
    (hc : Change edits m m') : m'.Linked := by
  cases hc with
  | same => exact h
  | catalog c => exact h
  | options o => exact h
  | extended batch r ok fresh => exact h
  | edited guard place => exact h
  | residuals batch r ok => exact h.of_grown rfl (Residuals.of_addAll ok).1
  | paired residuals vars t knownResiduals knownVars ok =>
    exact h.of_paired ok knownResiduals rfl rfl
  | complemented batch r vars t added knownVars ok =>
    have hitems := (Residuals.of_addAll added).1
    have hgrown : Linked { m with residuals := r } := h.of_grown rfl hitems
    exact hgrown.of_paired ok (fun k hk => Residuals.contains_added hitems hk) rfl rfl

theorem Linked.of_ending {solver : Solver α} {options : Options} {m m' : Model α}
    {r : Except Error (Solved α)} (h : m.Linked) (he : Ending solver options m (r, m')) :
    m'.Linked := by
  have hk := kept_of_ending he
  unfold Linked
  rw [hk.pairing, hk.residuals]
  exact h

end Model

/-! ## Runs -/

namespace Operation

variable [Scalar α]

/-- No operation leaves a pair of a residual that is not registered. -/
theorem linked_step {m : Model α} (h : m.Linked) (op : Operation α) : (op.step m).Linked := by
  rcases op.kind with hop | rfl | hop
  · obtain ⟨solver, options, r, he, -⟩ := ending_of_solve hop m
    exact h.of_ending he
  · exact h
  · exact h.of_change (change_step hop m)

theorem linked_runAll {m : Model α} (h : m.Linked) (ops : List (Operation α)) :
    (runAll m ops).Linked := by
  induction ops generalizing m with
  | nil => exact h
  | cons op rest ih => exact ih (linked_step h op)

end Operation

end Equilibria
