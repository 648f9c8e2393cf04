import Mathlib.Data.List.Perm.Subperm
import Equilibria.Model.Solve
import Equilibria.Proofs.Expressions
import Equilibria.Proofs.Registries

/-!
# What a solve checks

A model is good for a solver if its pairs join all components and no others, no bounds are crossed
and all references are known. Otherwise it is refused, for the first of these that fails and with
all that is at fault there.
-/

namespace Equilibria

open Fallible

/-! ## Keys that are left out -/

namespace Key

def missing (keys others : List Key) : List Key := keys.filter (!others.contains ·)

theorem missing_eq_nil {keys others : List Key} :
    missing keys others = [] ↔ ∀ k ∈ keys, others.contains k = true := by
  simp [missing]

theorem Proper.length_le {keys others : List Key} (h : Proper keys)
    (hc : ∀ k ∈ keys, others.contains k = true) : keys.length ≤ others.length := by
  have hnodup : (keys.map form).Nodup := by
    refine List.pairwise_map.2 (h.distinct.imp fun {a b} hne heq => ?_)
    rw [beq_iff.2 heq] at hne
    cases hne
  have hsub : keys.map form ⊆ others.map form := by
    intro x hx
    obtain ⟨k, hk, rfl⟩ := List.mem_map.1 hx
    obtain ⟨a, ha, hak⟩ := contains_iff.1 (hc k hk)
    rw [← beq_iff.1 hak]
    exact List.mem_map_of_mem ha
  have hle := (hnodup.subperm hsub).length_le
  rwa [List.length_map, List.length_map] at hle

theorem Proper.length_eq {keys others : List Key} (h : Proper keys) (h' : Proper others)
    (hc : ∀ k ∈ keys, others.contains k = true) (hc' : ∀ k ∈ others, keys.contains k = true) :
    keys.length = others.length :=
  Nat.le_antisymm (h.length_le hc) (h'.length_le hc')

end Key

theorem first_or_none {β : Type} (p : β → Bool) (xs : List β) :
    (∀ x ∈ xs, p x = false) ∨ ∃ before x after, xs = before ++ x :: after ∧
      (∀ y ∈ before, p y = false) ∧ p x = true := by
  cases h : xs.find? p with
  | none => exact .inl (by simpa using h)
  | some x =>
    obtain ⟨hx, before, after, hxs, hbefore⟩ := List.find?_eq_some_iff_append.1 h
    exact .inr ⟨before, x, after, hxs, by simpa using hbefore, hx⟩

/-! ## Pairs -/

namespace Pairing

open Key (missing)

variable {t : Pairing} {vars residuals : List Key}

theorem checkComplete_eq (hv : Key.Proper vars) (hr : Key.Proper residuals) :
    t.checkComplete vars (some residuals) =
      match missing vars t.vars, missing residuals t.residuals with
      | [], [] =>
        match missing t.vars vars, missing t.residuals residuals with
        | [], [] => .ok ()
        | vs, rs => .error (.unregistered vs rs)
      | vs, rs => .error (.unpaired vs rs) := by
  have hf : (vars.all Key.isFixed && residuals.all Key.isFixed) = true := by
    simp only [Bool.and_eq_true, List.all_eq_true]
    exact ⟨hv.fixed, hr.fixed⟩
  simp only [checkComplete, Option.getD_some, Option.elim_some, hf, Bool.not_true,
    Bool.false_eq_true, if_false]
  rfl

theorem checkComplete_unpaired (hv : Key.Proper vars) (hr : Key.Proper residuals)
    (h : ¬ (missing vars t.vars = [] ∧ missing residuals t.residuals = [])) :
    t.checkComplete vars (some residuals) =
      .error (.unpaired (missing vars t.vars) (missing residuals t.residuals)) := by
  rw [checkComplete_eq hv hr]
  split
  · rename_i hvs hrs
    exact absurd ⟨hvs, hrs⟩ h
  · rfl

theorem checkComplete_unregistered (hv : Key.Proper vars) (hr : Key.Proper residuals)
    (hvs : missing vars t.vars = []) (hrs : missing residuals t.residuals = [])
    (h : ¬ (missing t.vars vars = [] ∧ missing t.residuals residuals = [])) :
    t.checkComplete vars (some residuals) =
      .error (.unregistered (missing t.vars vars) (missing t.residuals residuals)) := by
  rw [checkComplete_eq hv hr, hvs, hrs]
  simp only
  split
  · rename_i hus hws
    exact absurd ⟨hus, hws⟩ h
  · rfl

theorem checkComplete_ok (hv : Key.Proper vars) (hr : Key.Proper residuals)
    (hvs : missing vars t.vars = []) (hrs : missing residuals t.residuals = [])
    (hus : missing t.vars vars = []) (hws : missing t.residuals residuals = []) :
    t.checkComplete vars (some residuals) = .ok () := by
  rw [checkComplete_eq hv hr, hvs, hrs, hus, hws]

end Pairing

variable {α : Type}

/-! ## Bounds -/

variable [Scalar α]

theorem Registry.checkBounds_ok {r : Registry α} (h : ∀ v ∈ r.vars, isCrossed v = false) :
    r.checkBounds = .ok () := by
  have hnone : r.vars.find? isCrossed = none := by simpa using h
  rw [checkBounds, hnone]

theorem Registry.checkBounds_crossed {r : Registry α} {before after : List (Variable α)}
    {v : Variable α} (hvars : r.vars = before ++ v :: after)
    (hbefore : ∀ w ∈ before, isCrossed w = false) (hv : isCrossed v = true) :
    r.checkBounds =
      .error (.boundsCrossed v.key (Scalar.toFloat v.lower) (Scalar.toFloat v.upper)) := by
  have hfirst : r.vars.find? isCrossed = some v :=
    List.find?_eq_some_iff_append.2 ⟨hv, before, after, hvars, by simpa using hbefore⟩
  rw [checkBounds, hfirst]

/-! ## References -/

namespace Residuals

open Key (missing)

omit [Scalar α] in
theorem foreign_eq (known : List Key) (e : Expr α) :
    foreign known e = (missing e.vars known).mergeSort fun a b => a.toText ≤ b.toText := rfl

omit [Scalar α] in
theorem checkReferences_ok {r : Residuals α} {known : List Key}
    (h : ∀ f ∈ r.items, missing f.expr.vars known = []) : r.checkReferences known = .ok () := by
  unfold checkReferences
  revert h
  induction r.items with
  | nil => exact fun _ => rfl
  | cons f rest ih =>
    intro h
    rw [List.forM, foreign_eq, h f List.mem_cons_self, List.mergeSort_nil]
    exact ih fun g hg => h g (List.mem_cons_of_mem _ hg)

omit [Scalar α] in
theorem checkReferences_foreign {r : Residuals α} {known : List Key}
    {before after : List (Residual α)} {f : Residual α} (hitems : r.items = before ++ f :: after)
    (hbefore : ∀ g ∈ before, missing g.expr.vars known = [])
    (hf : missing f.expr.vars known ≠ []) :
    r.checkReferences known = .error (.foreign f.key (foreign known f.expr)) := by
  unfold checkReferences
  rw [hitems]
  clear hitems
  induction before with
  | nil =>
    have hne : foreign known f.expr ≠ [] := by
      intro hnil
      have hlength := congrArg List.length hnil
      rw [foreign_eq, List.length_mergeSort] at hlength
      exact hf (List.eq_nil_of_length_eq_zero hlength)
    rw [List.nil_append, List.forM]
    split
    · rename_i hnil
      exact absurd hnil hne
    · rfl
  | cons g rest ih =>
    rw [List.cons_append, List.forM, foreign_eq known g.expr, hbefore g List.mem_cons_self,
      List.mergeSort_nil]
    exact ih fun a ha => hbefore a (List.mem_cons_of_mem _ ha)

end Residuals

namespace Model

open Key (missing)

/-! ## Refusals -/

/-- Every component is in a pair. -/
structure Complete (m : Model α) : Prop where
  paired : ∀ k ∈ m.registry.keys, m.pairing.vars.contains k = true
  residualsPaired : ∀ k ∈ m.residuals.keys, m.pairing.residuals.contains k = true

/-- Every pair is one of registered components. -/
structure Registered (m : Model α) : Prop where
  known : ∀ k ∈ m.pairing.vars, m.registry.keys.contains k = true
  residualsKnown : ∀ k ∈ m.pairing.residuals, m.residuals.keys.contains k = true

/-- The pairs join all components and no others, no bounds are crossed, and residuals read
registered variables only. -/
structure Valid (m : Model α) : Prop extends m.Complete, m.Registered where
  bounds : ∀ v ∈ m.registry.vars, Registry.isCrossed v = false
  references : ∀ f ∈ m.residuals.items, ∀ k ∈ f.expr.vars, m.registry.keys.contains k = true

/-- The reason why a model is refused, with the components at fault. -/
inductive Refusal (m : Model α) : Error → Prop where
  | unpaired (some : ¬ m.Complete) :
    Refusal m (.unpaired (missing m.registry.keys m.pairing.vars)
      (missing m.residuals.keys m.pairing.residuals))
  | unregistered (paired : m.Complete) (some : ¬ m.Registered) :
    Refusal m (.unregistered (missing m.pairing.vars m.registry.keys)
      (missing m.pairing.residuals m.residuals.keys))
  | crossed (paired : m.Complete) (known : m.Registered) (before after : List (Variable α))
    (v : Variable α) (split : m.registry.vars = before ++ v :: after)
    (sound : ∀ w ∈ before, Registry.isCrossed w = false) (crossed : Registry.isCrossed v = true) :
    Refusal m (.boundsCrossed v.key (Scalar.toFloat v.lower) (Scalar.toFloat v.upper))
  | foreign (paired : m.Complete) (known : m.Registered)
    (bounds : ∀ v ∈ m.registry.vars, Registry.isCrossed v = false)
    (before after : List (Residual α)) (f : Residual α)
    (split : m.residuals.items = before ++ f :: after)
    (sound : ∀ g ∈ before, ∀ k ∈ g.expr.vars, m.registry.keys.contains k = true)
    (foreign : ∃ k ∈ f.expr.vars, m.registry.keys.contains k = false) :
    Refusal m (.foreign f.key
      ((missing f.expr.vars m.registry.keys).mergeSort fun a b => a.toText ≤ b.toText))

theorem Refusal.family {m : Model α} {e : Error} (h : m.Refusal e) :
    e.family? = some .configuration := by
  cases h <;> rfl

omit [Scalar α] in
theorem complete_iff {m : Model α} : m.Complete ↔ missing m.registry.keys m.pairing.vars = [] ∧
    missing m.residuals.keys m.pairing.residuals = [] := by
  rw [Key.missing_eq_nil, Key.missing_eq_nil]
  exact ⟨fun h => ⟨h.paired, h.residualsPaired⟩, fun h => ⟨h.1, h.2⟩⟩

omit [Scalar α] in
theorem registered_iff {m : Model α} : m.Registered ↔
    missing m.pairing.vars m.registry.keys = [] ∧
      missing m.pairing.residuals m.residuals.keys = [] := by
  rw [Key.missing_eq_nil, Key.missing_eq_nil]
  exact ⟨fun h => ⟨h.known, h.residualsKnown⟩, fun h => ⟨h.1, h.2⟩⟩

theorem validate_eq {m : Model α} (hp : m.Complete) (hr : m.Registered) :
    m.validate = m.registry.checkBounds >>= fun _ => m.residuals.checkReferences m.registry.keys := by
  obtain ⟨hvs, hrs⟩ := complete_iff.1 hp
  obtain ⟨hus, hws⟩ := registered_iff.1 hr
  rw [validate, Pairing.checkComplete_ok m.registry.proper_keys m.residuals.proper_keys hvs hrs hus
    hws]
  rfl

theorem Valid.validate_ok {m : Model α} (h : m.Valid) : m.validate = .ok () := by
  rw [validate_eq h.toComplete h.toRegistered, Registry.checkBounds_ok h.bounds]
  exact Residuals.checkReferences_ok fun f hf => Key.missing_eq_nil.2 (h.references f hf)

theorem Refusal.validate_error {m : Model α} {e : Error} (h : m.Refusal e) :
    m.validate = .error e := by
  cases h with
  | unpaired hno =>
    rw [validate, Pairing.checkComplete_unpaired m.registry.proper_keys m.residuals.proper_keys
      (hno ∘ complete_iff.2)]
    rfl
  | unregistered hp hno =>
    obtain ⟨hvs, hrs⟩ := complete_iff.1 hp
    rw [validate, Pairing.checkComplete_unregistered m.registry.proper_keys m.residuals.proper_keys
      hvs hrs (hno ∘ registered_iff.2)]
    rfl
  | crossed hp hr before after v hsplit hbefore hv =>
    rw [validate_eq hp hr, Registry.checkBounds_crossed hsplit hbefore hv]
    rfl
  | foreign hp hr hb before after f hsplit hbefore hf =>
    obtain ⟨k, hk, hn⟩ := hf
    have hne : missing f.expr.vars m.registry.keys ≠ [] := by
      intro hnil
      rw [Key.missing_eq_nil.1 hnil k hk] at hn
      cases hn
    rw [validate_eq hp hr, Registry.checkBounds_ok hb]
    exact Residuals.checkReferences_foreign hsplit
      (fun g hg => Key.missing_eq_nil.2 (hbefore g hg)) hne

theorem valid_or_refusal (m : Model α) : m.Valid ∨ ∃ e, m.Refusal e := by
  by_cases hp : m.Complete
  · by_cases hr : m.Registered
    · rcases first_or_none Registry.isCrossed m.registry.vars with hb | ⟨before, v, after, hsplit,
        hbefore, hv⟩
      · -- The first residual with a foreign variable is the first one that leaves some out.
        let leaves (f : Residual α) : Bool := !(missing f.expr.vars m.registry.keys).isEmpty
        have hsound {f : Residual α} (h : leaves f = false) :
            ∀ k ∈ f.expr.vars, m.registry.keys.contains k = true := by
          simpa [leaves, Key.missing_eq_nil] using h
        rcases first_or_none leaves m.residuals.items with hf | ⟨before, f, after, hsplit, hbefore,
          hf⟩
        · exact .inl ⟨hp, hr, hb, fun f hm => hsound (hf f hm)⟩
        · have hforeign : ∃ k ∈ f.expr.vars, m.registry.keys.contains k = false := by
            simpa [leaves, missing] using hf
          exact .inr ⟨_, .foreign hp hr hb before after f hsplit
            (fun g hg => hsound (hbefore g hg)) hforeign⟩
      · exact .inr ⟨_, .crossed hp hr before after v hsplit hbefore hv⟩
    · exact .inr ⟨_, .unregistered hp hr⟩
  · exact .inr ⟨_, .unpaired hp⟩

theorem valid_of_validate {m : Model α} (h : m.validate = .ok ()) : m.Valid := by
  rcases m.valid_or_refusal with hv | ⟨e, he⟩
  · exact hv
  · cases h.symm.trans he.validate_error

end Model

end Equilibria
