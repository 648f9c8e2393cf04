import Equilibria.Proofs.Pairs

/-!
# Batches

An operation that adds components or pairs them checks all of them before it changes anything. If
it fails, for whatever reason and wherever in the batch, the model is what it was.
-/

namespace Equilibria

open Calls Fallible

variable {α : Type}

variable [Scalar α]

namespace Model

/-! ## Adding -/

theorem atomic_addVariable (name : Value) (index : Option Value) (f : Variable.Fields)
    (m : Model α) : Atomic (addVariable name index f) m := by
  unfold addVariable
  refine .get_bind (.lift_bind fun _ _ => ?_)
  refine .lift_bind fun _ _ => ?_
  exact .lift_bind fun _ _ => .of_ok rfl

theorem atomic_addVariables (name : Value) (domains : List Value) (f : FamilyFields)
    (m : Model α) : Atomic (addVariables name domains f) m := by
  unfold addVariables
  refine .get_bind (.lift_bind fun _ _ => ?_)
  refine .lift_bind fun _ _ => ?_
  exact .lift_bind fun _ _ => .of_ok rfl

theorem atomic_addExpression (name : Value) (expr : Operand α) (index : Option Value)
    (description : Value) (m : Model α) :
    Atomic (addExpression name expr index description) m := by
  unfold addExpression
  refine .get_bind (.lift_bind fun _ _ => ?_)
  refine .lift_bind fun _ _ => ?_
  exact .lift_bind fun _ _ => .of_ok rfl

theorem atomic_addExpressions (name : Value) (rule : ExprRule α) (domains : List Value)
    (description : Value) (m : Model α) :
    Atomic (addExpressions name rule domains description) m := by
  unfold addExpressions
  refine .get_bind (.lift_bind fun _ _ => ?_)
  refine .lift_bind fun _ _ => ?_
  refine .lift_bind fun _ _ => ?_
  exact .lift_bind fun _ _ => .of_ok rfl

/-! ## Pairing -/

omit [Scalar α] in
theorem atomic_pair (residuals vars : List Key) (m : Model α) : Atomic (pair residuals vars) m := by
  unfold pair
  exact .get_bind (.lift_bind fun _ _ => .of_ok rfl)

omit [Scalar α] in
theorem atomic_correspond (residuals vars : Component) (m : Model α) :
    Atomic (correspond residuals vars) m := by
  unfold correspond
  refine .get_bind (.lift_bind fun _ _ => ?_)
  refine .lift_bind fun _ _ => ?_
  refine .lift_bind fun _ _ => ?_
  refine .lift_bind fun _ _ => ?_
  refine .lift_bind fun _ _ => ?_
  exact .lift_bind fun _ _ => atomic_pair _ _ m

omit [Scalar α] in
theorem pair_ok {m : Model α} {residuals vars : List Key} (hl : residuals.length = vars.length)
    (hr : Key.Proper residuals) (hv : Key.Proper vars)
    (hnewr : ∀ k ∈ residuals, m.pairing.residuals.contains k = false)
    (hnewv : ∀ k ∈ vars, m.pairing.vars.contains k = false) :
    ∃ pairs m', pair residuals vars m = (.ok pairs, m') := by
  obtain ⟨t, pairs, ht⟩ := Pairing.correspond_ok hl hr hv hnewr hnewv
  refine ⟨pairs, { m with pairing := t }, ?_⟩
  unfold pair
  rw [get_bind, bind_apply, lift_apply, ht]
  rfl

theorem atomic_complementFamily {m : Model α} (h : m.Linked) (source : Source α)
    {targets : Family Key} (hp : Key.Proper targets.toList)
    (hfree : ∀ k ∈ targets.toList, m.pairing.vars.contains k = false) (name : Value) :
    Atomic (complementFamily source targets name) m := by
  unfold complementFamily
  refine .get_bind ?_
  split
  · refine .lift_bind fun _ _ => ?_
    exact (atomic_pair _ _ m).bind_ok fun _ _ => ⟨_, rfl⟩
  · refine .lift_bind fun batch hb => ?_
    refine .lift_bind fun r hr => ?_
    obtain ⟨hitems, hproper, hnew⟩ := Residuals.of_addAll hr
    have hlist := toList_familyOf (name_of_residualsOf hb) hproper
    have hlength : (batch.map (·.key)).length = targets.toList.length := by
      rw [List.length_map, length_of_mapM hb, Family.indices, Family.toList, List.length_map,
        List.length_map]
    have hunpaired : ∀ k ∈ batch.map (·.key), m.pairing.residuals.contains k = false := by
      intro k hk
      obtain ⟨f, hf, rfl⟩ := List.mem_map.1 hk
      exact h.unpaired (hnew f hf)
    obtain ⟨pairs, m', hpair⟩ := pair_ok (m := { m with residuals := r }) hlength hproper hp
      hunpaired hfree
    refine .of_ok (b := .family (familyOf (residualName name targets.name) batch)) ?_
    rw [set_bind, hlist, bind_apply, hpair]
    rfl

theorem atomic_complementOne {m : Model α} (h : m.Linked) (source : Source α) {target : Key}
    (hf : target.isFixed = true) (hfree : m.pairing.vars.contains target = false) (name : Value) :
    Atomic (complementOne source target name) m := by
  unfold complementOne
  refine .get_bind ?_
  split
  · refine .lift_bind fun _ _ => ?_
    exact (atomic_pair _ _ m).bind_ok fun _ _ => ⟨_, rfl⟩
  · refine .lift_bind fun key _ => ?_
    refine .lift_bind fun r hr => ?_
    obtain ⟨f, hadd, rfl⟩ := Residuals.of_add hr
    obtain ⟨-, hproper, hnew⟩ := Residuals.of_addAll hadd
    have htarget : Key.Proper [target] := .cons hf .nil (by simp)
    have hnewr : ∀ k ∈ [f.key], m.pairing.residuals.contains k = false := by
      simpa using h.unpaired (hnew f (List.mem_singleton_self f))
    have hnewv : ∀ k ∈ [target], m.pairing.vars.contains k = false := by simpa using hfree
    have hlength : [f.key].length = [target].length := rfl
    obtain ⟨pairs, m', hpair⟩ := pair_ok (m := { m with residuals := r }) hlength hproper htarget
      hnewr hnewv
    refine .of_ok (b := .one f.key) ?_
    rw [set_bind, bind_apply, hpair]
    rfl

variable (α) in
/-- A variable, or a family of variables as it was declared. -/
def IsTarget : Component → Prop
  | .variable _ => True
  | .vars g => Declared α g
  | _ => False

theorem atomic_complements {m : Model α} (h : m.Linked) (source : Source α) {target : Component}
    (ht : IsTarget α target) (name : Value) : Atomic (complements source target name) m := by
  unfold complements
  refine .get_bind (.lift_bind fun _ _ => ?_)
  refine .lift_bind fun targets hitems => ?_
  refine .lift_bind fun keys hkeys => ?_
  refine .lift_bind fun _ hknown => ?_
  refine .lift_bind fun taken htaken => ?_
  have hknown := (known_of_requireRegistered hknown).2
  split
  · rcases target with _ | k | _ | g | _ | _ | _
    · exact ht.elim
    · cases hitems
      have hone : Component.keysOf [.variable k] = .ok [k] := rfl
      cases hone.symm.trans hkeys
      have hfixed := m.registry.proper_keys.fixed_of_contains (hknown k (List.mem_singleton_self k))
      have hfree := untaken_of_takenTargets htaken (List.mem_singleton_self _) rfl
      exact atomic_complementOne h source hfixed hfree name
    · exact ht.elim
    · cases hitems
      cases (keysOf_variables g.toList).symm.trans hkeys
      have hfree : ∀ k ∈ g.toList, m.pairing.vars.contains k = false := by
        intro k hk
        exact untaken_of_takenTargets htaken (List.mem_map_of_mem hk) rfl
      exact atomic_complementFamily h source (Declared.proper ht) hfree name
    · exact ht.elim
    · exact ht.elim
    · exact ht.elim
  · exact .throw _

end Model

/-! ## Runs -/

namespace Operation

/-- The operations that add components or pair them. -/
def IsBatch : Operation α → Prop
  | .addVariable .. | .addVariables .. | .addExpression .. | .addExpressions .. | .correspond .. =>
    True
  | .complements _ target _ => Model.IsTarget α target
  | _ => False

theorem atomic_run {m : Model α} (h : m.Linked) {op : Operation α} (hop : op.IsBatch) :
    Atomic op.run m := by
  cases op with
  | addVariable name index f => exact (Model.atomic_addVariable name index f m).map _
  | addVariables name domains f => exact (Model.atomic_addVariables name domains f m).map _
  | addExpression name e index d => exact (Model.atomic_addExpression name e index d m).map _
  | addExpressions name rule domains d =>
    exact (Model.atomic_addExpressions name rule domains d m).map _
  | correspond rs vs => exact (Model.atomic_correspond rs vs m).map _
  | complements source target name => exact (Model.atomic_complements h source hop name).map _
  | _ => exact hop.elim

end Operation

/-- In every run an operation that adds or pairs components and fails leaves the model as it is. -/
theorem atomic_of_run (name description : String) (options : Options) (status : Status)
    (ops : List (Operation α)) (op : Operation α) (h : op.IsBatch) :
    let m := Operation.runAll (.empty name description options status) ops
    (∀ e, (op.run m).1 = .error e → op.step m = m) ∧
      ((op.step m).residuals ≠ m.residuals → ∃ y, (op.run m).1 = .ok y) := by
  intro m
  have hempty : (Model.empty name description options status : Model α).Linked := by
    intro k hk
    cases hk
  have hatomic := Operation.atomic_run (Operation.linked_runAll hempty ops) h
  refine ⟨hatomic, fun hne => ?_⟩
  cases hrun : (op.run m).1 with
  | ok y => exact ⟨y, rfl⟩
  | error e => exact absurd (congrArg Model.residuals (hatomic e hrun)) hne

/-! ## A batch that fails -/

def twoMembers : List (Operation Float) :=
  [.addVariables (.text "x") [.list [.int 1, .int 2]] {}]

def twoKeys : Family Key :=
  ⟨"Variable", "x", [([.int 1], ⟨"x", [.int 1]⟩), ([.int 2], ⟨"x", [.int 2]⟩)]⟩

theorem declared_twoKeys : Model.Declared Float twoKeys :=
  ⟨.empty "m" "" .empty .unsolved, .text "x", [.list [.int 1, .int 2]], {},
    ⟨"Variable", "x", [([.int 1], 0), ([.int 2], 1)]⟩, by rfl, by rfl⟩

def firstOnly : Model.ExprRule Float := fun index =>
  if index == [.int 1] then .ok (.plain (.int 0)) else .error .wrongType

/-- The rule fails for the second member, so the first one gets no residual. -/
theorem atomic_of_firstOnly :
    let m := Operation.runAll (.empty "m" "" .empty .unsolved) twoMembers
    let op : Operation Float := .complements (.rule firstOnly) (.vars twoKeys) .null
    ∃ e, (op.run m).1 = .error e ∧ op.step m = m ∧ m.registry.size = 2 := by
  intro m op
  have hfails : (op.run m).1.isOk = false := by decide +kernel
  have hsize : m.registry.size = 2 := by decide +kernel
  cases hrun : (op.run m).1 with
  | ok y =>
    rw [hrun] at hfails
    cases hfails
  | error e =>
    have hatomic := atomic_of_run "m" "" .empty .unsolved twoMembers op declared_twoKeys
    exact ⟨e, rfl, hatomic.1 e hrun, hsize⟩

end Equilibria
