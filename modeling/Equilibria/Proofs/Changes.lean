import Equilibria.Proofs.Families

/-!
# What building can change

An operation that builds a model, also one that fails, leaves it in one of a few ways: with another
catalog or other options, with new variables or edited ones, with new residuals, or with new pairs
of registered components. All that it keeps follows from these.
-/

namespace Equilibria

open Calls Fallible

variable {α : Type}

/-! ## Looking up -/

theorem Registry.contains_eq (r : Registry α) {k : Key} (hf : k.isFixed = true) :
    r.contains k = .ok (r.keys.contains k) := by
  rw [contains, position?, if_pos hf]
  refine congrArg Except.ok ?_
  rw [List.findIdx?_isSome, List.contains_eq_any_beq]
  exact congrArg (List.any _) (funext fun a => BEq.comm)

theorem Registry.of_contains {r : Registry α} {k : Key} {b : Bool} (h : r.contains k = .ok b) :
    r.keys.contains k = b := by
  cases hf : k.isFixed with
  | true => exact Except.ok.inj ((r.contains_eq hf).symm.trans h)
  | false =>
    rw [contains, position?, hf] at h
    cases h

theorem Residuals.of_contains {r : Residuals α} {k : Key} {b : Bool} (h : r.contains k = .ok b) :
    r.keys.contains k = b := by
  obtain ⟨f, hf, h⟩ := bind_eq_ok.1 h
  unfold find? at hf
  split at hf
  · cases hf
    cases h
    rw [List.isSome_find?, List.contains_eq_any_beq, keys, List.any_map]
    exact congrArg (List.any _) (funext fun a => BEq.comm)
  · cases hf

theorem Pairing.of_hasVariable {t : Pairing} {k : Key} {b : Bool} (h : t.hasVariable k = .ok b) :
    t.vars.contains k = b := by
  unfold hasVariable lookUp at h
  split at h
  · exact Except.ok.inj h
  · cases h

/-! ## Adding -/

theorem Residuals.of_addAll {r r' : Residuals α} {batch : List (Residual α)}
    (h : r.addAll batch = .ok r') : r'.items = r.items ++ batch ∧
      Key.Proper (batch.map (·.key)) ∧ ∀ f ∈ batch, r.keys.contains f.key = false := by
  unfold addAll at h
  split at h
  · rename_i hfree
    cases h
    obtain ⟨hb, hnew⟩ := Registry.proper_of_firstTaken? hfree
    exact ⟨rfl, hb, fun f hf => hnew f.key (List.mem_map_of_mem hf)⟩
  · cases h
  · cases h

theorem Residuals.contains_added {r r' : Residuals α} {batch : List (Residual α)}
    (h : r'.items = r.items ++ batch) {k : Key} (hk : k ∈ batch.map (·.key)) :
    r'.keys.contains k = true := by
  refine Key.contains_of_mem ?_
  rw [keys, h, List.map_append]
  exact List.mem_append_right _ hk

theorem Registry.of_add [Scalar α] {r r' : Registry α} {key : Key} {f : Variable.Fields}
    (h : r.add key f = .ok r') : ∃ v, Variable.make key f = .ok v ∧ r.addAll [v] = .ok r' := by
  obtain ⟨taken, -, h⟩ := bind_eq_ok.1 h
  split at h
  · cases h
  · exact bind_eq_ok.1 h

theorem Residuals.of_add [Scalar α] {r r' : Residuals α} {key : Key} {expr : Operand α}
    {description : Value} (h : r.add key expr description = .ok r') : ∃ f, r.addAll [f] = .ok r' ∧ f.key = key := by
  obtain ⟨taken, -, h⟩ := bind_eq_ok.1 h
  split at h
  · cases h
  · obtain ⟨f, hf, h⟩ := bind_eq_ok.1 h
    exact ⟨f, h, (Residual.of_make hf).1⟩

namespace Model

/-! ## Checks -/

theorem requireUnsolved_ok {m : Model α} (h : m.status = .unsolved) (action : String) :
    m.requireUnsolved action = .ok () := by
  rw [requireUnsolved, h]
  rfl

theorem known_of_requireRegistered {m : Model α} {residuals vars : List Key}
    (h : m.requireRegistered residuals vars = .ok ()) :
    (∀ k ∈ residuals, m.residuals.keys.contains k = true) ∧
      ∀ k ∈ vars, m.registry.keys.contains k = true := by
  obtain ⟨vs, hvs, h⟩ := bind_eq_ok.1 h
  obtain ⟨rs, hrs, h⟩ := bind_eq_ok.1 h
  split at h
  · rename_i hnil
    rw [Bool.and_eq_true, List.isEmpty_iff, List.isEmpty_iff] at hnil
    obtain ⟨rfl, rfl⟩ := hnil
    constructor
    · intro k hk
      obtain ⟨b, hb, hn⟩ := bind_eq_ok.1 (filterM_eq_nil hrs k hk)
      cases b with
      | true => exact Residuals.of_contains hb
      | false => cases hn
    · intro k hk
      obtain ⟨b, hb, hn⟩ := bind_eq_ok.1 (filterM_eq_nil hvs k hk)
      cases b with
      | true => exact Registry.of_contains hb
      | false => cases hn
  · cases h

theorem untaken_of_takenTargets {m : Model α} {targets : List Component}
    (h : m.takenTargets targets = .ok []) {c : Component} (hc : c ∈ targets) {k : Key}
    (hk : c.single = .ok k) : m.pairing.vars.contains k = false := by
  obtain ⟨taken, htaken, h⟩ := bind_eq_ok.1 h
  have hnil : taken = [] := List.eq_nil_of_length_eq_zero (length_of_mapM h).symm
  rw [hnil] at htaken
  have hfree := filterM_eq_nil htaken c hc
  rw [hk] at hfree
  exact Pairing.of_hasVariable hfree

theorem requireRegistered_ok {m : Model α} {vars : List Key}
    (h : ∀ k ∈ vars, m.registry.keys.contains k = true) : m.requireRegistered [] vars = .ok () := by
  have hknown : ∀ k ∈ vars, (do return !(← m.registry.contains k)) = Except.ok (ε := Error) false := by
    intro k hk
    have hfixed := m.registry.proper_keys.fixed_of_contains (h k hk)
    rw [m.registry.contains_eq hfixed, h k hk]
    rfl
  rw [requireRegistered, filterM_of_false hknown]
  rfl

theorem takenTargets_ok {m : Model α} {vars : List Key} (hf : ∀ k ∈ vars, k.isFixed = true)
    (h : ∀ k ∈ vars, m.pairing.vars.contains k = false) :
    m.takenTargets (vars.map .variable) = .ok [] := by
  have hfree : ∀ c ∈ vars.map Component.variable,
      (do m.pairing.hasVariable (← c.single)) = Except.ok (ε := Error) false := by
    intro c hc
    obtain ⟨k, hk, rfl⟩ := List.mem_map.1 hc
    change m.pairing.hasVariable k = _
    rw [Pairing.hasVariable, Pairing.lookUp, hf k hk, h k hk]
    rfl
  rw [takenTargets, filterM_of_false hfree]
  rfl

/-! ## Changes -/

variable {edits : List Variable.Edit} {m m' : Model α}

def Recataloged (m m' : Model α) : Prop := ∃ c, m' = { m with catalog := c }

theorem recataloged_addSet (h : m.Recataloged m') (s : IndexSet) :
    m.Recataloged (addSet s m').2 := by
  unfold addSet
  rw [get_bind]
  refine leaves_lift h fun _ _ => ?_
  refine leaves_lift h fun c _ => ⟨c, ?_⟩
  obtain ⟨_, rfl⟩ := h
  rfl

theorem recataloged_addSets (h : m.Recataloged m') (sets : List IndexSet) :
    m.Recataloged (addSets sets m').2 := by
  unfold addSets
  induction sets generalizing m' with
  | nil => exact h
  | cons s r ih =>
    rw [List.forM]
    exact leaves_bind (recataloged_addSet h s) fun _ _ h' => ih h'

variable [Scalar α]

/-- What a model can be after an operation that builds it and makes these edits. -/
inductive Change (edits : List Variable.Edit) (m : Model α) : Model α → Prop where
  | same : Change edits m m
  | catalog (c : Catalog) : Change edits m { m with catalog := c }
  | options (o : Options) : Change edits m { m with options := o }
  | extended (batch : List (Variable α)) (r : Registry α) (ok : m.registry.addAll batch = .ok r)
    (fresh : ∀ v ∈ batch, v.value = none) : Change edits m { m with registry := r }
  | edited (guard : String → Id (Except Error Unit)) (place : Nat) :
    Change edits m { m with registry := (Id.run (m.registry.editAll guard place edits)).2 }
  | residuals (batch : List (Residual α)) (r : Residuals α)
    (ok : m.residuals.addAll batch = .ok r) : Change edits m { m with residuals := r }
  | paired (residuals vars : List Key) (t : Pairing × List Pair)
    (knownResiduals : ∀ k ∈ residuals, m.residuals.keys.contains k = true)
    (knownVars : ∀ k ∈ vars, m.registry.keys.contains k = true)
    (ok : m.pairing.correspond residuals vars = .ok t) : Change edits m { m with pairing := t.1 }
  | complemented (batch : List (Residual α)) (r : Residuals α) (vars : List Key)
    (t : Pairing × List Pair) (added : m.residuals.addAll batch = .ok r)
    (knownVars : ∀ k ∈ vars, m.registry.keys.contains k = true)
    (ok : m.pairing.correspond (batch.map (·.key)) vars = .ok t) :
    Change edits m { m with residuals := r, pairing := t.1 }

structure Built (edits : List Variable.Edit) (m m' : Model α) : Prop where
  status : m'.status = m.status
  registry : m.registry.Rebuilt edits m'.registry

theorem Change.built (h : Change edits m m') : Built edits m m' := by
  cases h with
  | extended batch r ok fresh => exact ⟨rfl, .added batch r ok fresh⟩
  | edited guard place => exact ⟨rfl, .edited guard place⟩
  | _ => exact ⟨rfl, .same⟩

theorem Recataloged.change (h : m.Recataloged m') : Change edits m m' := by
  obtain ⟨c, rfl⟩ := h
  exact .catalog c

theorem change_addVariable (name : Value) (index : Option Value) (f : Variable.Fields)
    (m : Model α) : Change edits m (addVariable name index f m).2 := by
  unfold addVariable
  rw [get_bind]
  refine leaves_lift .same fun _ _ => ?_
  refine leaves_lift .same fun key _ => ?_
  refine leaves_lift .same fun r hr => ?_
  obtain ⟨v, hv, hr⟩ := Registry.of_add hr
  exact .extended [v] r hr (by simpa using (Variable.of_make hv).2)

theorem value_of_members {name : Value} {domains : List Value} {f : FamilyFields}
    {batch : List (Variable α)} (h : m.members name domains f = .ok batch) :
    ∀ v ∈ batch, v.value = none := by
  intro v hv
  obtain ⟨indices, -, h⟩ := bind_eq_ok.1 h
  obtain ⟨index, -, h⟩ := mem_of_mapM h hv
  obtain ⟨key, -, h⟩ := bind_eq_ok.1 h
  obtain ⟨lower, -, h⟩ := bind_eq_ok.1 h
  obtain ⟨upper, -, h⟩ := bind_eq_ok.1 h
  obtain ⟨start, -, h⟩ := bind_eq_ok.1 h
  exact (Variable.of_make h).2

theorem change_addVariables (name : Value) (domains : List Value) (f : FamilyFields)
    (m : Model α) : Change edits m (addVariables name domains f m).2 := by
  unfold addVariables
  rw [get_bind]
  refine leaves_lift .same fun _ _ => ?_
  refine leaves_lift .same fun batch hb => ?_
  exact leaves_lift .same fun r hr => .extended batch r hr (value_of_members hb)

theorem change_edit (place : Nat) (edits : List Variable.Edit) (m : Model α) :
    Change edits m (edit place edits m).2 :=
  .edited _ place

theorem change_editNamed (action : String) (c : Component) (edits : List Variable.Edit)
    (m : Model α) : Change edits m (editNamed action c edits m).2 := by
  unfold editNamed
  rw [get_bind]
  refine leaves_lift .same fun _ _ => ?_
  refine leaves_lift .same fun _ _ => ?_
  exact leaves_lift .same fun place _ => change_edit place edits m

theorem change_addExpression (name : Value) (expr : Operand α) (index : Option Value)
    (description : Value) (m : Model α) :
    Change edits m (addExpression name expr index description m).2 := by
  unfold addExpression
  rw [get_bind]
  refine leaves_lift .same fun _ _ => ?_
  refine leaves_lift .same fun _ _ => ?_
  refine leaves_lift .same fun r hr => ?_
  obtain ⟨f, hr, -⟩ := Residuals.of_add hr
  exact .residuals [f] r hr

theorem change_addExpressions (name : Value) (rule : ExprRule α) (domains : List Value)
    (description : Value) (m : Model α) :
    Change edits m (addExpressions name rule domains description m).2 := by
  unfold addExpressions
  rw [get_bind]
  refine leaves_lift .same fun _ _ => ?_
  refine leaves_lift .same fun _ _ => ?_
  refine leaves_lift .same fun batch _ => ?_
  exact leaves_lift .same fun r hr => .residuals batch r hr

theorem change_pair {residuals vars : List Key}
    (hr : ∀ k ∈ residuals, m.residuals.keys.contains k = true)
    (hv : ∀ k ∈ vars, m.registry.keys.contains k = true) :
    Change edits m (pair residuals vars m).2 := by
  unfold pair
  rw [get_bind]
  exact leaves_lift .same fun t ht => .paired residuals vars t hr hv ht

theorem change_correspond (residuals vars : Component) (m : Model α) :
    Change edits m (correspond residuals vars m).2 := by
  unfold correspond
  rw [get_bind]
  refine leaves_lift .same fun _ _ => ?_
  refine leaves_lift .same fun _ _ => ?_
  refine leaves_lift .same fun _ _ => ?_
  refine leaves_lift .same fun _ _ => ?_
  refine leaves_lift .same fun _ _ => ?_
  refine leaves_lift .same fun _ hknown => ?_
  obtain ⟨hr, hv⟩ := known_of_requireRegistered hknown
  exact change_pair hr hv

theorem change_complementFamily (source : Source α) {targets : Family Key} (name : Value)
    (hv : ∀ k ∈ targets.toList, m.registry.keys.contains k = true) :
    Change edits m (complementFamily source targets name m).2 := by
  unfold complementFamily
  rw [get_bind]
  split
  · refine leaves_lift .same fun _ hknown => ?_
    exact leaves_bind (change_pair (known_of_requireRegistered hknown).1 hv) fun _ _ h => h
  · refine leaves_lift .same fun batch hb => ?_
    refine leaves_lift .same fun r hr => ?_
    have hlist := toList_familyOf (name_of_residualsOf hb) (Residuals.of_addAll hr).2.1
    rw [set_bind, hlist]
    refine leaves_bind ?_ fun _ _ h => h
    unfold pair
    rw [get_bind]
    exact leaves_lift (.residuals batch r hr) fun t ht => .complemented batch r _ t hr hv ht

theorem change_complementOne (source : Source α) {target : Key} (name : Value)
    (hv : m.registry.keys.contains target = true) :
    Change edits m (complementOne source target name m).2 := by
  have hone : ∀ k ∈ [target], m.registry.keys.contains k = true := by simpa using hv
  unfold complementOne
  rw [get_bind]
  split
  · refine leaves_lift .same fun _ hknown => ?_
    exact leaves_bind (change_pair (known_of_requireRegistered hknown).1 hone) fun _ _ h => h
  · refine leaves_lift .same fun key _ => ?_
    refine leaves_lift .same fun r hr => ?_
    obtain ⟨f, hadd, rfl⟩ := Residuals.of_add hr
    rw [set_bind]
    refine leaves_bind ?_ fun _ _ h => h
    unfold pair
    rw [get_bind]
    exact leaves_lift (.residuals [f] r hadd) fun t ht => .complemented [f] r _ t hadd hone ht

theorem keysOf_variables (keys : List Key) : Component.keysOf (keys.map .variable) = .ok keys := by
  have hall : ∀ k ∈ keys, Component.single (.variable k) = .ok k := fun _ _ => rfl
  rw [Component.keysOf, List.mapM_map]
  refine (mapM_eq_map hall).trans ?_
  rw [List.map_id']

theorem change_complements (source : Source α) (target : Component) (name : Value) (m : Model α) :
    Change edits m (complements source target name m).2 := by
  unfold complements
  rw [get_bind]
  refine leaves_lift .same fun _ _ => ?_
  refine leaves_lift .same fun targets hitems => ?_
  refine leaves_lift .same fun keys hkeys => ?_
  refine leaves_lift .same fun _ hknown => ?_
  refine leaves_lift .same fun taken _ => ?_
  have hknown := (known_of_requireRegistered hknown).2
  split
  · split
    · cases hitems
      cases (keysOf_variables _).symm.trans hkeys
      exact change_complementFamily source name hknown
    · cases hitems
      cases hkeys
      exact change_complementOne source name (hknown _ (List.mem_singleton_self _))
    · cases hitems
      cases hkeys
      exact change_complementOne source name (hknown _ (List.mem_singleton_self _))
    · cases hitems
      cases hkeys
      exact change_complementOne source name (hknown _ (List.mem_singleton_self _))
    · exact .same
  · exact .same

theorem change_changeOptions (change : Options → Except Error Options) (m : Model α) :
    Change edits m (changeOptions change m).2 := by
  unfold changeOptions
  rw [get_bind]
  refine leaves_lift .same fun _ _ => ?_
  exact leaves_lift .same fun o _ => .options o

end Model

/-! ## Operations -/

namespace Operation

def isSolve : Operation α → Bool
  | .solve .. | .dispatch .. => true
  | _ => false

def isReset : Operation α → Bool
  | .reset => true
  | _ => false

/-- The operations that neither solve a model nor reset it. -/
def isBuilding (op : Operation α) : Bool := !op.isSolve && !op.isReset

theorem kind (op : Operation α) : op.isSolve = true ∨ op = .reset ∨ op.isBuilding = true := by
  cases op <;> simp [isBuilding, isSolve, isReset]

theorem isReset_of_isBuilding {op : Operation α} (h : op.isBuilding = true) :
    op.isReset = false := by
  simp [isBuilding] at h
  exact h.2

def edits : Operation α → List Variable.Edit
  | .setStart _ value => [.bound .start value]
  | .fix _ value => Variable.fixing value
  | .unfix _ lower upper => Variable.unfixing lower upper
  | .edit _ edits => edits
  | _ => []

variable [Scalar α]

/-- Building changes a model in one of these ways, also if it fails. -/
theorem change_step {op : Operation α} (h : op.isBuilding = true) (m : Model α) :
    m.Change op.edits (op.step m) := by
  cases op with
  | addSet s =>
    exact (leaves_bind (Model.recataloged_addSet ⟨m.catalog, rfl⟩ s) fun _ _ h => h).change
  | addSets sets =>
    exact (leaves_bind (Model.recataloged_addSets ⟨m.catalog, rfl⟩ sets) fun _ _ h => h).change
  | addVariable name index f => exact leaves_map _ (Model.change_addVariable name index f m)
  | addVariables name domains f => exact leaves_map _ (Model.change_addVariables name domains f m)
  | addExpression name e index d => exact leaves_map _ (Model.change_addExpression name e index d m)
  | addExpressions name rule domains d =>
    exact leaves_map _ (Model.change_addExpressions name rule domains d m)
  | correspond rs vs => exact leaves_map _ (Model.change_correspond rs vs m)
  | complements source target name =>
    exact leaves_map _ (Model.change_complements source target name m)
  | setOption name value => exact leaves_bind (Model.change_changeOptions _ m) fun _ _ h => h
  | setOptions entries => exact leaves_bind (Model.change_changeOptions _ m) fun _ _ h => h
  | loadOptions path text => exact leaves_bind (Model.change_changeOptions _ m) fun _ _ h => h
  | setStart c value => exact leaves_map _ (Model.change_editNamed _ c _ m)
  | fix c value => exact leaves_map _ (Model.change_editNamed _ c _ m)
  | unfix c lower upper => exact leaves_map _ (Model.change_editNamed _ c _ m)
  | edit place edits => exact leaves_map _ (Model.change_edit place edits m)
  | solve | dispatch | reset => cases h

theorem built_step {op : Operation α} (h : op.isBuilding = true) (m : Model α) :
    m.Built op.edits (op.step m) :=
  (change_step h m).built

end Operation

/-- A variable, a residual that is the variable, and their pair. -/
def onePair : List (Operation Float) :=
  [.addVariable (.text "x") none {},
    .addExpression (.text "F") (.expr (.ref ⟨"x", []⟩)) none (.text ""),
    .correspond (.key ⟨"F", []⟩) (.key ⟨"x", []⟩)]

end Equilibria
