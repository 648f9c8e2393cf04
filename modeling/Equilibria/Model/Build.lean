import Equilibria.Model.Basic
import Equilibria.Options.Document

/-!
# Building models

The operations that change an unsolved model. Each of them asks first whether the model may be
changed, and an operation on a batch of components checks all of it before it changes anything.
-/

namespace Equilibria.Model

variable {α : Type} [Scalar α]

/-! ## Sets -/

def addSet (s : IndexSet) : Call (Model α) Unit := do
  let m ← get
  m.requireUnsolved "add a set"
  set { m with catalog := ← m.catalog.add s }

/-- Adds sets one after the other. Those before a failure stay. -/
def addSets (sets : List IndexSet) : Call (Model α) Unit := sets.forM addSet

/-! ## Variables -/

def addVariable (name : Value) (index : Option Value) (f : Variable.Fields) :
    Call (Model α) Nat := do
  let m ← get
  m.requireUnsolved "add a variable"
  let key ← Key.make (some name) index
  set { m with registry := ← m.registry.add key f }
  return m.registry.size

abbrev Rule := List Value → Except Error Value

structure FamilyFields where
  lower : Rule := fun _ => .ok (.float 0.0)
  upper : Rule := fun _ => .ok .null
  start : Rule := fun _ => .ok (.float 0.0)
  description : Value := .text ""

def memberOf (name : Value) (f : FamilyFields) (index : List Value) :
    Except Error (Variable α) := do
  let key ← Key.make (some name) (some (.tuple index))
  let lower ← f.lower index
  let upper ← f.upper index
  let start ← f.start index
  Variable.make key ⟨lower, upper, start, f.description⟩

/-- The members of a family, one for each index of the product of the domains. -/
def members (m : Model α) (name : Value) (domains : List Value) (f : FamilyFields) :
    Except Error (List (Variable α)) := do
  (← m.catalog.product domains).mapM (memberOf name f)

/-- Adds a variable for each index of the product of the domains, all or none, and answers with
their places. -/
def addVariables (name : Value) (domains : List Value) (f : FamilyFields) :
    Call (Model α) (Family Nat) := do
  let m ← get
  m.requireUnsolved "add variables"
  let batch ← m.members name domains f
  set { m with registry := ← m.registry.addAll batch }
  let places := batch.zipIdx m.registry.size
  return .ofItems "Variable" name.toText (places.map fun p => (p.1.key.index, p.2))

/-- Makes edits of the variable at a place, as far as the model may be changed. -/
def edit (place : Nat) (edits : List Variable.Edit) : Call (Model α) Unit := do
  let m ← get
  let guard (action : String) := m.requireUnsolved action
  let (r, registry) := Id.run (m.registry.editAll guard place edits)
  set { m with registry := registry }
  r

def editNamed (action : String) (c : Component) (edits : List Variable.Edit) :
    Call (Model α) Unit := do
  let m ← get
  m.requireUnsolved action
  edit (← m.registry.position (← c.single)) edits

def setStart (c : Component) (value : Value) : Call (Model α) Unit :=
  editNamed "set start values" c [.bound .start value]

def fix (c : Component) (value : Option Value) : Call (Model α) Unit :=
  editNamed "fix variables" c (Variable.fixing value)

def unfix (c : Component) (lower upper : Value) : Call (Model α) Unit :=
  editNamed "unfix variables" c (Variable.unfixing lower upper)

/-! ## Residuals -/

def addExpression (name : Value) (expr : Operand α) (index : Option Value) (description : Value) :
    Call (Model α) Key := do
  let m ← get
  m.requireUnsolved "add an expression"
  let key ← Key.make (some name) index
  set { m with residuals := ← m.residuals.add key expr description }
  return key

abbrev ExprRule (α : Type) := List Value → Except Error (Operand α)

def residualsOf (name : Value) (rule : ExprRule α) (description : Value)
    (indices : List (List Value)) : Except Error (List (Residual α)) :=
  indices.mapM fun index => do
    let key ← Key.make (some name) (some (.tuple index))
    Residual.make key (← rule index) description

def familyOf (name : Value) (batch : List (Residual α)) : Family Key :=
  .ofItems "Residual" name.toText (batch.map fun r => (r.key.index, r.key))

/-- Adds a residual for each index of the product of the domains, all or none. -/
def addExpressions (name : Value) (rule : ExprRule α) (domains : List Value)
    (description : Value) : Call (Model α) (Family Key) := do
  let m ← get
  m.requireUnsolved "add expressions"
  let batch ← residualsOf name rule description (← m.catalog.product domains)
  set { m with residuals := ← m.residuals.addAll batch }
  return familyOf name batch

/-! ## Pairs -/

/-- Pairs keys without asking whether they are registered or the model may be changed. -/
def pair (residuals vars : List Key) : Call (Model α) (List Pair) := do
  let m ← get
  let (pairing, pairs) ← m.pairing.correspond residuals vars
  set { m with pairing := pairing }
  return pairs

def correspond (residuals vars : Component) : Call (Model α) (List Pair) := do
  let m ← get
  m.requireUnsolved "add correspondences"
  let residualItems ← residuals.items
  let variableItems ← vars.items
  let vs ← Component.keysOf variableItems
  let rs ← Component.keysOf residualItems
  m.requireRegistered rs vs
  pair rs vs

/-- What the residuals of new pairs are made of. -/
inductive Source (α : Type) where
  | operand (e : Operand α)
  | rule (f : ExprRule α)
  | residual (k : Key)
  | residuals (f : Family Key)

namespace Source

def toRule : Source α → ExprRule α
  | .rule f => f
  | _ => fun _ => .error .wrongType

def toOperand : Source α → Operand α
  | .operand e => e
  | .rule _ => .other "function"
  | .residual _ => .other "Residual"
  | .residuals _ => .other "ResidualArray"

end Source

inductive Paired where
  | one (k : Key)
  | family (f : Family Key)

/-- The variables among the targets that are paired already. A bare key is no variable. -/
def takenTargets (m : Model α) (targets : List Component) : Except Error (List Key) := do
  let taken ← targets.filterM fun c => do m.pairing.hasVariable (← c.single)
  taken.mapM fun c =>
    match c with
    | .key _ => .error .noAttribute
    | c => c.single

/-- The name for residuals, after the variable if none is given. -/
def residualName (name : Value) (variableName : String) : Value :=
  if Options.isNothing name then .text ("F_" ++ variableName) else name

/-- Pairs a family of variables with the members of a family of residuals, or with residuals
that a rule makes. -/
def complementFamily (source : Source α) (targets : Family Key) (name : Value) :
    Call (Model α) Paired := do
  let m ← get
  match source with
  | .residuals f =>
    m.requireRegistered f.toList []
    let _ ← pair f.toList targets.toList
    return .family f
  | source =>
    let name := residualName name targets.name
    let batch ← residualsOf name source.toRule (.text "") targets.indices
    set { m with residuals := ← m.residuals.addAll batch }
    let f := familyOf name batch
    let _ ← pair f.toList targets.toList
    return .family f

def complementOne (source : Source α) (target : Key) (name : Value) : Call (Model α) Paired := do
  let m ← get
  match source with
  | .residual k =>
    m.requireRegistered [k] []
    let _ ← pair [k] [target]
    return .one k
  | source =>
    let key ← Key.make (some (residualName name target.name)) (some (.tuple target.index))
    set { m with residuals := ← m.residuals.add key source.toOperand (.text "") }
    let _ ← pair [key] [target]
    return .one key

/-- Makes residuals and pairs them with the variables of a target. -/
def complements (source : Source α) (target : Component) (name : Value) :
    Call (Model α) Paired := do
  let m ← get
  m.requireUnsolved "add correspondences"
  let targets ← target.items
  m.requireRegistered [] (← Component.keysOf targets)
  match ← m.takenTargets targets with
  | [] =>
    match target with
    | .vars f => complementFamily source f name
    | .key k | .variable k | .residual k => complementOne source k name
    | _ => throw .noAttribute
  | taken => throw (.alreadyPaired taken [])

/-! ## Options -/

def changeOptions (change : Options → Except Error Options) : Call (Model α) Unit := do
  let m ← get
  m.requireUnsolved "set options"
  set { m with options := ← change m.options }

def setOption (name value : Value) : Call (Model α) Unit :=
  changeOptions fun o => o.withOption name value

def setOptions (entries : List (Value × Value)) : Call (Model α) Unit :=
  changeOptions fun o => o.mergeValue (.map entries)

def loadOptions (path text : String) : Call (Model α) Unit :=
  changeOptions fun o => do return o.merge (← Options.ofYaml path text)

end Equilibria.Model
