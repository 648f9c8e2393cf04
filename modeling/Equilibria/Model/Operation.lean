import Equilibria.Model.Build
import Equilibria.Model.Report
import Equilibria.Model.Solve

/-!
# Operations

The operations on a model as data, so that whole runs can be spoken of. An operation that fails
leaves a model as well: the run goes on from there.
-/

namespace Equilibria

inductive Operation (α : Type) where
  | addSet (s : IndexSet)
  | addSets (sets : List IndexSet)
  | addVariable (name : Value) (index : Option Value) (fields : Variable.Fields)
  | addVariables (name : Value) (domains : List Value) (fields : Model.FamilyFields)
  | addExpression (name : Value) (expr : Operand α) (index : Option Value) (description : Value)
  | addExpressions (name : Value) (rule : Model.ExprRule α) (domains : List Value)
      (description : Value)
  | correspond (residuals vars : Component)
  | complements (source : Model.Source α) (target : Component) (name : Value)
  | setOption (name value : Value)
  | setOptions (entries : List (Value × Value))
  | loadOptions (path text : String)
  | setStart (c : Component) (value : Value)
  | fix (c : Component) (value : Option Value)
  | unfix (c : Component) (lower upper : Value)
  | edit (place : Nat) (edits : List Variable.Edit)
  | solve (solver : Solver α) (given : Options)
  | dispatch (solver : Solver α) (options : Options)
  | reset

inductive Yield (α : Type) where
  | nothing
  | sets (names : List String)
  | variable (place : Nat)
  | vars (f : Family Nat)
  | residual (key : Key)
  | residuals (f : Family Key)
  | pairs (pairs : List Pair)
  | paired (p : Model.Paired)
  | options (o : Options)
  | edited (place : Nat)
  | solved (s : Model.Solved α)

namespace Operation

variable {α : Type} [Scalar α]

def thenOptions (c : Call (Model α) Unit) : Call (Model α) (Yield α) := do
  c
  return .options (← get).options

def thenSets (c : Call (Model α) Unit) : Call (Model α) (Yield α) := do
  c
  return .sets (← get).catalog.names

def run : Operation α → Call (Model α) (Yield α)
  | .addSet s => thenSets (Model.addSet s)
  | .addSets sets => thenSets (Model.addSets sets)
  | .addVariable name index fields => .variable <$> Model.addVariable name index fields
  | .addVariables name domains fields => .vars <$> Model.addVariables name domains fields
  | .addExpression name e index description =>
    .residual <$> Model.addExpression name e index description
  | .addExpressions name rule domains description =>
    .residuals <$> Model.addExpressions name rule domains description
  | .correspond residuals vars => .pairs <$> Model.correspond residuals vars
  | .complements source target name => .paired <$> Model.complements source target name
  | .setOption name value => thenOptions (Model.setOption name value)
  | .setOptions entries => thenOptions (Model.setOptions entries)
  | .loadOptions path text => thenOptions (Model.loadOptions path text)
  | .setStart c value => (fun _ => .nothing) <$> Model.setStart c value
  | .fix c value => (fun _ => .nothing) <$> Model.fix c value
  | .unfix c lower upper => (fun _ => .nothing) <$> Model.unfix c lower upper
  | .edit place edits => (fun _ => .edited place) <$> Model.edit place edits
  | .solve solver given => .solved <$> Model.solve solver given
  | .dispatch solver options => .solved <$> Model.dispatch solver options
  | .reset => (fun _ => .nothing) <$> modify Model.reset

/-- The model that an operation leaves, whether it fails or not. -/
def step (m : Model α) (op : Operation α) : Model α := (op.run m).2

/-- The model that a run of operations leaves. -/
def runAll (m : Model α) (ops : List (Operation α)) : Model α := ops.foldl step m

end Operation

/-! ## Reports -/

namespace Yield

variable {α : Type} [Scalar α]

def variableAt (m : Model α) (place : Nat) : Except Error (Variable α) :=
  match m.registry.at? place with
  | some v => .ok v
  | none => .error .noItem

def report (m : Model α) : Yield α → Except Error Report
  | .nothing | .solved _ => told .nothing
  | .sets names => told (.texts names)
  | .variable place => do told (← variableAt m place).toText
  | .vars f => do
    let vs ← f.toList.mapM (variableAt m)
    told (.record [("repr", f.toText), ("all", .texts (vs.map Variable.toText)),
      ("start", .each vs fun v => .exact v.start)])
  | .residual k => do told (← m.residuals.get k).toText
  | .residuals f => do
    let rs ← f.toList.mapM m.residuals.get
    told (.record [("repr", f.toText), ("all", .texts (rs.map Residual.toText))])
  | .pairs ps => told (Pair.reports ps)
  | .paired (.one k) => told k.toText
  | .paired (.family f) => told (.ofKeys f.toList)
  | .options o => .ok o.values
  | .edited place => do return (← variableAt m place).report
where
  told (r : Report) : Except Error Report := .ok (.record [("r", r), ("s", m.brief)])

end Yield

end Equilibria
