import Equilibria.Expr.Scope
import Equilibria.Model.Operation

/-!
# Workspaces

Several models side by side, under numbers, and handles for their components, under names. A
handle stays good when its model changes, also when the number is given to another model: it
holds the place of the variable or the key of the residual.
-/

namespace Equilibria

/-- A component of a model, several of them, or callbacks that were built from one. -/
inductive Handle (α : Type) where
  | variable (model place : Nat)
  | vars (f : Family (Nat × Nat))
  | residual (k : Key)
  | residuals (f : Family Key)
  | callbacks (model : Nat) (f : Flat α)

/-- A member of a family by its index, or without an index the handle itself. -/
def Handle.item {α : Type} (h : Handle α) : Option Value → Except Error (Handle α)
  | none => .ok h
  | some i =>
    match h with
    | .vars f => do
      let (model, place) ← f.get i.toIndex
      return .variable model place
    | .residuals f => do return .residual (← f.get i.toIndex)
    | _ => .error .wrongType

structure Workspace (α : Type) where
  models : List (Model α)
  numbers : List (Nat × Nat)
  handles : List (String × Handle α)

namespace Workspace

variable {α : Type} [Scalar α]

def empty : Workspace α := ⟨[], [], []⟩

/-! ## Models -/

def add (number : Nat) (m : Model α) : Call (Workspace α) Nat := do
  let w ← get
  let place := w.models.length
  set { w with models := w.models ++ [m], numbers := (number, place) :: w.numbers }
  return place

def absent : Error := .unbound ⟨"", []⟩

def placeOf (w : Workspace α) (number : Nat) : Except Error Nat :=
  match w.numbers.lookup number with
  | some place => .ok place
  | none => .error absent

def model (w : Workspace α) (place : Nat) : Except Error (Model α) :=
  match w.models[place]? with
  | some m => .ok m
  | none => .error absent

def on {β : Type} (place : Nat) (c : Call (Model α) β) : Call (Workspace α) β := do
  let w ← get
  let (r, m) := c (← w.model place)
  set { w with models := w.models.set place m }
  r

/-! ## Handles -/

def keep (w : Workspace α) (name : String) (h : Handle α) : Workspace α :=
  { w with handles := (name, h) :: w.handles }

def handle (w : Workspace α) (name : String) (index : Option Value) :
    Except Error (Handle α) := do
  match w.handles.lookup name with
  | some h => h.item index
  | none => throw absent

def variableAt (w : Workspace α) (model place : Nat) : Except Error (Variable α) := do
  match (← w.model model).registry.at? place with
  | some v => return v
  | none => throw absent

def family (w : Workspace α) : Handle α → Except Error (Family Key)
  | .vars f => do
    let items ← f.items.mapM fun (i, m, p) => do return (i, (← w.variableAt m p).key)
    return ⟨f.kind, f.name, items⟩
  | .residuals f => .ok f
  | _ => .error .wrongType

def component (w : Workspace α) : Handle α → Except Error Component
  | .variable m p => do return .variable (← w.variableAt m p).key
  | .residual k => .ok (.residual k)
  | .callbacks .. => .ok (.value .null)
  | .vars f => do return .vars (← w.family (.vars f))
  | .residuals f => .ok (.residuals f)

/-- What a handle is in an expression. Only variables can take part in one. -/
def operand (w : Workspace α) : Handle α → Except Error (Operand α)
  | .variable m p => do return .expr (.ref (← w.variableAt m p).key)
  | .vars _ => .ok (.other "VariableArray")
  | .residual _ => .ok (.other "Residual")
  | .residuals _ => .ok (.other "ResidualArray")
  | .callbacks .. => .ok (.other "tuple")

def source (w : Workspace α) : Handle α → Except Error (Model.Source α)
  | .residual k => .ok (.residual k)
  | .residuals f => .ok (.residuals f)
  | h => do return .operand (← w.operand h)

def scope (w : Workspace α) (place : Nat) : Scope α where
  variableOf k := do return .expr (.ref (← (← w.model place).registry.get k).key)
  saved name index := do w.operand (← w.handle name index)
  members name := do
    let f ← w.family (← w.handle name none)
    return f.toList.map fun k => .expr (.ref k)
  indices := []

/-! ## References -/

inductive Reference where
  | saved (name : String) (index : Option Value)
  | variable (k : Key)
  | residual (k : Key)
  | key (k : Key)
  | list (items : List Reference)
  | value (v : Value)

def handleOf? (w : Workspace α) (place : Nat) : Reference → Except Error (Option (Handle α))
  | .saved name index => do return some (← w.handle name index)
  | .variable k => do return some (.variable place (← (← w.model place).registry.position k))
  | .residual k => do return some (.residual (← (← w.model place).residuals.get k).key)
  | _ => .ok none

mutual

def resolve (w : Workspace α) (place : Nat) : Reference → Except Error Component
  | .key k => .ok (.key k)
  | .list items => do return .list (← resolveAll w place items)
  | .value v => .ok (.value v)
  | r => do
    match ← w.handleOf? place r with
    | some h => w.component h
    | none => throw absent

def resolveAll (w : Workspace α) (place : Nat) : List Reference → Except Error (List Component)
  | [] => .ok []
  | r :: rest => do
    let c ← resolve w place r
    return c :: (← resolveAll w place rest)

end

def sourceOf (w : Workspace α) (place : Nat) (r : Reference) : Except Error (Model.Source α) := do
  match ← w.handleOf? place r, r with
  | some h, _ => w.source h
  | none, .value v => return .operand (.plain v)
  | none, .key _ => return .operand (.other "ComponentKey")
  | none, _ => return .operand (.other "list")

def collect (w : Workspace α) (place : Nat) (name : String) (ofVariables : Bool)
    (items : List Reference) : Except Error (Handle α) := do
  let handles ← items.mapM (w.handleOf? place)
  if ofVariables then
    let entries ← handles.mapM fun h => do
      match h with
      | some (.variable m p) => return ((← w.variableAt m p).key.index, (m, p))
      | _ => throw .noAttribute
    return .vars (.ofItems "Variable" name entries)
  else
    let entries ← handles.mapM fun h => do
      match h with
      | some (.residual k) => return (k.index, k)
      | _ => throw .noAttribute
    return .residuals (.ofItems "Residual" name entries)

/-! ## Operations -/

def made? (place : Nat) : Yield α → Option (Handle α)
  | .variable p => some (.variable place p)
  | .vars f => some (.vars ⟨f.kind, f.name, f.items.map fun (i, p) => (i, place, p)⟩)
  | .residual k | .paired (.one k) => some (.residual k)
  | .residuals f | .paired (.family f) => some (.residuals f)
  | _ => none

/-- Runs an operation on the model at a place, keeps what it makes under a name, and reports. -/
def perform (place : Nat) (name : Option String) (op : Operation α) :
    Call (Workspace α) Report := do
  let r ← on place op.run
  if let some name := name then
    if let some h := made? place r then modify (·.keep name h)
  r.report (← (← get).model place)

end Workspace

end Equilibria
