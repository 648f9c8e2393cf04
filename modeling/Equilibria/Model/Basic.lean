import Equilibria.Index.Family
import Equilibria.Index.Set
import Equilibria.Options.Basic
import Equilibria.Solver.Flat

/-!
# Models

A model holds sets, variables, residuals, their pairing and options. It can be changed until it
is solved; after a solve, good or bad, it is locked until it is reset.
-/

namespace Equilibria

inductive Status where
  | unsolved
  | solved
  | failed
deriving DecidableEq, Repr

namespace Status

def all : List Status := [unsolved, solved, failed]

def toText : Status → String
  | .unsolved => "unsolved"
  | .solved => "solved"
  | .failed => "failed"

def ofText? (s : String) : Option Status := all.find? (·.toText == s)

end Status

structure Model (α : Type) where
  name : String
  description : String
  catalog : Catalog
  registry : Registry α
  residuals : Residuals α
  pairing : Pairing
  options : Options
  status : Status
  /-- What the callbacks of the model have bound. -/
  scratch : Scratch α

namespace Model

variable {α : Type} [Scalar α]

def empty (name description : String) (options : Options) (status : Status) : Model α where
  name := name
  description := description
  catalog := .empty
  registry := .empty
  residuals := .empty
  pairing := .empty
  options := options
  status := status
  scratch := []

def make (name description status : Option Value) (options : Options) :
    Except Error (Model α) :=
  let status := status.elim (.ok .unsolved)
    (choiceField "status" (Status.all.map Status.toText) Status.ofText?)
  let make (n d : String) (s : Status) : Model α := empty n d options s
  (make <$> name.elim (.ok "model") (textField "name") <*> optionalText "description" description
    <*> status).get

/-- Runs what changes the bound values only. -/
def scratched {β : Type} (c : Call (Scratch α) β) : Call (Model α) β := fun m =>
  let (r, s) := c m.scratch
  (r, { m with scratch := s })

def requireUnsolved (m : Model α) (action : String) : Except Error Unit :=
  if m.status == .unsolved then .ok ()
  else
    let state := m.status.toText
    .error (.locked s!"Cannot {action}: model '{m.name}' is {state}; call reset() first")

def requireRegistered (m : Model α) (residuals vars : List Key) : Except Error Unit := do
  let vs ← vars.filterM fun k => do return !(← m.registry.contains k)
  let rs ← residuals.filterM fun k => do return !(← m.residuals.contains k)
  if vs.isEmpty && rs.isEmpty then return () else throw (.unregistered vs rs)

end Model

/-! ## Components -/

/-- What can be given where a component or several are asked for. -/
inductive Component where
  | key (k : Key)
  | variable (k : Key)
  | residual (k : Key)
  | vars (f : Family Key)
  | residuals (f : Family Key)
  | list (items : List Component)
  | value (v : Value)

namespace Component

def key? : Component → Option Key
  | .key k | .variable k | .residual k => some k
  | _ => none

def single (c : Component) : Except Error Key :=
  match c.key? with
  | some k => .ok k
  | none => .error .noAttribute

/-- The components one by one, in the order in which they are given. -/
def items : Component → Except Error (List Component)
  | .vars f => .ok (f.toList.map .variable)
  | .residuals f => .ok (f.toList.map .residual)
  | .list cs => .ok cs
  | .value v =>
    match v with
    | .set .. => .ok [.value v]
    | v => do return (← v.elements).map .value
  | c => .ok [c]

def keysOf (cs : List Component) : Except Error (List Key) := cs.mapM single

end Component

end Equilibria
