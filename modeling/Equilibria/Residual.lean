import Equilibria.Expr.Build
import Equilibria.Expr.Evaluate
import Equilibria.Expr.Text
import Equilibria.Key.Make
import Equilibria.Report
import Equilibria.Variable.Registry

/-!
# Residuals

A residual is an expression under a key. Residuals never change; a model keeps them in the order
in which they were added.
-/

namespace Equilibria

structure Residual (α : Type) where
  key : Key
  expr : Expr α
  description : String

namespace Residual

variable {α : Type} [Scalar α]

/-- An operand as a residual's expression. Foreign evaluators are taken as they are. -/
def exprField : Operand α → Except Error (Reading (Expr α))
  | .evaluator e => .ok (.ok (.custom e))
  | o =>
    match o.toExpr with
    | .ok e => .ok (.ok e)
    | .error e@(.unusable _) => .ok (.flaw "expression" (.refused e.text))
    | .error e => .error e

def make (key : Key) (expr : Operand α) (description : Value) : Except Error (Residual α) := do
  let expr ← exprField expr
  (Residual.mk key <$> expr <*> textField "description" description).get

def toText (r : Residual α) : String := s!"Residual {r.key}: {r.expr.repr}"

def report (r : Residual α) : Except Error Report := do
  let keys ← r.expr.keys
  return .record [("str", r.key.toText), ("repr", r.toText), ("name", r.key.name),
    ("index", .ofIndex r.key.index), ("description", r.description),
    ("vars", .ofKeys (Key.sorted keys))]

end Residual

structure Residuals (α : Type) where
  items : List (Residual α)
  proper : Key.Proper (items.map (·.key))

namespace Residuals

variable {α : Type}

def empty : Residuals α := ⟨[], .nil⟩

def keys (r : Residuals α) : List Key := r.items.map (·.key)

theorem proper_keys (r : Residuals α) : Key.Proper r.keys := r.proper

def size (r : Residuals α) : Nat := r.items.length

def find? (r : Residuals α) (key : Key) : Except Error (Option (Residual α)) :=
  if key.isFixed then .ok (r.items.find? (·.key == key)) else .error .wrongType

def contains (r : Residuals α) (key : Key) : Except Error Bool := do
  return (← r.find? key).isSome

def get (r : Residuals α) (key : Key) : Except Error (Residual α) := do
  match ← r.find? key with
  | some f => return f
  | none => throw (.residualMissing key)

def extend (r : Residuals α) (batch : List (Residual α))
    (h : Registry.firstTaken? r.keys (batch.map (·.key)) = .ok none) : Residuals α where
  items := r.items ++ batch
  proper := by
    obtain ⟨hb, hfree⟩ := Registry.proper_of_firstTaken? h
    rw [List.map_append]
    exact r.proper.append hb hfree

def addAll (r : Residuals α) (batch : List (Residual α)) : Except Error (Residuals α) :=
  match h : Registry.firstTaken? r.keys (batch.map (·.key)) with
  | .ok none => .ok (r.extend batch h)
  | .ok (some k) => .error (.duplicateResidual k)
  | .error e => .error e

variable [Scalar α]

def add (r : Residuals α) (key : Key) (expr : Operand α) (description : Value) :
    Except Error (Residuals α) := do
  if ← r.contains key then throw (.duplicateResidual key)
  r.addAll [← Residual.make key expr description]

/-- The keys that an expression reads but `known` leaves out, by their texts. -/
def foreign (known : List Key) (e : Expr α) : List Key :=
  (e.vars.filter (!known.contains ·)).mergeSort fun a b => a.toText ≤ b.toText

/-- Checks that every residual reads known variables only. -/
def checkReferences (r : Residuals α) (known : List Key) : Except Error Unit :=
  r.items.forM fun f =>
    match foreign known f.expr with
    | [] => .ok ()
    | keys => .error (.foreign f.key keys)

/-- How many residuals share a name. -/
structure Group where
  name : String
  count : Nat

def groups (r : Residuals α) : List Group :=
  (r.items.map (·.key.name)).eraseDups.map fun name =>
    ⟨name, r.items.countP (·.key.name == name)⟩

def summary (r : Residuals α) : Report :=
  .record [("total_scalar_residuals", r.size),
    ("residuals", .record (r.groups.map fun g => (g.name, g.count)))]

def report (r : Residuals α) : Report :=
  .record [("summary", r.summary), ("all", .ofKeys r.keys), ("keys", .ofKeys r.keys),
    ("len", r.size), ("count", r.size)]

end Residuals

end Equilibria
