import Equilibria.Expr.Evaluate
import Equilibria.Pairing
import Equilibria.Residual
import Equilibria.Solver.Problem

/-!
# Flattening

The pairs of a model in their order make a flat problem. Its callbacks keep the order that they
were built with. They bind the variables of the pairs to the entries of a point in a scratch
binding that all callbacks of a model share, so what is bound to other variables stays there.
-/

namespace Equilibria

/-- The values that were bound last. -/
abbrev Scratch (α : Type) := List (Key × α)

/-- Binds keys to numbers, in place of what they were bound to. -/
def Scratch.bind {α : Type} (s : Scratch α) (keys : List Key) (xs : List α) : Scratch α :=
  keys.zip xs ++ s.filter fun e => !keys.contains e.1

inductive MatrixFormat where
  | dense
  | entries
deriving DecidableEq

def MatrixFormat.ofText (s : String) : Except Error MatrixFormat :=
  match s with
  | "dense" => .ok .dense
  | "csr" => .ok .entries
  | s => .error (.unknownFormat s)

/-- What callbacks keep of a model: the variables of the pairs and the expressions of their
residuals. -/
structure Flat (α : Type) where
  keys : List Key
  exprs : List (Expr α)

namespace Flat

variable {α : Type} [Scalar α]

def size (f : Flat α) : Nat := f.keys.length

/-- The residuals of the pairs, all of which have to be there. -/
def ofPairs (residuals : Residuals α) (t : Pairing) : Except Error (Flat α) := do
  let items ← t.residuals.mapM residuals.get
  return ⟨t.vars, items.map (·.expr)⟩

/-! ## Structure -/

/-- The places in a row of the Jacobian that an expression can fill. -/
def columns (keys : List Key) (e : Expr α) : List Nat :=
  (keys.zipIdx.filter fun p => e.mentions p.1).map (·.2)

/-- The places that can hold anything but zero, row by row. -/
def places (f : Flat α) : List (Nat × Nat) :=
  f.exprs.zipIdx.flatMap fun (e, i) => (columns f.keys e).map fun j => (i, j)

/-! ## Callbacks -/

/-- Binds the variables to a point, which has to have one entry for each of them. -/
def bind (f : Flat α) (point : Grid α) : Call (Scratch α) (Binding α) := do
  if point.shape != [f.size] then throw (.pointShape f.size point.shape)
  modify fun s => s.bind f.keys point.data
  return Binding.ofList (← get)

def value (f : Flat α) (point : Grid α) : Call (Scratch α) (List α) := do
  let b ← f.bind point
  f.exprs.mapM fun e => liftM (e.evaluate b)

def entry (f : Flat α) (b : Binding α) (place : Nat × Nat) : Except Error (Nat × Nat × α) :=
  match f.exprs[place.1]?, f.keys[place.2]? with
  | some e, some k => do return (place.1, place.2, ← e.derivative k b)
  | _, _ => .error .noItem

/-- The rows of the matrix with these entries. -/
def fill (n : Nat) (entries : List (Nat × Nat × α)) : List (List α) :=
  (List.range n).map fun i =>
    let row := entries.filter (·.1 == i)
    (List.range n).map fun j => (row.find? (·.2.1 == j)).elim 0 (·.2.2)

def jacobian (f : Flat α) (format : MatrixFormat) (point : Grid α) :
    Call (Scratch α) (Jacobian α) := do
  let b ← f.bind point
  let entries ← f.places.mapM fun place => liftM (f.entry b place)
  match format with
  | .dense => return .dense (fill f.size entries)
  | .entries => return .entries f.size entries

end Flat

/-! ## Problems -/

namespace Problem

variable {α : Type} [Scalar α]

/-- The variables of the pairs, all of which have to be registered. -/
def paired (registry : Registry α) (t : Pairing) : Except Error (List (Variable α)) :=
  t.vars.mapM registry.get

def ofFlat (vars : List (Variable α)) (flat : Flat α) (format : MatrixFormat) :
    Problem (Scratch α) α where
  lower := vars.map (·.lower)
  upper := vars.map (·.upper)
  start := vars.map (·.start)
  value x := do return .vector (← flat.value (.vector x))
  jacobian x := flat.jacobian format (.vector x)
  vars := vars.map (·.key)
  residuals := flat.exprs

/-- The problem that the pairs make. -/
def ofPairs (registry : Registry α) (residuals : Residuals α) (t : Pairing) (format : String) :
    Except Error (Problem (Scratch α) α) := do
  let vars ← paired registry t
  let flat ← Flat.ofPairs residuals t
  return ofFlat vars flat (← MatrixFormat.ofText format)

/-- The problem of expressions in the variables `keys`. Its Jacobian is the given one, or made of
the derivatives. -/
def ofExprs (lower upper start : List α) (keys : List Key) (exprs : List (Expr α))
    (slopes : Option (List (List α))) (sparse : Bool) : Problem (Scratch α) α where
  lower := lower
  upper := upper
  start := start
  value x := do
    let b := Binding.ofList (keys.zip x)
    return .vector (← exprs.mapM (·.evaluate b))
  jacobian x := do
    let b := Binding.ofList (keys.zip x)
    let rows : List (List α) ← match slopes with
      | some rows => pure rows
      | none => exprs.mapM fun e => keys.mapM fun k => e.derivative k b
    return .ofRows rows sparse
  vars := []
  residuals := []

def parts (p : Problem (Scratch α) α) : Report.Parts :=
  [("n", p.size), ("repr", p.toText), ("lower", .each p.lower .exact),
    ("variables", .ofKeys p.vars)]

end Problem

end Equilibria
