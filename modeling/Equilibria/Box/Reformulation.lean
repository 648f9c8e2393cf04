import Equilibria.Box.FischerBurmeister
import Equilibria.Error
import Equilibria.Linear.Vector
import Equilibria.Report

/-!
# Box complementarity as equations

A component `l ≤ x ≤ u` against `f` becomes one equation in `x` and `f`, by which of its bounds
are finite. Zero is met just by the solutions of the component.
-/

namespace Equilibria

/-- Which bounds of a component count. -/
inductive Side where
  | free
  | lowerOnly
  | upperOnly
  | boxed
deriving DecidableEq, Repr

section

variable {α : Type} [Scalar α]

def Side.of (l u : α) : Side :=
  match Scalar.isFinite l, Scalar.isFinite u with
  | false, false => .free
  | true, false => .lowerOnly
  | false, true => .upperOnly
  | true, true => .boxed

/-- The equation of a component, with its derivatives in `x` and `f`. -/
def boxRow (l u x f : α) : Row α :=
  match Side.of l u with
  | .free => ⟨f, 0, 1⟩
  | .lowerOnly => fischerBurmeister (x - l) f
  | .upperOnly =>
    let p := fischerBurmeister (u - x) (-f)
    ⟨-p.value, p.first, p.second⟩
  | .boxed =>
    let inner := fischerBurmeister (u - x) (-f)
    let outer := fischerBurmeister (x - l) (-inner.value)
    ⟨outer.value, outer.first + outer.second * inner.first, outer.second * inner.second⟩

end

/-- The bounds of the components of a problem. A single bound stands for all components. -/
structure Box (α : Type) where
  lower : List α
  upper : List α

namespace Box

variable {α : Type} [Scalar α]

/-- Pairs two lists of one length; a list of one entry is repeated. -/
def align {β : Type} (xs ys : List β) : Except Error (List (β × β)) :=
  match xs, ys with
  | [x], ys => .ok (ys.map fun y => (x, y))
  | xs, [y] => .ok (xs.map fun x => (x, y))
  | xs, ys => if xs.length == ys.length then .ok (xs.zip ys) else .error .unlikeShapes

def sides (b : Box α) : Except Error (List Side) := do
  return (← align b.lower b.upper).map fun (l, u) => Side.of l u

def fits (b : Box α) (sides : List Side) (n : Nat) : Bool :=
  let lowers := sides.any fun s => s == .lowerOnly || s == .boxed
  let uppers := sides.any fun s => s == .upperOnly || s == .boxed
  sides.length == n && (!lowers || b.lower.length == n) && (!uppers || b.upper.length == n)

def rows (b : Box α) (x f : List α) : Except Error (List (Row α)) := do
  let bounds ← align b.lower b.upper
  if b.fits (bounds.map fun (l, u) => Side.of l u) x.length then
    return List.zipWith (fun (l, u) (x, f) => boxRow l u x f) bounds (x.zip f)
  else throw .noItem

def notFinite (f : List α) : List Nat :=
  (f.zipIdx.filter fun p => !Scalar.isFinite p.1).map (·.2)

/-- The equations for given values of `f`, which have to be finite and as many as `x`. -/
def evaluate (b : Box α) (x : List α) (shape : List Nat) (f : List α) :
    Except Error (List (Row α)) :=
  if shape != [x.length] then .error (.valueShape shape [x.length])
  else match notFinite f with
    | [] => b.rows x f
    | components => .error (.notFinite components)

end Box

def Row.parts {α : Type} [Scalar α] (names : List String) (rows : List (Row α)) :
    Report.Parts :=
  names.zip ([Row.value, Row.first, Row.second].map fun f => .each rows fun r => .computed (f r))

/-! ## Jacobians -/

/-- The derivatives of the components, as all rows or as entries by place. -/
inductive Jacobian (α : Type) where
  | dense (rows : List (List α))
  | entries (size : Nat) (items : List (Nat × Nat × α))

namespace Jacobian

variable {α : Type} [Scalar α]

/-- Rows as they are, or only their entries that are not zero. -/
def ofRows (rows : List (List α)) (sparse : Bool) : Jacobian α :=
  if sparse then
    let entries := rows.zipIdx.flatMap fun (r, i) => r.zipIdx.map fun (x, j) => (i, j, x)
    .entries rows.length (entries.filter fun e => !(e.2.2 == 0))
  else .dense rows

def entryAt (items : List (Nat × Nat × α)) (i j : Nat) : α :=
  items.foldl (fun acc (r, c, x) => if r == i && c == j then acc + x else acc) 0

def toRows : Jacobian α → List (List α)
  | .dense rows => rows
  | .entries n items =>
    (List.range n).map fun i =>
      let row := items.filter fun (r, _, _) => r == i
      (List.range n).map fun j => entryAt row i j

/-- The derivative of the equations of a box in `x`, where `f` has this Jacobian. A single row
or column stands for all. -/
def ofBox (equations : List (Row α)) (jacobian : Jacobian α) : Except Error (List (List α)) :=
  let n := equations.length
  let rows := jacobian.toRows
  let fits (k : Nat) : Bool := k == n || k == 1
  let width := (rows.headD []).length
  if fits rows.length && rows.all (fun r => r.length == width && fits r.length) then
    .ok (equations.zipIdx.map fun (e, i) =>
      let row := rows.getD (if rows.length == 1 then 0 else i) []
      (List.range n).map fun j =>
        (if i == j then e.first else 0) + e.second * row.getD (if row.length == 1 then 0 else j) 0)
  else .error .unlikeShapes

def rowsReport (rows : List (List α)) : Report := .each rows fun r => .each r .computed

def report (j : Jacobian α) : Report :=
  match j with
  | .dense rows => rowsReport rows
  | .entries _ items => .record [("nnz", items.length), ("dense", rowsReport j.toRows)]

end Jacobian

end Equilibria
