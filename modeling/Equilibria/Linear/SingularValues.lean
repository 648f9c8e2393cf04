import Equilibria.Linear.Vector

/-!
# Singular values

The columns of a matrix are turned pair by pair until they are orthogonal. Their lengths are
then the singular values, and the turns make up the right singular vectors.
-/

namespace Equilibria.Linear

variable {α : Type} [Scalar α]

/-- A column of the turned matrix with the column of the turns. -/
structure Turned (α : Type) where
  column : List α
  turn : List α

namespace Turned

/-- Turns a pair of vectors by the angle with this cosine and sine. -/
def rotate (c s : α) (x y : List α) : List α × List α :=
  (List.zipWith (fun a b => c * a - s * b) x y, List.zipWith (fun a b => s * a + c * b) x y)

/-- Makes two columns orthogonal, unless they are so already up to `eps`. -/
def orthogonalise (eps : α) (p q : Turned α) : Turned α × Turned α :=
  let a := Vec.dot p.column p.column
  let b := Vec.dot q.column q.column
  let g := Vec.dot p.column q.column
  if Scalar.abs g ≤ eps * Scalar.sqrt (a * b) then (p, q)
  else
    let z := (b - a) / (2 * g)
    let size := 1 / (Scalar.abs z + Scalar.sqrt (1 + z * z))
    let t := if z < 0 then -size else size
    let c := 1 / Scalar.sqrt (1 + t * t)
    let s := c * t
    let (pc, qc) := rotate c s p.column q.column
    let (pt, qt) := rotate c s p.turn q.turn
    (⟨pc, pt⟩, ⟨qc, qt⟩)

def against (eps : α) (p : Turned α) : List (Turned α) → Turned α × List (Turned α)
  | [] => (p, [])
  | q :: r =>
    let (p, q) := orthogonalise eps p q
    let (p, r) := against eps p r
    (p, q :: r)

/-- Each pair of columns once. The fuel is the number of columns. -/
def sweep (eps : α) : Nat → List (Turned α) → List (Turned α)
  | 0, columns => columns
  | _, [] => []
  | n + 1, p :: r =>
    let (p, r) := against eps p r
    p :: sweep eps n r

def sweeps (eps : α) : Nat → List (Turned α) → List (Turned α)
  | 0, columns => columns
  | k + 1, columns => sweeps eps k (sweep eps columns.length columns)

end Turned

structure Singular (α : Type) where
  value : α
  left : List α
  right : List α

/-- The singular values of a square matrix, the largest first. -/
def singularValues (eps : α) (rows : List (List α)) : List (Singular α) :=
  let n := rows.length
  let columns := (List.range n).map fun j =>
    Turned.mk (rows.map fun r => r.getD j 0) ((List.range n).map fun i => if i == j then 1 else 0)
  let found := (Turned.sweeps eps 40 columns).map fun t =>
    let s := Vec.norm t.column
    Singular.mk s (if s == 0 then t.column else t.column.map (· / s)) t.turn
  found.mergeSort fun a b => decide (b.value ≤ a.value)

end Equilibria.Linear
