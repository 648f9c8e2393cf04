import Equilibria.Scalar

/-!
# Vectors and matrices

Vectors are lists, matrices are lists of rows. Sums run from left to right.
-/

namespace Equilibria

variable {α : Type} [Scalar α]

namespace Vec

def dot (x y : List α) : α := (List.zipWith (· * ·) x y).foldl (· + ·) 0

def add (x y : List α) : List α := List.zipWith (· + ·) x y

def scale (c : α) (x : List α) : List α := x.map (c * ·)

def negate (x : List α) : List α := x.map (- ·)

def norm (x : List α) : α := Scalar.sqrt (dot x x)

/-- The larger number; a number that is not one wins. -/
def maxNaN (x y : α) : α :=
  if Scalar.isNaN x then x else if Scalar.isNaN y then y else if x < y then y else x

/-- The largest absolute value, zero for the empty vector. -/
def maxAbs (x : List α) : α := (x.map Scalar.abs).foldl maxNaN 0

def isFinite (x : List α) : Bool := x.all Scalar.isFinite

end Vec

namespace Mat

def isFinite (rows : List (List α)) : Bool := rows.all Vec.isFinite

def transposeApply (rows : List (List α)) (v : List α) : List α :=
  let n := rows.head?.elim 0 List.length
  (List.range n).map fun j => Vec.dot (rows.map fun r => r.getD j 0) v

def apply (rows : List (List α)) (v : List α) : List α := rows.map fun r => Vec.dot r v

end Mat

end Equilibria
