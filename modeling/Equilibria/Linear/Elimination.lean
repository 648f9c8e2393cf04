import Equilibria.Linear.Vector

/-!
# Linear systems

Gaussian elimination with partial pivoting. A column whose entries are all zero has no pivot,
and the system no answer.
-/

namespace Equilibria.Linear

variable {α : Type} [Scalar α]

/-- The row whose first entry is largest, the first of them if there are several, and the rows
left when the first row takes its place. -/
def takePivot (rows : List (List α)) : Option (List α × List (List α)) :=
  match rows with
  | [] => none
  | top :: rest =>
    let size (r : List α) : α := Scalar.abs (r.headD 0)
    let better (best : List α × Nat) (next : List α × Nat) : List α × Nat :=
      if size best.1 < size next.1 then next else best
    let (pivot, i) := rest.zipIdx.foldl better (top, rest.length)
    some (pivot, if i < rest.length then rest.set i top else rest)

/-- Takes a multiple of the pivot row off a row, so that its first entry is gone. -/
def reduce (pivot row : List α) : List α :=
  let factor := row.headD 0 / pivot.headD 0
  List.zipWith (fun r p => r - factor * p) row.tail pivot.tail

/-- Solves a system of rows that end in their right-hand sides. -/
def eliminate : Nat → List (List α) → Option (List α)
  | 0, _ => some []
  | n + 1, rows => do
    let (pivot, rest) ← takePivot rows
    let head := pivot.headD 0
    if head == 0 then none
    else
      let xs ← eliminate n (rest.map (reduce pivot))
      let right := pivot.getLastD 0
      let sum := List.zipWith (· * ·) (pivot.tail.take n) xs
      return (sum.foldl (· - ·) right / head) :: xs

def solve (rows : List (List α)) (right : List α) : Option (List α) :=
  eliminate rows.length (List.zipWith (fun r b => r ++ [b]) rows right)

end Equilibria.Linear
