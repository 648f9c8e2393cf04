import Equilibria.Model.Basic

/-!
# Linear complementarity

The model of `l ≤ x ≤ u` against `M x + q`, with variables `x[i]` and residuals `F[i]`.
-/

namespace Equilibria.Model

variable {α : Type} [Scalar α]

def rowKey (name : String) (i : Nat) : Key := ⟨name, [.int i]⟩

theorem rowKey_ne {name : String} {i j : Nat} (h : i ≠ j) :
    (rowKey name i == rowKey name j) = false := by
  refine Bool.eq_false_iff.2 fun he => h ?_
  have := Key.beq_iff.1 he
  simp only [Key.form, rowKey, List.map_cons, Value.form, Prod.mk.injEq, List.cons.injEq] at this
  exact Int.ofNat_inj.1 (Mark.ofInt_inj this.2.1.1)

theorem proper_rowKeys (name : String) (n : Nat) : Key.Proper ((List.range n).map (rowKey name)) := by
  refine ⟨?_, List.pairwise_map.2 (List.pairwise_lt_range.imp fun h => rowKey_ne (Nat.ne_of_lt h))⟩
  intro k hk
  obtain ⟨i, -, rfl⟩ := List.mem_map.1 hk
  rfl

theorem proper_zipIdx {β : Type} (name : String) (xs : List β) :
    Key.Proper (xs.zipIdx.map fun e => rowKey name e.2) := by
  have h : xs.zipIdx.map Prod.snd = List.range xs.length := by
    rw [List.zipIdx_map_snd, List.range_eq_range']
  have := proper_rowKeys name xs.length
  rwa [← h, List.map_map] at this

/-- The terms of a row whose coefficients are not zero. -/
def rowTerms (row : List α) : List (Expr α) :=
  (row.zipIdx.filter fun e => !(e.1 == 0)).map fun (c, j) =>
    .binary .mul (.const c) (.ref (rowKey "x" j))

def rowResidual (i : Nat) (row : List α) (q : α) : Residual α where
  key := rowKey "F" i
  expr := .binary .add (.sum (rowTerms row)) (.const q)
  description := ""

def rowVariable (i : Nat) (lower upper : α) : Variable α where
  key := rowKey "x" i
  lower := lower
  upper := upper
  start := 0
  description := ""
  value := none

/-- One number for each of `n` components: a list of `n`, or a single number for all. -/
def spread (n : Nat) (g : Grid α) : Except Error (List α) :=
  match g.shape, g.data with
  | [], [x] | [1], [x] => .ok (List.replicate n x)
  | [k], xs => if k == n then .ok xs else .error .unlikeShapes
  | _, _ => .error .unlikeShapes

/-- The model of a matrix by its rows, a vector and bounds, all of one length. -/
def ofRows (name : String) (rows : List (List α)) (q lower upper : List α) : Model α :=
  let bounds := lower.zip upper
  let right := rows.zip q
  { empty name "" .empty .unsolved with
    registry := {
      entries := bounds.zipIdx.map fun ((l, u), i) => (rowKey "x" i, rowVariable i l u)
      proper := by rw [List.map_map]; exact proper_zipIdx "x" bounds }
    residuals := {
      items := right.zipIdx.map fun ((row, q), i) => rowResidual i row q
      proper := by rw [List.map_map]; exact proper_zipIdx "F" right }
    pairing := {
      pairs := (List.range (min bounds.length right.length)).map fun i =>
        ⟨rowKey "F" i, rowKey "x" i⟩
      properVars := by rw [List.map_map]; exact proper_rowKeys "x" _
      properResiduals := by rw [List.map_map]; exact proper_rowKeys "F" _ } }

def readGrid (v : Value) : Except Error (Grid α) := do
  return (← Grid.ofValue v).map Scalar.ofFloat

/-- The model of a square matrix, a vector of any shape, and bounds. -/
def ofLinear (name m q lower upper : Value) : Except Error (Model α) := do
  let m : Grid α ← readGrid m
  let q : Grid α ← readGrid q
  let n := q.data.length
  if m.shape != [n, n] then throw (.matrixShape m.shape n)
  let lower ← spread n (← readGrid lower)
  let upper ← spread n (← readGrid upper)
  return ofRows (← (textField "name" name).get) m.rows q.data lower upper

end Equilibria.Model
