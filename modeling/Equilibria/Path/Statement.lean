import Equilibria.Path.Formula
import Equilibria.Report
import Equilibria.Solver.Problem

/-!
# Statements

A flat problem in the algebraic form of the external program: for each pair a condition of two
relations, one on the variable and one on the residual.
-/

namespace Equilibria.Path

/-- One side of a condition. A plain formula is met by anything; two numbers that are compared
leave only the truth value of the comparison. -/
inductive Relation (α : Type) where
  | ranged (lower : α) (place : Nat) (upper : α)
  | atMost (left right : Formula α)
  | equal (left right : Formula α)
  | plain (f : Formula α)
  | truth (b : Bool)

structure Condition (α : Type) where
  first : Relation α
  second : Relation α

variable {α : Type} [Scalar α]

namespace Relation

/-- `0 ≤ f` -/
def notNegative : Formula α → Except Error (Relation α)
  | .number x => .ok (.truth (decide (0 ≤ x)))
  | .complex => .error .wrongType
  | f => .ok (.atMost (.number 0) f)

/-- `f ≤ 0` -/
def notPositive : Formula α → Except Error (Relation α)
  | .number x => .ok (.truth (decide (x ≤ 0)))
  | .complex => .error .wrongType
  | f => .ok (.atMost f (.number 0))

/-- `f = 0` -/
def zero : Formula α → Relation α
  | .number x => .truth (x == 0)
  | .complex => .truth false
  | f => .equal f (.number 0)

/-- How many of its two ends a relation leaves open. -/
def openEnds : Relation α → Nat
  | .ranged .. | .equal .. => 0
  | .atMost .. => 1
  | .plain _ | .truth _ => 2

def report (point : List α) (r : Relation α) : Report :=
  let part (f : Formula α) : Report := .ofResult do
    match ← f.evaluate fun i => .ok (point.getD i 0) with
    | .real x => return .computed x
    | .complex => return "complex"
  .list (match r with
    | .ranged l i u => ["ranged", .computed l, part (.variable i), .computed u]
    | .atMost f g => ["le", part f, part g]
    | .equal f g => ["eq", part f, part g]
    | .plain f => ["plain", part f]
    | .truth b => ["plain", .computed (α := α) (if b then 1 else 0)])

end Relation

namespace Condition

/-- The condition of the pair at a place, by which of its bounds are finite. -/
def ofPair (place : Nat) (lower upper : α) (f : Formula α) : Except Error (Condition α) := do
  match Side.of lower upper with
  | .boxed => return ⟨.ranged lower place upper, .plain f⟩
  | .lowerOnly => return ⟨.atMost (.number lower) (.variable place), ← Relation.notNegative f⟩
  | .upperOnly => return ⟨.atMost (.variable place) (.number upper), ← Relation.notPositive f⟩
  | .free => return ⟨.zero f, .plain (.variable place)⟩

/-- The external program takes an equation, or relations with two open ends in all. -/
def isAccepted (c : Condition α) : Bool :=
  match c.first with
  | .equal .. => true
  | r => r.openEnds + c.second.openEnds == 2

def report (c : Condition α) (point : List α) : Report :=
  .list [c.first.report point, c.second.report point]

end Condition

/-- The conditions of a problem, which has to come with its variables and residuals. -/
def conditions {σ : Type} (p : Problem σ α) : Except Error (List (Condition α)) := do
  if p.vars.length != p.size || p.residuals.length != p.size then throw .componentsMissing
  let position (k : Key) : Except Error Nat :=
    if !k.isFixed then .error .wrongType
    else
      match p.vars.zipIdx.reverse.find? (·.1 == k) with
      | some e => .ok e.2
      | none => .error (.unbound k)
  let formulas ← p.residuals.mapM fun e => e.toFormula position
  let bounds := p.lower.zip p.upper
  (formulas.zip bounds).zipIdx.mapM fun ((f, l, u), i) => Condition.ofPair i l u f

end Equilibria.Path
