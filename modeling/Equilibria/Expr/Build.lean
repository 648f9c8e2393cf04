import Equilibria.Expr.Basic
import Equilibria.Index.Product

/-!
# Building expressions

Operands are plain values, expressions, foreign evaluators, and things that are none of these.
Two plain values make a plain value; any other pair makes a node, if both sides can be used in
an expression.
-/

namespace Equilibria

inductive Operand (α : Type) where
  | plain (v : Value)
  | expr (e : Expr α)
  | evaluator (e : Evaluator α)
  | other (kindName : String)

namespace Operand

variable {α : Type} [Scalar α]

/-- Numbers become constants. -/
def toExpr : Operand α → Except Error (Expr α)
  | .plain v =>
    if v.isNumber then do return .const (Scalar.ofFloat (← v.toDouble))
    else .error (.unusable v.kindName)
  | .expr e => .ok e
  | .evaluator e => .error (.unusable e.kindName)
  | .other kindName => .error (.unusable kindName)

/-- An operand as a value. What is no plain value is one that is read as nothing else. -/
def toValue : Operand α → Value
  | .plain v => v
  | _ => .sealed "" ""

/-- A plain zero, which addition from the left leaves out. -/
def isPlainZero : Operand α → Bool
  | .plain v => v.isNumber && v.isZero
  | _ => false

def node (op : BinaryOp) (l r : Operand α) : Except Error (Operand α) := do
  let l ← l.toExpr
  let r ← r.toExpr
  return .expr (.binary op l r)

def combine (op : BinaryOp) (l r : Operand α) : Except Error (Operand α) :=
  match l, r with
  | .plain a, .plain b => do return .plain (← Value.arithmetic op a b)
  | .expr _, _ => node op l r
  | _, .expr _ => if op == .add && l.isPlainZero then .ok r else node op l r
  | _, _ => .error .wrongType

def negate : Operand α → Except Error (Operand α)
  | .plain v => do return .plain (← v.negate)
  | .expr e => .ok (.expr (.unary .neg e))
  | .evaluator _ | .other _ => .error .wrongType

def unchanged : Operand α → Except Error (Operand α)
  | .plain v => do return .plain (← v.unchanged)
  | .expr e => .ok (.expr e)
  | .evaluator _ | .other _ => .error .wrongType

/-- Adds the operands one by one to a plain zero. -/
def total (terms : List (Operand α)) : Except Error (Operand α) :=
  terms.foldlM (combine .add) (.plain (.int 0))

end Operand

namespace Expr

variable {α : Type} [Scalar α]

def ofValue (v : Value) : Except Error (Expr α) := do
  return .const (Scalar.ofFloat (← v.toDouble))

def binaryOf (tag : String) (l r : Operand α) : Except Error (Expr α) := do
  let l ← l.toExpr
  let r ← r.toExpr
  match BinaryOp.ofSymbol? tag with
  | some op => return .binary op l r
  | none => .error (.unknownOperator tag)

def unaryOf (tag : String) (a : Operand α) : Except Error (Expr α) := do
  let a ← a.toExpr
  match UnaryOp.ofSymbol? tag with
  | some op => return .unary op a
  | none => .error (.unknownFunction tag)

def quickSum (terms : List (Operand α)) : Except Error (Expr α) := do
  return .sum (← terms.mapM Operand.toExpr)

/-- The sum of a rule over the product of domains. -/
def sumOver (rule : List Value → Except Error (Operand α)) (domains : List Value) :
    Except Error (Expr α) := do
  let domains ← domains.mapM Value.elements
  return .sum (← (product domains).mapM fun i => do (← rule i).toExpr)

def scaled (c : Value) (v : Operand α) : Except Error (Expr α) := do
  let c ← c.toDouble
  let v ← v.toExpr
  return .binary .mul (.const (Scalar.ofFloat c)) v

/-- A linear combination, without the terms whose coefficient is zero. -/
def dot (coefficients : List Value) (vars : List (Operand α)) : Except Error (Expr α) :=
  if coefficients.length != vars.length then
    .error (.coefficientCount coefficients.length vars.length)
  else do
    let terms := (coefficients.zip vars).filter fun t => !t.1.isZero
    return .sum (← terms.mapM fun t => scaled t.1 t.2)

def keyOf (v : Operand α) : Except Error Key := do
  match ← v.toExpr with
  | .ref k => return k
  | _ => .error .noAttribute

def call (f : BlackBox α) (vars : List (Operand α)) : Except Error (Expr α) := do
  return .blackBox f (← vars.mapM keyOf)

end Expr

end Equilibria
