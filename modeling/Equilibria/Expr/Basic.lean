import Equilibria.Scalar
import Equilibria.Value.Arithmetic

/-!
# Expressions

Trees of numbers, variables, arithmetic and elementary functions, with black boxes and foreign
evaluators as leaves. A binding gives each key its value or the reason why it has none.
-/

namespace Equilibria

inductive UnaryOp where
  | neg | log | exp | sqrt | sin | cos
deriving DecidableEq, Repr

namespace UnaryOp

def symbol : UnaryOp → String
  | .neg => "neg"
  | .log => "log"
  | .exp => "exp"
  | .sqrt => "sqrt"
  | .sin => "sin"
  | .cos => "cos"

def ofSymbol? (s : String) : Option UnaryOp :=
  [neg, log, exp, sqrt, sin, cos].find? (·.symbol == s)

end UnaryOp

abbrev Binding (α : Type) := Key → Except Error α

/-- The binding of a list of pairs, the first of which counts. Only keys of fixed values can be
looked up. -/
def Binding.ofList {α : Type} (pairs : List (Key × α)) : Binding α := fun k =>
  if !k.isFixed then .error .wrongType
  else
    match pairs.find? (·.1 == k) with
    | some p => .ok p.2
    | none => .error (.unbound k)

/-- A function of an ordered list of numbers that cannot be looked into. Without a gradient
its derivatives are taken by central differences of the relative width `step`. -/
structure BlackBox (α : Type) where
  name : String
  apply : List α → Except Error α
  gradient : Option (List α → Except Error (List α))
  step : α

/-- Anything that can be evaluated and differentiated at a binding. -/
structure Evaluator (α : Type) where
  kindName : String
  text : String
  vars : List Key
  evaluate : Binding α → Except Error α
  derivative : Key → Binding α → Except Error α

inductive Expr (α : Type) where
  | const (value : α)
  | ref (key : Key)
  | binary (op : BinaryOp) (left right : Expr α)
  | unary (op : UnaryOp) (arg : Expr α)
  | sum (terms : List (Expr α))
  | blackBox (f : BlackBox α) (args : List Key)
  | custom (e : Evaluator α)

namespace Expr

variable {α : Type}

/-- Each key once, in the order of their first places. -/
def distinct (keys : List Key) : List Key :=
  keys.foldl (fun seen k => if seen.contains k then seen else seen ++ [k]) []

mutual

/-- The keys that an expression reads, in reading order and with repetitions. -/
def reads : Expr α → List Key
  | .const _ => []
  | .ref k => [k]
  | .binary _ l r => reads l ++ reads r
  | .unary _ a => reads a
  | .sum terms => readsAll terms
  | .blackBox _ args => args
  | .custom e => e.vars

def readsAll : List (Expr α) → List Key
  | [] => []
  | t :: r => reads t ++ readsAll r

end

def vars (e : Expr α) : List Key := distinct e.reads

/-- The keys that an expression reads, if all of them can be looked up. -/
def keys (e : Expr α) : Except Error (List Key) :=
  if e.reads.all Key.isFixed then .ok e.vars else .error .wrongType

def mentions (k : Key) (e : Expr α) : Bool := e.reads.contains k

def isForeign : Expr α → Bool
  | .custom _ => true
  | _ => false

def kindName : Expr α → String
  | .const _ => "Constant"
  | .ref _ => "VariableRef"
  | .binary .. => "BinaryOp"
  | .unary .. => "UnaryOp"
  | .sum _ => "Sum"
  | .blackBox .. => "FunctionExpression"
  | .custom e => e.kindName

end Expr

end Equilibria
