import Equilibria.Expr.Evaluate

/-!
# Formulas

The algebraic form in which residuals are handed to an external solver. Formulas are built with
the simplifications of the modelling layer: numbers are computed at once, adding zero and
multiplying by one leave the other side alone, and a multiple of a variable is one term. Their
arithmetic is checked: what has no value is an error.
-/

namespace Equilibria

/-- What a formula is worth. Powers of negative numbers leave the reals. -/
inductive Quantity (α : Type) where
  | real (x : α)
  | complex

inductive Formula (α : Type) where
  | number (x : α)
  | complex
  | variable (i : Nat)
  | scaled (c : α) (i : Nat)
  | negation (f : Formula α)
  | sum (f g : Formula α)
  | product (f g : Formula α)
  | quotient (f g : Formula α)
  | power (f g : Formula α)
  | function (op : UnaryOp) (f : Formula α)

/-! ## Checked arithmetic -/

namespace Checked

variable {α : Type} [Scalar α]

def div (x y : α) : Except Error α := if y == 0 then .error .divisionByZero else .ok (x / y)

def pow (x y : α) : Except Error (Quantity α) :=
  if x == 0 && decide (y < 0) && Scalar.isFinite y then .error .divisionByZero
  else if decide (x < 0) && Scalar.isFinite x && Scalar.isFinite y && !Scalar.isWhole y then
    if Scalar.isFinite (Scalar.pow (-x) y) then .ok .complex else .error .overflow
  else
    let r := Scalar.pow x y
    if Scalar.isFinite x && Scalar.isFinite y && !Scalar.isFinite r then .error .overflow
    else .ok (.real r)

def isInfinite (x : α) : Bool := !Scalar.isFinite x && !Scalar.isNaN x

def function (op : UnaryOp) (x : α) : Except Error α :=
  match op with
  | .neg => .ok (-x)
  | .log => if x ≤ 0 then .error .outOfDomain else .ok (Scalar.log x)
  | .sqrt => if x < 0 then .error .outOfDomain else .ok (Scalar.sqrt x)
  | .exp =>
    let r := Scalar.exp x
    if Scalar.isFinite x && !Scalar.isFinite r then .error .overflow else .ok r
  | .sin => if isInfinite x then .error .outOfDomain else .ok (Scalar.sin x)
  | .cos => if isInfinite x then .error .outOfDomain else .ok (Scalar.cos x)

end Checked

namespace Quantity

variable {α : Type} [Scalar α]

/-- Applies an operation on reals; a complex operand makes the result complex. -/
def lift (f : α → α → Except Error (Quantity α)) :
    Quantity α → Quantity α → Except Error (Quantity α)
  | .real x, .real y => f x y
  | _, _ => .ok .complex

/-- Nothing is divided by zero, a complex number neither. -/
def div : Quantity α → Quantity α → Except Error (Quantity α)
  | .real x, .real y => .real <$> Checked.div x y
  | .complex, .real y => if y == 0 then .error .divisionByZero else .ok .complex
  | _, .complex => .ok .complex

/-- Zero has no complex power. -/
def pow : Quantity α → Quantity α → Except Error (Quantity α)
  | .real x, .real y => Checked.pow x y
  | .real x, .complex => if x == 0 then .error .divisionByZero else .ok .complex
  | .complex, _ => .ok .complex

end Quantity

namespace Formula

variable {α : Type} [Scalar α]

/-- The value of a formula where its variables have the values `v`. A sum starts from zero. -/
def evaluate (v : Nat → Except Error α) : Formula α → Except Error (Quantity α)
  | .number x => .ok (.real x)
  | .complex => .ok .complex
  | .variable i => do return .real (← v i)
  | .scaled c i => do return .real (c * (← v i))
  | .negation f => do
    match ← evaluate v f with
    | .real x => return .real (-x)
    | .complex => return .complex
  | .sum f g => do
    Quantity.lift (fun x y => .ok (.real (0 + x + y))) (← evaluate v f) (← evaluate v g)
  | .product f g => do
    Quantity.lift (fun x y => .ok (.real (x * y))) (← evaluate v f) (← evaluate v g)
  | .quotient f g => do
    Quantity.div (← evaluate v f) (← evaluate v g)
  | .power f g => do Quantity.pow (← evaluate v f) (← evaluate v g)
  | .function op f => do
    match ← evaluate v f with
    | .real x => return .real (← Checked.function op x)
    | .complex => throw .wrongType

def ofQuantity : Quantity α → Formula α
  | .real x => .number x
  | .complex => .complex

/-! ## Building -/

def add : Formula α → Formula α → Formula α
  | .number x, .number y => .number (x + y)
  | .number x, g => if x == 0 then g else .sum (.number x) g
  | f, .number y => if y == 0 then f else .sum f (.number y)
  | f, g => .sum f g

def negate : Formula α → Formula α
  | .number x => .number (-x)
  | .variable i => .scaled (-1) i
  | .scaled c i => .scaled (-c) i
  | f => .negation f

def sub (f g : Formula α) : Formula α :=
  match f, g with
  | .number x, .number y => .number (x - y)
  | f, g => add f (negate g)

def times (x : α) (f : Formula α) : Formula α :=
  if x == 1 then f
  else match f with
    | .variable i => .scaled x i
    | .scaled c i => .scaled (x * c) i
    | f => .product (.number x) f

def mul : Formula α → Formula α → Formula α
  | .number x, .number y => .number (x * y)
  | .number x, g => times x g
  | f, .number y => times y f
  | f, g => .product f g

def div : Formula α → Formula α → Except Error (Formula α)
  | .number x, .number y => Formula.number <$> Checked.div x y
  | f, .number y =>
    if y == 1 then .ok f
    else match f with
      | .variable i => do return .scaled (← Checked.div 1 y) i
      | .scaled c i => do return .scaled (← Checked.div c y) i
      | f => .ok (.quotient f (.number y))
  | f, g => .ok (.quotient f g)

def pow : Formula α → Formula α → Except Error (Formula α)
  | .number x, .number y => ofQuantity <$> Checked.pow x y
  | f, .number y => .ok (if y == 1 then f else .power f (.number y))
  | f, g => .ok (.power f g)

def apply (op : UnaryOp) : Formula α → Except Error (Formula α)
  | .number x => Formula.number <$> Checked.function op x
  | f => .ok (if op == .neg then negate f else .function op f)

def combine (op : BinaryOp) (f g : Formula α) : Except Error (Formula α) :=
  match op with
  | .add => .ok (add f g)
  | .sub => .ok (sub f g)
  | .mul => .ok (mul f g)
  | .div => div f g
  | .pow => pow f g

end Formula

/-! ## Formulas of expressions -/

namespace Expr

variable {α : Type} [Scalar α]

mutual

/-- The formula of an expression, with the position of each variable. Black boxes and foreign
evaluators have none. -/
def toFormula (position : Key → Except Error Nat) : Expr α → Except Error (Formula α)
  | .const x => .ok (.number x)
  | .ref k => do return .variable (← position k)
  | .binary op l r => do
    let f ← toFormula position l
    let g ← toFormula position r
    Formula.combine op f g
  | .unary op a => do Formula.apply op (← toFormula position a)
  | .sum terms => sumFormula position (.number 0) terms
  | e@(.blackBox ..) | e@(.custom _) => .error (.noFormula e.kindName)

def sumFormula (position : Key → Except Error Nat) (acc : Formula α) :
    List (Expr α) → Except Error (Formula α)
  | [] => .ok acc
  | t :: r => do
    let f ← toFormula position t
    sumFormula position (acc.add f) r

end

end Expr

end Equilibria
