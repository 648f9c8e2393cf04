import Equilibria.Value.Number

/-!
# Plain arithmetic

The binary operations on plain numbers. Whole numbers stay whole as long as the operation
allows it; doubles that would leave the reals, or be too large, are refused.
-/

namespace Equilibria

inductive BinaryOp where
  | add | sub | mul | div | pow
deriving DecidableEq, Repr

namespace BinaryOp

def symbol : BinaryOp → String
  | .add => "+"
  | .sub => "-"
  | .mul => "*"
  | .div => "/"
  | .pow => "**"

def ofSymbol? (s : String) : Option BinaryOp :=
  [add, sub, mul, div, pow].find? (·.symbol == s)

end BinaryOp

namespace Double

/-- A negative base has no real power of a fraction, and zero no negative power. A complex power
is as large as the same power of the absolute value. -/
def checkedPow (x y : Float) : Except Error Float :=
  if x == 0.0 && y < 0.0 && y.isFinite then .error .divisionByZero
  else if x < 0.0 && x.isFinite && y.isFinite && y != y.floor then
    .error (if (Float.pow (-x) y).isInf then .overflow else .unusable "complex")
  else
    let r := Float.pow x y
    if r.isInf && x.isFinite && y.isFinite then .error .overflow else .ok r

def checked (op : BinaryOp) (x y : Float) : Except Error Float :=
  match op with
  | .add => .ok (x + y)
  | .sub => .ok (x - y)
  | .mul => .ok (x * y)
  | .div => if y == 0.0 then .error .divisionByZero else .ok (x / y)
  | .pow => checkedPow x y

end Double

open Float.Model in
/-- The nearest double to a quotient. -/
def Double.quotient (a b : Nat) : Float :=
  let (m, e, rest) := UnpackedFloat.divCore .binary64 a 0 b 0
  .ofModel (.pack (UnpackedFloat.roundWithAccuracy .binary64 .positive m e rest))

/-- The quotient of whole numbers. A zero takes the sign of the divisor. -/
def wholeQuotient (a b : Int) : Except Error Float :=
  if b == 0 then .error .divisionByZero
  else if a == 0 then .ok (if b < 0 then -0.0 else 0.0)
  else
    let x := Double.quotient a.natAbs b.natAbs
    if !x.isFinite then .error .overflow
    else .ok (if decide (a < 0) != decide (b < 0) then -x else x)

namespace Value

def ofDouble (x : Float) : Value := if x.isNaN then .nan 0 else .float x

/-- A power of whole numbers. Those of zero and of the units depend on the exponent only through
its parity, so that an exponent of any size can be taken. -/
def wholePower (a : Int) (n : Nat) : Int :=
  Int.pow a (if a.natAbs ≤ 1 && 2 ≤ n then 2 + n % 2 else n)

def wholeArithmetic (op : BinaryOp) (a b : Int) : Except Error Value :=
  match op with
  | .add => .ok (.int (a + b))
  | .sub => .ok (.int (a - b))
  | .mul => .ok (.int (a * b))
  | .div => ofDouble <$> wholeQuotient a b
  | .pow =>
    if 0 ≤ b then .ok (.int (wholePower a b.toNat))
    else do return ofDouble (← Double.checkedPow (← doubleOfInt a) (← doubleOfInt b))

def arithmetic (op : BinaryOp) (a b : Value) : Except Error Value :=
  match a.whole?, b.whole? with
  | some m, some n => wholeArithmetic op m n
  | _, _ =>
    if a.isNumber && b.isNumber then do
      return ofDouble (← Double.checked op (← a.toDouble) (← b.toDouble))
    else .error .wrongType

def negate (a : Value) : Except Error Value :=
  match a.whole? with
  | some n => .ok (.int (-n))
  | none => if a.isNumber then do return ofDouble (-(← a.toDouble)) else .error .wrongType

/-- A plus sign makes a truth value a whole number and leaves other numbers alone. -/
def unchanged (a : Value) : Except Error Value :=
  match a.whole? with
  | some n => .ok (.int n)
  | none => if a.isNumber then .ok a else .error .wrongType

end Value

end Equilibria
