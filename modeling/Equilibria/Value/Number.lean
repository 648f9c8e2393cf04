import Equilibria.Error
import Equilibria.Decimal.Reading

/-!
# Numbers among values

Reading values as doubles.
-/

namespace Equilibria

def notANumber : Float := 0.0 / 0.0

/-- The nearest double to a whole number, if it is not too large. -/
def doubleOfInt (n : Int) : Except Error Float :=
  let x := Float.ofInt n
  if x.isFinite then .ok x else .error .overflow

def doubleOfText (s : String) : Except Error Float :=
  match Decimal.read? s with
  | some x => .ok x
  | none => .error (.unreadable s)

def wholePart (x : Float) : Except Error Int :=
  match Decimal.Binary.ofFloat x with
  | .nan => .error .nanToWhole
  | .infinite _ => .error .overflow
  | .finite negative m e =>
    let n := m * Nat.pow 2 e.toNat / Nat.pow 2 (-e).toNat
    .ok (if negative then -(n : Int) else n)

namespace Value

/-- Numbers as they are, and texts as the numbers they stand for. -/
def toDouble : Value → Except Error Float
  | .bool b => .ok (if b then 1.0 else 0.0)
  | .int n => doubleOfInt n
  | .float x => .ok x
  | .nan _ => .ok notANumber
  | .text s => doubleOfText s
  | _ => .error .wrongType

/-- The whole number that a truth value or integer is. -/
def whole? : Value → Option Int
  | .bool b => some (if b then 1 else 0)
  | .int n => some n
  | _ => none

/-- Numbers without their fractions, and texts of whole numbers as these. -/
def toWhole : Value → Except Error Int
  | .bool b => .ok (if b then 1 else 0)
  | .int n => .ok n
  | .float x => wholePart x
  | .nan _ => .error .nanToWhole
  | .text s =>
    match Decimal.readWhole? s with
    | some n => .ok n
    | none => .error .badValue
  | _ => .error .wrongType

def isNumber : Value → Bool
  | .bool _ | .int _ | .float _ | .nan _ => true
  | _ => false

def isZero (v : Value) : Bool := v == .int 0

end Value

end Equilibria
