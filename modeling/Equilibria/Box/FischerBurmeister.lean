import Equilibria.Scalar

/-!
# The Fischer-Burmeister function

`phi a b = a + b - √(a² + b²)` is zero just when `a` and `b` are not negative and one of them
is zero. At the kink `a = b = 0` one element of its generalized derivative is chosen.
-/

namespace Equilibria

/-- A value that depends on two numbers, with its derivatives in the first and the second. -/
structure Row (α : Type) where
  value : α
  first : α
  second : α

variable {α : Type} [Scalar α]

/-- The slope in each direction at the kink. -/
def kinkSlope : α := 1 - 1 / Scalar.sqrt 2

def fischerBurmeister (a b : α) : Row α :=
  let r := Scalar.hypot a b
  if r == 0 then ⟨a + b - r, kinkSlope, kinkSlope⟩
  else ⟨a + b - r, 1 - a / r, 1 - b / r⟩

end Equilibria
