import Equilibria.Decimal.Binary

/-!
# Decimals of a given precision

The nearest multiple of a power of ten to a double; a value half way between two of them goes
to the even one.
-/

namespace Equilibria.Decimal

/-- `num / den` to the nearest whole number, halves to the even one. -/
def roundDiv (num den : Nat) : Nat :=
  let q := num / den
  let r := num % den
  if 2 * r < den then q
  else if den < 2 * r then q + 1
  else if q % 2 == 0 then q else q + 1

/-- A positive `mantissa · 2 ^ exponent` in units of `10 ^ (-places)`. -/
def atPlaces (mantissa : Nat) (exponent : Int) (places : Int) : Nat :=
  roundDiv (mantissa * Nat.pow 2 exponent.toNat * Nat.pow 10 places.toNat)
    (Nat.pow 2 (-exponent).toNat * Nat.pow 10 (-places).toNat)

/-- A positive `mantissa · 2 ^ exponent` to `count` significant digits: the digits as one
number of that length, and the power of ten of the first digit. -/
def significant (mantissa : Nat) (exponent : Int) (count : Nat) : Nat × Int :=
  let lead := floorLog10 (mantissa * Nat.pow 2 exponent.toNat) (Nat.pow 2 (-exponent).toNat)
  let digits := atPlaces mantissa exponent (count - 1 - lead)
  -- Rounding up may have made one digit more.
  if digits < Nat.pow 10 count then (digits, lead) else (digits / 10, lead + 1)

end Equilibria.Decimal
