/-!
# Scalars

The operations on numbers that expressions and solvers use. Nothing here is a law: the doubles
run, and other scalars, exact ones among them, can take their place.
-/

namespace Equilibria

/-- What a number can do. `toFloat` is the double that stands for it in texts. -/
class Scalar (α : Type) extends Add α, Sub α, Mul α, Div α, Neg α, BEq α, LE α, LT α where
  ofFloat : Float → α
  toFloat : α → Float
  ofNat : Nat → α
  infinity : α
  abs : α → α
  sqrt : α → α
  exp : α → α
  log : α → α
  sin : α → α
  cos : α → α
  pow : α → α → α
  /-- The length of the vector with these two legs. -/
  hypot : α → α → α
  isFinite : α → Bool
  isNaN : α → Bool
  isWhole : α → Bool
  decLe : DecidableLE α
  decLt : DecidableLT α

namespace Scalar

variable {α : Type} [Scalar α]

instance : DecidableLE α := decLe
instance : DecidableLT α := decLt
instance (n : Nat) : OfNat α n := ⟨ofNat n⟩
instance : Inhabited α := ⟨ofNat 0⟩

def half : α := 1 / 2

end Scalar

/-! ## Doubles -/

namespace Double

def infinity : Float := 1.0 / 0.0

/-- The length of a vector with legs `ax ≥ ay` near one: the square root of the sum of
squares, with its rounding error taken off. -/
def hypotNear (ax ay : Float) : Float :=
  let h := Float.sqrt (ax * ax + ay * ay)
  let (t1, t2) :=
    if h ≤ 2.0 * ay then
      let d := h - ay
      (ax * (2.0 * d - ax), (d - 2.0 * (ax - ay)) * d)
    else
      let d := h - ax
      (2.0 * d * (ax - 2.0 * ay), (4.0 * d - ay) * ay + d * d)
  h - (t1 + t2) / (2.0 * h)

def power2 (e : Int) : Float := Float.ofBits ((e + 1023).toNat * Nat.pow 2 52).toUInt64

/-- The length of a vector. Very long and very short ones are scaled first, and a leg too
short to count is only added. -/
def hypot (x y : Float) : Float :=
  if x.isInf || y.isInf then infinity
  else if x.isNaN || y.isNaN then x + y
  else
    let x := x.abs
    let y := y.abs
    let ax := if x < y then y else x
    let ay := if x < y then x else y
    let scale := power2 (-600)
    let eps := power2 (-54)
    if power2 511 < ax then
      if ay ≤ ax * eps then ax + ay else hypotNear (ax * scale) (ay * scale) / scale
    else if ay < power2 (-459) then
      if ay / eps ≤ ax then ax + ay else hypotNear (ax / scale) (ay / scale) * scale
    else if ay ≤ ax * eps then ax + ay
    else hypotNear ax ay

end Double

instance : Scalar Float where
  ofFloat := id
  toFloat := id
  ofNat := Float.ofNat
  infinity := Double.infinity
  abs := Float.abs
  sqrt := Float.sqrt
  exp := Float.exp
  log := Float.log
  sin := Float.sin
  cos := Float.cos
  pow := Float.pow
  hypot := Double.hypot
  isFinite := Float.isFinite
  isNaN := Float.isNaN
  isWhole x := x == x.floor
  decLe := inferInstance
  decLt := inferInstance

end Equilibria
