import Equilibria.Decimal.Binary

/-!
# Shortest decimals

The decimal with the fewest digits that reads back as the same double, and among those the
nearest one. The doubles that a decimal may be mistaken for leave an interval around the
value; its ends belong to it when the mantissa is even.
-/

namespace Equilibria.Decimal

structure Scaled where
  digits : Nat
  exponent : Int
deriving DecidableEq, Repr

/-- The reals that round to `mantissa · 2 ^ exponent`, with the value itself, all in units of
`1 / den`. -/
structure Interval where
  low : Nat
  value : Nat
  high : Nat
  den : Nat
  closed : Bool

namespace Interval

def ofBinary (mantissa : Nat) (exponent : Int) : Interval :=
  -- Below a power of two the neighbour is only half as far.
  let narrow := mantissa == Binary.hidden && decide (-1074 < exponent)
  let num := Nat.pow 2 (exponent - 2).toNat
  { low := (4 * mantissa - if narrow then 1 else 2) * num
    value := 4 * mantissa * num
    high := (4 * mantissa + 2) * num
    den := Nat.pow 2 (2 - exponent).toNat
    closed := mantissa % 2 == 0 }

def holds (i : Interval) (digits up down : Nat) : Bool :=
  let c := digits * up * i.den
  if i.closed then i.low * down ≤ c && c ≤ i.high * down
  else i.low * down < c && c < i.high * down

/-- The nearer of the value's two neighbours among the multiples of `10 ^ p` that lie in the
interval; of two equally near ones the even. -/
def onGrid (i : Interval) (p : Int) : Option Nat :=
  let up := Nat.pow 10 p.toNat
  let down := Nat.pow 10 (-p).toNat
  let below := i.value * down / (i.den * up)
  let above := below + 1
  match i.holds below up down, i.holds above up down with
  | false, false => none
  | true, false => some below
  | false, true => some above
  | true, true =>
    let toBelow := i.value * down - below * up * i.den
    let toAbove := above * up * i.den - i.value * down
    if toBelow < toAbove then some below
    else if toAbove < toBelow then some above
    else if below % 2 == 0 then some below else some above

end Interval

/-- Tries `n` digits, then one more, as long as there is fuel. Seventeen digits always do. -/
def shortestFrom (i : Interval) (top : Int) (n fuel : Nat) : Scaled :=
  let p := top - n + 1
  match fuel, i.onGrid p with
  | _, some d => ⟨d, p⟩
  | 0, none => ⟨0, 0⟩
  | fuel + 1, none => shortestFrom i top (n + 1) fuel

def shortest (mantissa : Nat) (exponent : Int) : Scaled :=
  let i := Interval.ofBinary mantissa exponent
  shortestFrom i (floorLog10 i.value i.den) 1 17

end Equilibria.Decimal
