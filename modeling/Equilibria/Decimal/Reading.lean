import Equilibria.Text.Blank
import Equilibria.Text.Digit

/-!
# Reading numbers

The grammar of written numbers: white space around, a sign, then `inf`, `infinity` or `nan` in any
case, or digits with at most one point and an exponent. Digits may be those of any script, and
single underscores may stand between them.
-/

namespace Equilibria.Decimal

/-- Writes the digits of every script in the ten ASCII ones. -/
def plainDigit (c : Char) : Char :=
  match Text.digitValue? c with
  | some d => Char.ofNat ('0'.toNat + d)
  | none => c

/-- Removes underscores, each of which has to stand between two digits. -/
def dropUnderscores (previous : Char) : List Char → Option (List Char)
  | [] => if previous == '_' then none else some []
  | c :: r =>
    if c == '_' then if previous.isDigit then dropUnderscores c r else none
    else if previous == '_' && !c.isDigit then none
    else (dropUnderscores c r).map (c :: ·)

def signed : List Char → Bool × List Char
  | '-' :: r => (true, r)
  | '+' :: r => (false, r)
  | r => (false, r)

def digitsValue (cs : List Char) : Nat :=
  cs.foldl (fun n c => 10 * n + (c.toNat - '0'.toNat)) 0

/-- The exponent part of a number, which has to be all that is left. -/
def readExponent : List Char → Option Int
  | [] => some 0
  | c :: r =>
    if c == 'e' || c == 'E' then
      let (negative, ds) := signed r
      if ds.isEmpty || !ds.all Char.isDigit then none
      else some (if negative then -(digitsValue ds : Int) else digitsValue ds)
    else none

/-- `digits · 10 ^ exponent` to the nearest double. An exponent far outside the range of
doubles is cut off, so that no huge power is built. -/
def nearest (digits : Nat) (exponent : Int) : Float :=
  if digits == 0 then 0.0
  else
    let places : Int := (Nat.toDigits 10 digits).length
    if exponent + places > 400 then 1.0 / 0.0
    else if exponent + places < -400 then 0.0
    else if exponent < 0 then Float.ofScientific digits true exponent.natAbs
    else Float.ofScientific digits false exponent.natAbs

def readMagnitude (cs : List Char) : Option Float :=
  let word := cs.map Char.toLower
  if word == "inf".toList || word == "infinity".toList then some (1.0 / 0.0)
  else if word == "nan".toList then some (0.0 / 0.0)
  else
    let whole := cs.takeWhile Char.isDigit
    let rest := cs.dropWhile Char.isDigit
    let (fraction, rest) := match rest with
      | '.' :: r => (r.takeWhile Char.isDigit, r.dropWhile Char.isDigit)
      | r => ([], r)
    if whole.isEmpty && fraction.isEmpty then none
    else
      (readExponent rest).map fun e =>
        nearest (digitsValue (whole ++ fraction)) (e - fraction.length)

def read? (s : String) : Option Float :=
  let cs := Text.trimSpace (s.toList.map plainDigit)
  match dropUnderscores ' ' cs with
  | none => none
  | some cs =>
    let (negative, cs) := signed cs
    (readMagnitude cs).map fun x => if negative then -x else x

/-- The whole number that a text stands for: digits alone, with a sign or none. -/
def readWhole? (s : String) : Option Int :=
  let cs := Text.trimSpace (s.toList.map plainDigit)
  match dropUnderscores ' ' cs with
  | none => none
  | some cs =>
    let (negative, ds) := signed cs
    if ds.isEmpty || !ds.all Char.isDigit then none
    else some (if negative then -(digitsValue ds : Int) else digitsValue ds)

end Equilibria.Decimal
