import Equilibria.Decimal.Shortest
import Equilibria.Decimal.Rounded

/-!
# Written numbers

The texts of a double: the shortest one, with fixed places, in scientific form, and in the
general form of six digits.
-/

namespace Equilibria.Decimal

/-- A number as `lead.rest`, with the power of ten of the first digit. -/
structure Digits where
  all : List Char
  power : Int

namespace Digits

def ofNat (n : Nat) (power : Int) : Digits := ⟨Nat.toDigits 10 n, power⟩

/-- Drops the zeros at the end, but keeps one digit. -/
def trim (d : Digits) : Digits :=
  match (d.all.reverse.dropWhile (· == '0')).reverse with
  | [] => ⟨['0'], d.power⟩
  | cs => ⟨cs, d.power⟩

/-- An exponent has a sign and at least two digits. -/
def exponentText (power : Int) : String :=
  let n := Nat.toDigits 10 power.natAbs
  let n := if n.length < 2 then '0' :: n else n
  String.ofList ('e' :: (if power < 0 then '-' else '+') :: n)

def scientific (d : Digits) : String :=
  let mantissa := match d.all with
    | c :: (r@(_ :: _)) => String.ofList (c :: '.' :: r)
    | cs => String.ofList cs
  mantissa ++ exponentText d.power

/-- All digits in their places; `point` appends `.0` to a whole number. -/
def positional (d : Digits) (point : Bool) : String :=
  if d.power < 0 then
    String.ofList ('0' :: '.' :: List.replicate (-d.power - 1).toNat '0' ++ d.all)
  else
    let n := d.power.toNat + 1
    let whole := d.all.take n ++ List.replicate (n - d.all.length) '0'
    match d.all.drop n with
    | [] => String.ofList whole ++ if point then ".0" else ""
    | fraction => String.ofList (whole ++ '.' :: fraction)

end Digits

structure Style where
  positive : Nat → Int → String
  zero : String

/-- The sign of zero is written, the sign of a value that is not a number is not. -/
def Style.write (s : Style) (x : Float) : String :=
  match Binary.ofFloat x with
  | .nan => "nan"
  | .infinite negative => if negative then "-inf" else "inf"
  | .finite negative m e =>
    let body := if m == 0 then s.zero else s.positive m e
    if negative then "-" ++ body else body

/-- Positional from `10 ^ (-4)` up to, but not including, `10 ^ 16`. -/
def shortStyle : Style where
  positive m e :=
    let s := shortest m e
    let all := Nat.toDigits 10 s.digits
    let d := (Digits.mk all (s.exponent + all.length - 1)).trim
    if -4 ≤ d.power && d.power < 16 then d.positional true else d.scientific
  zero := "0.0"

def fixedStyle (places : Nat) : Style where
  positive m e :=
    let cs := Nat.toDigits 10 (atPlaces m e places)
    let cs := List.replicate (places + 1 - cs.length) '0' ++ cs
    let n := cs.length - places
    String.ofList (cs.take n ++ if places = 0 then [] else '.' :: cs.drop n)
  zero := String.ofList ('0' :: if places = 0 then [] else '.' :: List.replicate places '0')

def scientificStyle (places : Nat) : Style where
  positive m e :=
    let (n, power) := significant m e (places + 1)
    (Digits.ofNat n power).scientific
  zero := (Digits.mk ('0' :: List.replicate places '0') 0).scientific

/-- Six digits without the zeros at the end; positional from `10 ^ (-4)` up to, but not
including, `10 ^ 6`. -/
def generalStyle : Style where
  positive m e :=
    let (n, power) := significant m e 6
    let d := (Digits.ofNat n power).trim
    if -4 ≤ power && power < 6 then d.positional false else d.scientific
  zero := "0"

end Equilibria.Decimal

namespace Equilibria

/-! ## The texts by name -/

/-- The shortest text that reads back as the same double. -/
def shortText (x : Float) : String := Decimal.shortStyle.write x

def fixedText (places : Nat) (x : Float) : String := (Decimal.fixedStyle places).write x

def scientificText (places : Nat) (x : Float) : String := (Decimal.scientificStyle places).write x

def generalText (x : Float) : String := Decimal.generalStyle.write x

end Equilibria
