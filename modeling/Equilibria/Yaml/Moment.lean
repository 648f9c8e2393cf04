import Equilibria.Value.Number
import Equilibria.Yaml.Tag

/-!
# Dates and moments

A date, or a moment with a time of day and maybe a zone, and the texts of both.
-/

namespace Equilibria.Yaml

def daysIn (year month : Nat) : Nat :=
  let leap := year % 4 == 0 && (year % 100 != 0 || year % 400 == 0)
  if month == 2 then if leap then 29 else 28
  else if month == 4 || month == 6 || month == 9 || month == 11 then 30
  else 31

def padded (width n : Nat) : String :=
  let cs := Nat.toDigits 10 n
  String.ofList (List.replicate (width - cs.length) '0' ++ cs)

structure Date where
  year : Nat
  month : Nat
  day : Nat

namespace Date

def isValid (d : Date) : Bool :=
  1 ≤ d.year && 1 ≤ d.month && d.month ≤ 12 && 1 ≤ d.day && d.day ≤ daysIn d.year d.month

def toText (d : Date) : String :=
  padded 4 d.year ++ "-" ++ padded 2 d.month ++ "-" ++ padded 2 d.day

def toValue (d : Date) : Value :=
  .sealed d.toText s!"datetime.date({d.year}, {d.month}, {d.day})"

end Date

/-- A time of day, with millionths of a second and the distance to the zone in minutes. -/
structure Moment where
  date : Date
  hour : Nat
  minute : Nat
  second : Nat
  micro : Nat
  zone : Option Int

namespace Moment

def isValid (m : Moment) : Bool :=
  m.date.isValid && m.hour < 24 && m.minute < 60 && m.second < 60 &&
    m.zone.all fun z => z.natAbs < 1440

def zoneText : Option Int → String
  | none => ""
  | some z =>
    (if z < 0 then "-" else "+") ++ padded 2 (z.natAbs / 60) ++ ":" ++ padded 2 (z.natAbs % 60)

def toText (m : Moment) : String :=
  m.date.toText ++ " " ++ padded 2 m.hour ++ ":" ++ padded 2 m.minute ++ ":" ++
    padded 2 m.second ++ (if m.micro == 0 then "" else "." ++ padded 6 m.micro) ++ zoneText m.zone

/-- The zone inside another value: a distance to the west counts back from a day. -/
def zoneInside : Option Int → List String
  | none => []
  | some z =>
    if z == 0 then ["tzinfo=datetime.timezone.utc"]
    else
      let delta :=
        if 0 < z then s!"seconds={z * 60}" else s!"days=-1, seconds={86400 + z * 60}"
      [s!"tzinfo=datetime.timezone(datetime.timedelta({delta}))"]

def inside (m : Moment) : String :=
  let parts := [m.date.year, m.date.month, m.date.day, m.hour, m.minute]
  let tail :=
    if m.micro != 0 then [m.second, m.micro] else if m.second != 0 then [m.second] else []
  let texts := (parts ++ tail).map toString ++ zoneInside m.zone
  "datetime.datetime(" ++ ", ".intercalate texts ++ ")"

end Moment

def digitsNat (cs : List Char) : Nat := cs.foldl (fun n c => 10 * n + (c.toNat - '0'.toNat)) 0

def zoneOf (cs : List Char) : Option Int :=
  match cs.dropWhile fun c => c == ' ' || c == '\t' with
  | [] => none
  | ['Z'] => some 0
  | sign :: r =>
    let hours := r.takeWhile Char.isDigit
    let minutes := (r.dropWhile Char.isDigit).tail
    let n : Int := (digitsNat hours * 60 + digitsNat minutes : Nat)
    some (if sign == '-' then -n else n)

def numbersIn (cs : List Char) : Nat → List (List Char)
  | 0 => []
  | k + 1 =>
    let cs := cs.dropWhile fun c => !c.isDigit
    if cs.isEmpty then []
    else cs.takeWhile Char.isDigit :: numbersIn (cs.dropWhile Char.isDigit) k

def afterNumbers (cs : List Char) : Nat → List Char
  | 0 => cs
  | k + 1 => afterNumbers ((cs.dropWhile fun c => !c.isDigit).dropWhile Char.isDigit) k

def momentOf (s : String) : Except Error Value :=
  let cs := s.toList
  match (numbersIn cs 6).map digitsNat with
  | [y, m, d] =>
    let date : Date := ⟨y, m, d⟩
    if Tag.isDateForm cs && date.isValid then .ok date.toValue else .error .badValue
  | [y, m, d, h, mi, sec] =>
    let rest := afterNumbers cs 6
    let (fraction, rest) := match rest with
      | '.' :: r => (r.takeWhile Char.isDigit, r.dropWhile Char.isDigit)
      | r => ([], r)
    let fraction := fraction.take 6
    let micro := digitsNat (fraction ++ List.replicate (6 - fraction.length) '0')
    let moment : Moment := ⟨⟨y, m, d⟩, h, mi, sec, micro, zoneOf rest⟩
    if moment.isValid then .ok (.sealed moment.toText moment.inside) else .error .badValue
  | _ => .error .badValue

end Equilibria.Yaml
