import Equilibria.Error
import Equilibria.Decimal.Reading
import Equilibria.Value.Number

/-!
# Reading fields

Records are read field by field. A value that does not fit its field is a flaw, and the flaws of
all fields are reported together, in the order of the fields.
-/

namespace Equilibria

/-- What is read from fields: a record, or the flaws of all fields that have one. -/
def Reading (β : Type) := Except (List Flaw) β

namespace Reading

variable {β γ : Type}

def ok (x : β) : Reading β := Except.ok x

def flaw (field : String) (complaint : Complaint) : Reading β := Except.error [⟨field, complaint⟩]

instance : Applicative Reading where
  pure := ok
  seq f x :=
    match f, x () with
    | .ok f, .ok x => .ok (f x)
    | .error p, .error q => .error (p ++ q)
    | .error p, .ok _ => .error p
    | .ok _, .error q => .error q

def get : Reading β → Except Error β
  | .ok x => .ok x
  | .error flaws => .error (.invalid flaws)

end Reading

/-! ## Texts -/

def textField (field : String) : Value → Reading String
  | .text s => .ok s
  | _ => .flaw field .notText

def optionalText (field : String) (v : Option Value) : Reading String :=
  v.elim (.ok "") (textField field)

def requiredText (field : String) : Option Value → Reading String
  | none => .flaw field .missing
  | some (.text s) => if s.isEmpty then .flaw field .emptyText else .ok s
  | some _ => .flaw field .notText

/-! ## Numbers -/

/-- A number of ASCII characters alone, without underscores. -/
def plainNumber? (cs : List Char) : Option Float :=
  if cs.all fun c => 32 < c.toNat && c.toNat < 127 && c != '_' then
    Decimal.read? (String.ofList cs)
  else none

/-- The text without its underscores, none of which may be at an end or beside another. -/
def withoutUnderscores? (cs : List Char) : Option (List Char) :=
  let doubled := (cs.zip cs.tail).any fun (c, d) => c == '_' && d == '_'
  if cs.head? == some '_' || cs.getLast? == some '_' || doubled || !cs.contains '_' then none
  else some (cs.filter (· != '_'))

def writtenNumber? (s : String) : Option Float :=
  let cs := s.toList
  plainNumber? (Text.trimSpace cs) <|> (withoutUnderscores? cs).bind plainNumber?

def numberField (field : String) : Value → Reading Float
  | .bool b => .ok (if b then 1.0 else 0.0)
  | .int n =>
    match doubleOfInt n with
    | .ok x => .ok x
    | .error _ => .flaw field .notNumber
  | .float x => .ok x
  | .nan _ => .ok notANumber
  | .text s =>
    match writtenNumber? s with
    | some x => .ok x
    | none => .flaw field .unreadableNumber
  | _ => .flaw field .notNumber

/-- A bound. Nothing stands for no bound, and a text for the number that it is written as. -/
def boundField (field : String) (unbounded : Float) : Value → Except Error (Reading Float)
  | .null => .ok (.ok unbounded)
  | v =>
    match v.toDouble with
    | .ok x => .ok (.ok x)
    | .error e@(.unreadable _) => .ok (.flaw field (.refused e.text))
    | .error e => .error e

/-! ## Whole numbers -/

/-- Digits with a point and zeros behind it are as good as the digits alone. -/
def withoutZeroFraction (cs : List Char) : List Char :=
  match cs.dropWhile (· != '.') with
  | '.' :: r =>
    if !r.isEmpty && r.all (· == '0') then cs.takeWhile (· != '.') else cs
  | _ => cs

def writtenWhole? (s : String) : Option Int :=
  let (negative, cs) := Decimal.signed (Text.trimSpace s.toList)
  let cs := withoutZeroFraction cs
  let digits := if cs.contains '_' then (withoutUnderscores? cs).getD [] else cs
  if digits.isEmpty || !digits.all Char.isDigit then none
  else
    let n := Decimal.digitsValue digits
    some (if negative then -(n : Int) else n)

def wholeField (field : String) : Value → Reading Int
  | .bool b => .ok (if b then 1 else 0)
  | .int n => .ok n
  | .nan _ => .flaw field .infinite
  | .float x =>
    match wholePart x with
    | .error _ => .flaw field .infinite
    | .ok n =>
      if x != x.floor then .flaw field .fractional
      -- Doubles beyond 64 bits are not read as whole numbers.
      else if n.natAbs < Nat.pow 2 63 then .ok n
      else .flaw field .tooLarge
  | .text s =>
    match writtenWhole? s with
    | some n => .ok n
    | none => .flaw field .unreadableWhole
  | _ => .flaw field .notWhole

def maybeField {β : Type} (read : Value → Reading β) : Value → Reading (Option β)
  | .null => .ok none
  | v => some <$> read v

def choiceField {β : Type} (field : String) (names : List String) (ofText? : String → Option β) :
    Value → Reading β
  | .text s => (ofText? s).elim (.flaw field (.notOneOf names)) .ok
  | _ => .flaw field (.notOneOf names)

end Equilibria
