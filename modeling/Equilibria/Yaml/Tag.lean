/-!
# Tags

What kind of value a node stands for. A plain text without a tag gets one by its form.
-/

namespace Equilibria.Yaml

inductive Tag where
  | null
  | bool
  | int
  | float
  | timestamp
  | merge
  | equals
  | text
  | sequence
  | mapping
  | binary
  | omap
  | pairs
  | set
  | other (name : String)
deriving DecidableEq, Repr

namespace Tag

def standardPrefix : String := "tag:yaml.org,2002:"

def ofName (name : String) : Tag :=
  let known : List (String × Tag) := [("null", .null), ("bool", .bool), ("int", .int),
    ("float", .float), ("timestamp", .timestamp), ("merge", .merge), ("value", .equals),
    ("str", .text), ("seq", .sequence), ("map", .mapping), ("binary", .binary), ("omap", .omap),
    ("pairs", .pairs), ("set", .set)]
  match known.find? fun p => standardPrefix ++ p.1 == name with
  | some (_, t) => t
  | none => .other name

/-! ## Forms of plain texts -/

def isBoolWord (s : String) : Bool :=
  ["yes", "Yes", "YES", "no", "No", "NO", "true", "True", "TRUE", "false", "False", "FALSE",
    "on", "On", "ON", "off", "Off", "OFF"].contains s

def isNullWord (s : String) : Bool := ["", "~", "null", "Null", "NULL"].contains s

def dropSign : List Char → List Char
  | '-' :: r | '+' :: r => r
  | r => r

def isSpaced (p : Char → Bool) (c : Char) : Bool := p c || c == '_'

/-- A part of a number in base sixty: one or two digits below sixty. -/
def isSixtieth (cs : List Char) : Bool :=
  match cs with
  | [c] => c.isDigit
  | [c, d] => '0' ≤ c && c ≤ '5' && d.isDigit
  | _ => false

def colonParts (cs : List Char) : List (List Char) :=
  cs.foldr (fun c acc => if c == ':' then [] :: acc else
    match acc with
    | p :: r => (c :: p) :: r
    | [] => [[c]]) [[]]

def isDigits (cs : List Char) : Bool := !cs.isEmpty && cs.all Char.isDigit

/-- An exponent needs its sign. -/
def isExponent (cs : List Char) : Bool :=
  match cs with
  | [] => true
  | e :: sign :: r => (e == 'e' || e == 'E') && (sign == '-' || sign == '+') && isDigits r
  | _ => false

def startsWithDigit (cs : List Char) : Bool := (cs.headD ' ').isDigit

def isFloatForm (cs : List Char) : Bool :=
  let spaced := isSpaced Char.isDigit
  let body := dropSign cs
  let decimal :=
    let rest := body.dropWhile spaced
    startsWithDigit body && rest.headD ' ' == '.' && isExponent (rest.tail.dropWhile spaced)
  let fraction :=
    cs.headD ' ' == '.' && startsWithDigit cs.tail && isExponent (cs.tail.dropWhile spaced)
  let sixties :=
    match colonParts body with
    | first :: rest@(_ :: _) =>
      let last := rest.getLastD []
      startsWithDigit first && first.all spaced && rest.dropLast.all isSixtieth &&
        isSixtieth (last.takeWhile (· != '.')) && last.contains '.' &&
        ((last.dropWhile (· != '.')).tail.all spaced)
    | _ => false
  let infinite := [".inf", ".Inf", ".INF"].contains (String.ofList body)
  let nan := [".nan", ".NaN", ".NAN"].contains (String.ofList cs)
  decimal || fraction || sixties || infinite || nan

def isIntForm (cs : List Char) : Bool :=
  let spaced := isSpaced Char.isDigit
  match dropSign cs with
  | [] => false
  | ['0'] => true
  | '0' :: 'b' :: r => !r.isEmpty && r.all (isSpaced fun c => c == '0' || c == '1')
  | '0' :: 'x' :: r =>
    !r.isEmpty && r.all (isSpaced fun c => c.isDigit || ('a' ≤ c.toLower && c.toLower ≤ 'f'))
  | '0' :: r => r.all (isSpaced fun c => '0' ≤ c && c ≤ '7')
  | c :: r =>
    if !c.isDigit then false
    else
      match colonParts (c :: r) with
      | [first] => first.all spaced
      | first :: rest => first.all spaced && rest.all isSixtieth
      | [] => false

/-- The lengths of the runs of digits that a text starts with. -/
def takeDigits (least most : Nat) (cs : List Char) : Option (List Char × List Char) :=
  let ds := (cs.take most).takeWhile Char.isDigit
  if least ≤ ds.length then some (ds, cs.drop ds.length) else none

def isDateForm (cs : List Char) : Bool :=
  match cs with
  | [a, b, c, d, '-', e, f, '-', g, h] => [a, b, c, d, e, f, g, h].all Char.isDigit
  | _ => false

def expect (p : Char → Bool) : List Char → Option (List Char)
  | c :: r => if p c then some r else none
  | [] => none

/-- The blanks or the letter between a date and a time. -/
def dateGap : List Char → Option (List Char)
  | c :: r =>
    if c == 'T' || c == 't' then some r
    else if c == ' ' || c == '\t' then some (r.dropWhile fun c => c == ' ' || c == '\t')
    else none
  | [] => none

/-- The time zone at the end of a moment: none, `Z`, or hours with minutes or without. -/
def isZone (cs : List Char) : Bool :=
  match cs.dropWhile fun c => c == ' ' || c == '\t' with
  | [] => cs.isEmpty
  | ['Z'] => true
  | sign :: r =>
    (sign == '-' || sign == '+') &&
      match takeDigits 1 2 r with
      | some (_, []) => true
      | some (_, ':' :: r) => r.length == 2 && isDigits r
      | _ => false

def isMomentForm (cs : List Char) : Bool :=
  let rest := do
    let (_, r) ← takeDigits 4 4 cs
    let r ← expect (· == '-') r
    let (_, r) ← takeDigits 1 2 r
    let r ← expect (· == '-') r
    let (_, r) ← takeDigits 1 2 r
    let r ← dateGap r
    let (_, r) ← takeDigits 1 2 r
    let r ← expect (· == ':') r
    let (_, r) ← takeDigits 2 2 r
    let r ← expect (· == ':') r
    let (_, r) ← takeDigits 2 2 r
    match r with
    | '.' :: r => some (r.dropWhile Char.isDigit)
    | r => some r
  match rest with
  | some r => isZone r
  | none => false

def ofPlain (s : String) : Tag :=
  let cs := s.toList
  if isBoolWord s then .bool
  else if isFloatForm cs then .float
  else if isIntForm cs then .int
  else if s == "<<" then .merge
  else if isNullWord s then .null
  else if isDateForm cs || isMomentForm cs then .timestamp
  else if s == "=" then .equals
  else .text

end Tag

end Equilibria.Yaml
