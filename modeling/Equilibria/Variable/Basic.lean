import Equilibria.Key.Make
import Equilibria.Report
import Equilibria.Scalar

/-!
# Variables

A variable has two bounds, a point to start from, and the value of the last solution if there
is one. Bounds are free of each other: a lower bound may be above the upper one, until a solve
refuses it.
-/

namespace Equilibria

structure Variable (α : Type) where
  key : Key
  lower : α
  upper : α
  start : α
  description : String
  value : Option α

/-- What a variable is made from, each field as it is given. -/
structure Variable.Fields where
  lower : Value := .float 0.0
  upper : Value := .null
  start : Value := .float 0.0
  description : Value := .text ""

namespace Variable

variable {α : Type} [Scalar α]

def lowerField (v : Value) : Except Error (Reading α) := do
  return Scalar.ofFloat <$> (← boundField "lower" (-Double.infinity) v)

def upperField (v : Value) : Except Error (Reading α) := do
  return Scalar.ofFloat <$> (← boundField "upper" Double.infinity v)

def startField (v : Value) : Reading α := Scalar.ofFloat <$> numberField "start" v

def make (key : Key) (f : Fields) : Except Error (Variable α) := do
  let lower ← lowerField f.lower
  let upper ← upperField f.upper
  let make (l u s : α) (d : String) : Variable α := ⟨key, l, u, s, d, none⟩
  (make <$> lower <*> upper <*> startField f.start <*> textField "description" f.description).get

/-- A variable whose bounds are the same number can only take that value. -/
def isFixed (v : Variable α) : Bool := v.lower == v.upper

def number (x : α) : String := shortText (Scalar.toFloat x)

def toText (v : Variable α) : String :=
  let mark := if v.isFixed then " [FIXED]" else ""
  s!"Variable {v.key} in [{number v.lower}, {number v.upper}]{mark}"

def report (v : Variable α) : Report :=
  .record [("key", v.key.toText), ("name", v.key.name), ("index", .each v.key.index .ofValue),
    ("lower", .exact v.lower), ("upper", .exact v.upper), ("start", .exact v.start),
    ("value", .maybe v.value .settled), ("fixed", v.isFixed), ("description", v.description),
    ("repr", v.toText)]

/-! ## Edits -/

/-- The fields that change the problem handed to a solver. -/
inductive Bound where
  | lower
  | upper
  | start
deriving DecidableEq, Repr

def Bound.name : Bound → String
  | .lower => "lower"
  | .upper => "upper"
  | .start => "start"

inductive Edit where
  | bound (field : Bound) (value : Value)
  /-- Takes the start as a bound. -/
  | toStart (field : Bound)
  | description (value : Value)
  | key (value : Value)
  /-- What is derived from other fields cannot be assigned. -/
  | derived
  | unknown (field : String)

namespace Edit

def ofField (field : String) (value : Value) : Edit :=
  match field with
  | "lower" => .bound .lower value
  | "upper" => .bound .upper value
  | "start" => .bound .start value
  | "description" => .description value
  | "key" => .key value
  | "name" | "index" | "value" => .derived
  | field => .unknown field

def bound? : Edit → Option Bound
  | .bound field _ | .toStart field => some field
  | _ => none

end Edit

def fieldOf? (entries : List (Value × Value)) (name : String) : Option Value :=
  (entries.find? (·.1 == .text name)).map (·.2)

def keyField : Value → Reading Key
  | .map entries =>
    match Key.read (fieldOf? entries "name") (fieldOf? entries "index") with
    | .ok key => .ok key
    | .error flaws => .error (flaws.map fun p => { p with field := "key." ++ p.field })
  | _ => .flaw "key" (.notRecord "ComponentKey")

def put (v : Variable α) (field : Bound) (x : α) : Variable α :=
  match field with
  | .lower => { v with lower := x }
  | .upper => { v with upper := x }
  | .start => { v with start := x }

def readBound (field : Bound) (value : Value) : Except Error α := do
  match field with
  | .lower => (← lowerField value).get
  | .upper => (← upperField value).get
  | .start => (startField value).get

def edit (v : Variable α) : Edit → Except Error (Variable α)
  | .bound field value => do return v.put field (← readBound field value)
  | .toStart field => .ok (v.put field v.start)
  | .description value => do
    return { v with description := (← (textField "description" value).get) }
  | .key value => do return { v with key := (← (keyField value).get) }
  | .derived => .error .noAttribute
  | .unknown field => .error (.invalid [⟨field, .unknown field⟩])

/-- The edits that fix a variable at a value, or at its start if there is none. -/
def fixing (value : Option Value) : List Edit :=
  (value.map (Edit.bound .start)).toList ++ [.toStart .lower, .toStart .upper]

def unfixing (lower upper : Value) : List Edit := [.bound .lower lower, .bound .upper upper]

/-- Makes edits one after the other. Those before a failure stay made. -/
def editAll : List Edit → Variable α → Except Error Unit × Variable α
  | [], v => (.ok (), v)
  | e :: r, v =>
    match v.edit e with
    | .ok v => editAll r v
    | .error e => (.error e, v)

end Variable

end Equilibria
