import Equilibria.Index.Product
import Equilibria.Report
import Equilibria.Value.Number

/-!
# Solver options

Named texts in an order. What solvers read from them is decided by the reader asked, and nothing
is checked before.
-/

namespace Equilibria

structure Options where
  entries : List (String × String)
deriving DecidableEq, Inhabited

namespace Options

def empty : Options := ⟨[]⟩

/-- The text that stands for a value: truth values are `yes` and `no`. -/
def valueText : Value → String
  | .bool b => if b then "yes" else "no"
  | v => v.toText

/-- A later value takes the place of an earlier one under the same name. -/
def put (entries : List (String × String)) (name value : String) : List (String × String) :=
  if entries.any (·.1 == name) then
    entries.map fun e => if e.1 == name then (e.1, value) else e
  else entries ++ [(name, value)]

def putAll (entries updates : List (String × String)) : List (String × String) :=
  updates.foldl (fun acc e => put acc e.1 e.2) entries

/-- The options of a map. Names and values are written as texts. -/
def ofEntries (entries : List (Value × Value)) : Options :=
  ⟨putAll [] (entries.map fun e => (e.1.toText, valueText e.2))⟩

def ofValue : Value → Except Error Options
  | .null => .ok empty
  | .map entries => .ok (ofEntries entries)
  | _ => .error (.invalid [⟨"values", .refused "Solver options must be a mapping"⟩])

/-! ## Mappings and keywords -/

def isNothing : Value → Bool
  | .null | .bool false => true
  | .text s => s.isEmpty
  | .tuple items | .list items => items.isEmpty
  | .range a b s => rangeSize a b s == 0
  | .map entries => entries.isEmpty
  | .set _ elements _ => elements.isEmpty
  -- The sets and bytes of a document are known by their texts alone.
  | .sealed text _ => text == "set()" || text == "b''"
  | v => v.isNumber && v.isZero

/-- A later value under the same key takes the place of the earlier one. -/
def putEntry (entries : List (Value × Value)) (e : Value × Value) : List (Value × Value) :=
  if entries.any (·.1 == e.1) then
    entries.map fun f => if f.1 == e.1 then (f.1, e.2) else f
  else entries ++ [e]

def pairOf (v : Value) : Except Error (Value × Value) := do
  match ← v.elements with
  | [k, x] => if k.isFixed then return (k, x) else throw .wrongType
  | _ => throw .unlikeShapes

def entriesOf : Value → Except Error (List (Value × Value))
  | .map entries => .ok entries
  | v =>
    if isNothing v then .ok []
    else do
      let pairs ← (← v.elements).mapM pairOf
      return pairs.foldl putEntry []

/-- Options from a mapping, overridden by keywords. -/
def ofMapping (mapping : Value) (keywords : List (String × Value)) : Except Error Options := do
  let entries ← entriesOf mapping
  return ofEntries (keywords.foldl (fun acc k => putEntry acc (.text k.1, k.2)) entries)

/-! ## Merging -/

def merge (o other : Options) : Options := ⟨putAll o.entries other.entries⟩

/-- Merges what a value gives: nothing, or a map. -/
def mergeValue (o : Options) : Value → Except Error Options
  | .null => .ok o
  | .map entries => .ok (o.merge (ofEntries entries))
  | _ => .error .noAttribute

def withOption (o : Options) (name value : Value) : Except Error Options :=
  if name.isFixed then .ok (o.merge ⟨[(name.toText, valueText value)]⟩) else .error .wrongType

/-! ## Reading -/

def get? (o : Options) (name : String) : Option String :=
  (o.entries.find? (·.1 == name)).map (·.2)

def contains (o : Options) (name : String) : Bool := (o.get? name).isSome

def size (o : Options) : Nat := o.entries.length

def getFloat (o : Options) (name : String) : Except Error (Option Float) :=
  match o.get? name with
  | none => .ok none
  | some s => do return some (← doubleOfText s)

def getInt (o : Options) (name : String) : Except Error (Option Int) :=
  match o.get? name with
  | none => .ok none
  | some s => do return some (← wholePart (← doubleOfText s))

def yesWords : List String := ["1", "true", "yes", "on"]

def isYes (s : String) : Bool :=
  yesWords.contains (String.ofList ((Text.trimBlank s.toList).map Char.toLower))

def getBool (o : Options) (name : String) (default : Bool := false) : Bool :=
  match o.get? name with
  | none => default
  | some s => isYes s

def toText (o : Options) : String :=
  let entry (e : String × String) : Value × Value := (.text e.1, .text e.2)
  "SolverOptions(" ++ (Value.map (o.entries.map entry)).repr ++ ")"

def values (o : Options) : Report := .record (o.entries.map fun e => (e.1, .text e.2))

def parts (o : Options) : Report.Parts :=
  [("values", o.values), ("len", o.size), ("repr", o.toText)]

def report (o : Options) : Report := .record o.parts

end Options

end Equilibria
