import Equilibria.Value.Basic
import Equilibria.Decimal.Written
import Equilibria.Text.Quoted

/-!
# The texts of values

Alone, a text is written as it is; inside another value it is quoted.
-/

namespace Equilibria.Value

/-- A tuple of one keeps a comma. -/
def tupleText : List String → String
  | [s] => "(" ++ s ++ ",)"
  | ss => "(" ++ ", ".intercalate ss ++ ")"

mutual

def repr : Value → String
  | .null => "None"
  | .bool b => if b then "True" else "False"
  | .int n => toString n
  | .float x => shortText x
  | .nan _ => "nan"
  | .text s => Text.quoted s
  | .tuple items => tupleText (reprs items)
  | .list items => "[" ++ ", ".intercalate (reprs items) ++ "]"
  | .range start stop step =>
    let ends := toString start ++ ", " ++ toString stop
    "range(" ++ ends ++ (if step == 1 then "" else ", " ++ toString step) ++ ")"
  | .map entries => "\x7b" ++ ", ".intercalate (entryReprs entries) ++ "\x7d"
  | .set name elements description =>
    "Set(name=" ++ Text.quoted name ++ ", elements=" ++ tupleText (reprs elements) ++
      ", description=" ++ Text.quoted description ++ ")"
  | .sealed _ inside => inside

def reprs : List Value → List String
  | [] => []
  | v :: r => repr v :: reprs r

def entryReprs : List (Value × Value) → List String
  | [] => []
  | (k, v) :: r => (repr k ++ ": " ++ repr v) :: entryReprs r

end

/-- The line that describes a set: its first five elements and how many follow. -/
def setText (name : String) (elements : List String) : String :=
  let shown := ", ".intercalate (elements.take 5)
  let more := if elements.length > 5 then s!", ... ({elements.length - 5} more)" else ""
  s!"Set {name} ({elements.length} elements): {shown}{more}"

mutual

def toText : Value → String
  | .text s => s
  | .set name elements _ => setText name (toTexts elements)
  | .sealed shown _ => shown
  | v => repr v

def toTexts : List Value → List String
  | [] => []
  | v :: r => toText v :: toTexts r

end

end Equilibria.Value
