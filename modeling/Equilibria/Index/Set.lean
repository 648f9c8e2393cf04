import Equilibria.Index.Product
import Equilibria.Key.Make
import Equilibria.Report
import Equilibria.Value.Number

/-!
# Index sets

A named list of distinct elements, and the collection of the sets of a model under their
names.
-/

namespace Equilibria

structure IndexSet where
  name : String
  elements : List Value
  description : String
deriving Inhabited

namespace IndexSet

def toValue (s : IndexSet) : Value := .set s.name s.elements s.description

def toText (s : IndexSet) : String := s.toValue.toText

/-- The texts of the elements that occur more than once, sorted and each once. -/
def duplicates (elements : List Value) : List String :=
  let repeated := elements.filter fun e => elements.countP (· == e) > 1
  ((repeated.map Value.toText).mergeSort (fun a b => a ≤ b)).eraseDups

/-- The elements that a value gives, which have to be different from each other. -/
def distinctElements (v : Value) : Except Error (Reading (List Value)) := do
  let elements ← v.elements
  if !Value.allFixed elements then throw .wrongType
  match duplicates elements with
  | [] => return .ok elements
  | names =>
    let reason := "Duplicate set elements: " ++ (Value.list (names.map .text)).repr
    return .flaw "elements" (.refused reason)

def make (name elements description : Option Value) : Except Error IndexSet := do
  let elements ← match elements with
    | some v => distinctElements v
    | none => pure (.ok [])
  (IndexSet.mk <$> requiredText "name" name <*> elements
    <*> optionalText "description" description).get

def ofRange (name : Option Value) (stop start : Value) : Except Error IndexSet := do
  match start.whole?, stop.whole? with
  | some a, some b => make name (some (.range a (b + 1) 1)) none
  | _, _ => throw .wrongType

def indexOf (s : IndexSet) (element : Value) : Except Error Nat :=
  match s.elements.findIdx? (· == element) with
  | some i => .ok i
  | none => .error (.notElement element s.name)

def contains (s : IndexSet) (element : Value) : Bool := s.elements.contains element

instance : BEq IndexSet := ⟨fun a b => a.toValue == b.toValue⟩

def report (s : IndexSet) : Report := .record [("str", s.toText), ("name", s.name),
  ("description", s.description), ("elements", .ofIndex s.elements)]

end IndexSet

/-- The sets of a model, in the order in which they were added. -/
structure Catalog where
  sets : List IndexSet
deriving Inhabited

namespace Catalog

def empty : Catalog := ⟨[]⟩

def names (c : Catalog) : List String := c.sets.map (·.name)

def contains (c : Catalog) (name : String) : Bool := c.names.contains name

def add (c : Catalog) (s : IndexSet) : Except Error Catalog :=
  if c.contains s.name then .error (.setExists s.name) else .ok ⟨c.sets ++ [s]⟩

def get (c : Catalog) (name : String) : Except Error IndexSet :=
  match c.sets.find? (·.name == name) with
  | some s => .ok s
  | none => .error (.setMissing name)

/-- The elements of a domain. A text is the name of a set. -/
def resolve (c : Catalog) : Value → Except Error (List Value)
  | .text name => do return (← c.get name).elements
  | v => v.elements

def product (c : Catalog) (domains : List Value) : Except Error (List (List Value)) := do
  return Equilibria.product (← domains.mapM c.resolve)

def summary (c : Catalog) : Report :=
  let entry (s : IndexSet) : String × Report :=
    (s.name, .record [("elements", s.elements.length), ("description", s.description)])
  .record [("total_sets", c.sets.length), ("sets", .record (c.sets.map entry))]

end Catalog

end Equilibria
