import Equilibria.Error
import Equilibria.Report

/-!
# Families

Components that share a name, each under its index, in the order in which they were declared.
-/

namespace Equilibria

structure Family (β : Type) where
  /-- What the components are, in messages. -/
  kind : String
  name : String
  items : List (List Value × β)

namespace Family

variable {β : Type}

def sameIndex (i j : List Value) : Bool := i.map Value.form == j.map Value.form

/-- A later item with the same index takes the place of the earlier one. -/
def insert (items : List (List Value × β)) (i : List Value) (x : β) : List (List Value × β) :=
  if items.any (sameIndex ·.1 i) then
    items.map fun (j, y) => if sameIndex j i then (j, x) else (j, y)
  else items ++ [(i, x)]

def ofItems (kind name : String) (items : List (List Value × β)) : Family β :=
  ⟨kind, name, items.foldl (fun acc (i, x) => insert acc i x) []⟩

def find? (f : Family β) (i : List Value) : Option β :=
  (f.items.find? fun (j, _) => sameIndex j i).map (·.2)

/-- Looking something up takes an index that can be looked up. -/
def get (f : Family β) (i : List Value) : Except Error β :=
  if !Value.allFixed i then .error .wrongType
  else match f.find? i with
    | some x => .ok x
    | none => .error (.noIndex f.kind f.name i)

def contains (f : Family β) (i : List Value) : Except Error Bool :=
  if !Value.allFixed i then .error .wrongType else .ok (f.find? i).isSome

def indices (f : Family β) : List (List Value) := f.items.map (·.1)

def toList (f : Family β) : List β := f.items.map (·.2)

def size (f : Family β) : Nat := f.items.length

def toText (f : Family β) : String := s!"{f.kind}Array {f.name}: {f.size} elements"

def parts (f : Family β) (text : β → String) : Report.Parts :=
  [("indices", .each f.indices .ofIndex), ("iter", .texts (f.toList.map text)), ("len", f.size),
    ("repr", f.toText)]

end Family

end Equilibria
