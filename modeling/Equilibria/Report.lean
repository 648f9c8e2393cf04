import Equilibria.Error
import Equilibria.Scalar

/-!
# Reports

What can be told about a thing, as records of named parts. A number is told in one of three
ways: exactly, with ten digits where it was computed, and with six decimals where it came out of
an iteration.
-/

namespace Equilibria

inductive Report where
  | nothing
  | truth (b : Bool)
  | whole (n : Int)
  | text (s : String)
  | list (items : List Report)
  | record (parts : List (String × Report))
deriving Inhabited

abbrev Report.Parts := List (String × Report)

namespace Report

instance : Coe Bool Report := ⟨truth⟩

instance : Coe Int Report := ⟨whole⟩

instance : Coe Nat Report := ⟨fun n => whole n⟩

instance : Coe String Report := ⟨text⟩

def each {β : Type} (xs : List β) (f : β → Report) : Report := list (xs.map f)

def texts (ss : List String) : Report := each ss text

def part (r : Report) (name : String) : Report :=
  match r with
  | record parts => (parts.lookup name).getD nothing
  | _ => nothing

def maybe {β : Type} (x : Option β) (f : β → Report) : Report := x.elim nothing f

/-! ## Numbers -/

section Numbers

variable {α : Type} [Scalar α]

def exact (x : α) : Report := shortText (Scalar.toFloat x)

def computed (x : α) : Report := scientificText 9 (Scalar.toFloat x)

/-- Six decimals below a million, where a zero has no sign, and seven digits from there on. -/
def settled (x : α) : Report :=
  let x := Scalar.toFloat x
  if x.isNaN then "nan"
  else if x.abs ≥ 1e6 then scientificText 6 x
  else
    let s := fixedText 6 x
    if s == "-0.000000" then "0.000000" else s

end Numbers

/-! ## Values -/

mutual

/-- A value as it is. Doubles and tuples are records of one part, so that they can be told from
texts and lists. -/
def ofValue : Value → Report
  | .null => nothing
  | .bool b => b
  | .int n => n
  | .float x => record [("f", shortText x)]
  | .nan _ => record [("f", "nan")]
  | .text s => s
  | .tuple items => record [("t", list (ofValues items))]
  | .list items => list (ofValues items)
  | .map entries => record (ofEntries entries)
  | v => v.repr

def ofValues : List Value → List Report
  | [] => []
  | v :: r => ofValue v :: ofValues r

def ofEntries : List (Value × Value) → Parts
  | [] => []
  | (k, v) :: r => (k.toText, ofValue v) :: ofEntries r

end

def ofIndex (index : List Value) : Report := ofValue (.tuple index)

def ofKeys (keys : List Key) : Report := texts (keys.map Key.toText)

/-! ## Failures -/

def ofError (e : Error) : Report :=
  let family : Parts := match e.family? with
    | some f => [("family", f.name)]
    | none => []
  let message : Parts := if e.isOwn then [("message", e.text)] else []
  record (("error", text e.kind) :: (family ++ message))

def ofResult : Except Error Report → Report
  | .ok r => r
  | .error e => ofError e

end Report

end Equilibria
