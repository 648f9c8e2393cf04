import Equilibria.Error

/-!
# Domains and their product

A domain is anything with elements in an order. The product of domains lists its tuples with
the last domain fastest; of no domains it is the one empty tuple.
-/

namespace Equilibria

/-- The elements of a value: those of a tuple, list, range or set, the keys of a map and the
characters of a text. -/
def Value.elements : Value → Except Error (List Value)
  | .tuple items | .list items => .ok items
  | .range start stop step => .ok ((rangeItems start stop step).map .int)
  | .map entries => .ok (entries.map (·.1))
  | .set _ elements _ => .ok elements
  | .text s => .ok (s.toList.map fun c => .text c.toString)
  | _ => .error .wrongType

def product {β : Type} : List (List β) → List (List β)
  | [] => [[]]
  | d :: r => d.flatMap fun x => (product r).map (x :: ·)

end Equilibria
