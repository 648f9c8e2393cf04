import Equilibria.Expr.Build

/-!
# Scopes

What the leaves of an expression refer to while it is built: variables by their keys, saved
components by their names, and the indices of the rules around the expression.
-/

namespace Equilibria

structure Scope (α : Type) where
  variableOf : Key → Except Error (Operand α)
  /-- A saved component, or a member of a saved family. -/
  saved : String → Option Value → Except Error (Operand α)
  members : String → Except Error (List (Operand α))
  indices : List Value

namespace Scope

variable {α : Type}

/-- The scope of expressions on their own: every key is a variable and nothing is saved. -/
def free : Scope α where
  variableOf k := .ok (.expr (.ref k))
  saved _ _ := .error .wrongType
  members _ := .error .wrongType
  indices := []

def inside (s : Scope α) (indices : List Value) : Scope α :=
  { s with indices := s.indices ++ indices }

/-- The index of the rules around by its number, counted from the outermost. -/
def index (s : Scope α) (k : Nat) : Except Error Value :=
  match s.indices[k]? with
  | some v => .ok v
  | none => .error .noItem

end Scope

end Equilibria
