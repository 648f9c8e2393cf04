import Equilibria.Expr.Basic

/-!
# The texts of expressions

Numbers have six digits; operations stand in brackets.
-/

namespace Equilibria.Expr

variable {α : Type} [Scalar α]

mutual

def repr : Expr α → String
  | .const x => generalText (Scalar.toFloat x)
  | .ref k => k.toText
  | .binary op l r => "(" ++ repr l ++ " " ++ op.symbol ++ " " ++ repr r ++ ")"
  | .unary .neg a => "-" ++ repr a
  | .unary op a => op.symbol ++ "(" ++ repr a ++ ")"
  | .sum terms => "sum(" ++ ", ".intercalate (reprs terms) ++ ")"
  | .blackBox f args => f.name ++ "(" ++ ", ".intercalate (args.map Key.toText) ++ ")"
  | .custom e => e.text

def reprs : List (Expr α) → List String
  | [] => []
  | t :: r => repr t :: reprs r

end

end Equilibria.Expr
