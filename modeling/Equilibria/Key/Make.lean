import Equilibria.Field
import Equilibria.Key.Basic

/-!
# Making keys

A key is made from the values given for its fields. The name has to be a text that is not
empty; any value is an index.
-/

namespace Equilibria

namespace Key

def read (name index : Option Value) : Reading Key :=
  (⟨·, (index.map Value.toIndex).getD []⟩) <$> requiredText "name" name

def make (name index : Option Value) : Except Error Key := (read name index).get

end Key

end Equilibria
