import Equilibria.Yaml.Value

/-!
# Options documents

A document gives options as its mapping, or as the mapping under `options`. Nothing is as good
as an empty mapping; what is neither is refused.
-/

namespace Equilibria.Options

/-- The entries of the section of that name, or all entries if there is none. -/
def section? (entries : List (Value × Value)) : Option Value :=
  (entries.find? (·.1 == .text "options")).map (·.2)

def ofDocument (path : String) : Value → Except Error Options
  | .null => .ok empty
  | .map entries =>
    match section? entries with
    | none => .ok (ofEntries entries)
    | some (.map entries) => .ok (ofEntries entries)
    | some v => if isNothing v then .ok empty else .error (.sectionNotMapping path)
  | _ => .error (.notMapping path)

def ofYaml (path text : String) : Except Error Options := do
  ofDocument path (← Yaml.read text)

end Equilibria.Options
