import Equilibria.Model.Basic

/-!
# Reports on models
-/

namespace Equilibria.Model

variable {α : Type} [Scalar α]

structure Statistics where
  vars : Nat
  residuals : Nat
  pairs : Nat
  fixed : Nat
  nonzeros : Nat
  /-- The share of the places of the Jacobian that can hold anything but zero. -/
  density : Float

def places (m : Model α) : Except Error (List (Nat × Nat)) := do
  return (← Flat.ofPairs m.residuals m.pairing).places

def statistics (m : Model α) : Except Error Statistics := do
  let nonzeros := (← m.places).length
  let n := m.pairing.size
  return {
    vars := m.registry.size
    residuals := m.residuals.size
    pairs := n
    fixed := m.registry.vars.countP (·.isFixed)
    nonzeros := nonzeros
    density := if n == 0 then 0 else Double.quotient nonzeros (n * n) }

def toText (m : Model α) : Except Error String := do
  let s ← m.statistics
  let counts := s!"{s.vars} vars, {s.residuals} residuals, {s.pairs} pairs"
  return s!"Model '{m.name}': {counts}, status={m.status.toText}"

def brief (m : Model α) : String :=
  s!"{m.registry.size}/{m.residuals.size}/{m.pairing.size}/{m.status.toText}"

def flatText (m : Model α) : String := s!"FlatteningBridge(n={m.pairing.size})"

def Statistics.report (s : Statistics) : Report :=
  .record [("variables", s.vars), ("residuals", s.residuals), ("pairs", s.pairs),
    ("fixed", s.fixed), ("nonzeros", s.nonzeros), ("density", .exact s.density)]

def summary (m : Model α) : Except Error Report := do
  let s ← m.statistics
  return .record [("name", m.name), ("description", m.description), ("status", m.status.toText),
    ("statistics", s.report), ("sets", m.catalog.summary), ("variables", m.registry.summary),
    ("residuals", m.residuals.summary), ("options", m.options.values)]

def state (m : Model α) : Report :=
  let row (v : Variable α) : Report := .list [v.key.toText, .exact v.lower, .exact v.upper,
    .exact v.start, .maybe v.value .settled, v.isFixed]
  .record [("status", m.status.toText), ("options", m.options.values),
    ("sets", .texts m.catalog.names), ("pairs", Pair.reports m.pairing.pairs),
    ("residuals", .texts (m.residuals.items.map Residual.toText)),
    ("variables", .each m.registry.vars row)]

def vectors (m : Model α) : Except Error Report := do
  let vs ← Problem.paired m.registry m.pairing
  return .record [("lower", .each vs fun v => .exact v.lower),
    ("upper", .each vs fun v => .exact v.upper), ("x0", .each vs fun v => .exact v.start)]

end Equilibria.Model
