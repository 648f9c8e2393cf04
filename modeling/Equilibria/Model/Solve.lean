import Equilibria.Model.Basic
import Equilibria.Solver.Solver

/-!
# Solving models

A solve checks the model, hands its flat problem to a solver and classifies what comes back.
Values are stored only for a success with a finite point of the right length. A solver that
breaks down is an outcome and no error.
-/

namespace Equilibria.Model

variable {α : Type} [Scalar α]

/-! ## Before -/

/-- Checks all that a solver takes for granted. -/
def validate (m : Model α) : Except Error Unit := do
  m.pairing.checkComplete m.registry.keys (some m.residuals.keys)
  m.registry.checkBounds
  m.residuals.checkReferences m.registry.keys

def problem (m : Model α) (format : String) : Except Error (Problem (Scratch α) α) :=
  Problem.ofPairs m.registry m.residuals m.pairing format

/-- What a solve hands to its solver. -/
def posed (m : Model α) : Except Error (Problem (Scratch α) α) := do
  m.validate
  m.problem "dense"

/-! ## Values -/

/-- Stores the entries of a point in the variables of the pairs, one after the other. -/
def store (registry : Registry α) : List (Key × α) → Except Error Unit × Registry α
  | [] => (.ok (), registry)
  | (k, x) :: rest =>
    match registry.setValue k x with
    | .ok registry => store registry rest
    | .error e => (.error e, registry)

/-- Stores a result, which has to have one entry for each pair. -/
def unflatten (xs : List α) : Call (Model α) Unit := do
  let m ← get
  if xs.length != m.pairing.size then throw (.resultLength xs.length m.pairing.size)
  let (r, registry) := store m.registry (m.pairing.vars.zip xs)
  set { m with registry := registry }
  r

def flatten (m : Model α) : Except Error (List (Option α)) := do
  return (← Problem.paired m.registry m.pairing).map (·.value)

/-! ## The solve -/

def broken (solver : String) (e : Error) : Outcome α :=
  ⟨.numericalFailure, none, solver, e.report, 0, none, 0⟩

/-- Whether an output has a finite number for each of `n` components. -/
def isProper (o : Output α) (n : Nat) : Bool := o.x.shape == [n] && Vec.isFinite o.x.data

/-- The outcome of an output. A success without a proper point is a failure. -/
def classify (solver : Solver α) (o : Output α) (n : Nat) : Outcome α :=
  let kind := solver.classifier.classify (some o.code)
  let outcome : Outcome α :=
    ⟨kind, some o.code, solver.name, o.message, o.iterations, o.norm, o.time⟩
  if kind == .optimal && !isProper o n then
    { outcome with
      kind := .numericalFailure
      message := "Solver reported success with a non-finite or malformed solution" }
  else outcome

/-- What is left of a solve: its outcome and what the solver did, the last event first. -/
structure Solved (α : Type) where
  outcome : Outcome α
  events : List (Event α)

/-- What becomes of a model of `n` pairs after a run of a solver. -/
def conclude (solver : Solver α) (n : Nat) (r : Except Error (Output α))
    (trace : Trace (Scratch α) α) : Call (Model α) (Solved α) := do
  modify fun m => { m with scratch := trace.surroundings }
  match r with
  | .error e =>
    modify fun m => { m with status := .failed }
    return ⟨broken solver.name e, trace.events⟩
  | .ok o =>
    let outcome := classify solver o n
    if outcome.isOptimal then
      unflatten o.x.data
      modify fun m => { m with status := .solved }
    else modify fun m => { m with status := .failed }
    return ⟨outcome, trace.events⟩

/-- Solves a model with these options alone. -/
def dispatch (solver : Solver α) (options : Options) : Call (Model α) (Solved α) := do
  let m ← get
  let p ← m.posed
  let (r, trace) := solver.runFrom m.scratch p options
  conclude solver p.size r trace

/-- Solves a model with its own options and the given ones on top. -/
def solve (solver : Solver α) (given : Options) : Call (Model α) (Solved α) := do
  dispatch solver ((← get).options.merge given)

/-! ## After -/

def requireSolved (m : Model α) : Except Error Unit :=
  if m.status == .solved then .ok () else .error (.notSolved m.name m.status.toText)

def getValue (m : Model α) (key : Key) : Except Error α := do
  m.requireSolved
  match (← m.registry.get key).value with
  | some x => return x
  | none => throw .wrongType

/-- The solved value of what names a variable: a text with an index, or a component. -/
def getValueOf (m : Model α) (c : Component) (index : Option Value) : Except Error α := do
  m.requireSolved
  match c with
  | .value (.text s) => m.getValue (← Key.make (some (.text s)) index)
  | c => m.getValue (← c.single)

def getValues (m : Model α) (f : Family Key) : Except Error (List (List Value × α)) :=
  f.items.mapM fun e => do return (e.1, ← m.getValue e.2)

/-- Makes a model unsolved again and forgets its values. -/
def reset (m : Model α) : Model α :=
  { m with registry := m.registry.clearValues, status := .unsolved }

end Equilibria.Model
