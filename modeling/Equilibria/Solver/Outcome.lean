import Equilibria.Field
import Equilibria.Report
import Equilibria.Scalar

/-!
# Outcomes

Solvers report codes; a classifier makes one of six kinds of outcome of every code, known or
not.
-/

namespace Equilibria

inductive OutcomeKind where
  | optimal
  | infeasible
  | iterationLimit
  | timeLimit
  | numericalFailure
  | unknown
deriving DecidableEq, Repr

namespace OutcomeKind

def all : List OutcomeKind :=
  [optimal, infeasible, iterationLimit, timeLimit, numericalFailure, unknown]

def toText : OutcomeKind → String
  | .optimal => "optimal"
  | .infeasible => "infeasible"
  | .iterationLimit => "iteration_limit"
  | .timeLimit => "time_limit"
  | .numericalFailure => "numerical_failure"
  | .unknown => "unknown"

def ofText? (s : String) : Option OutcomeKind := all.find? (·.toText == s)

def ofText (s : String) : Except Error OutcomeKind :=
  match ofText? s with
  | some kind => .ok kind
  | none => .error .badValue

end OutcomeKind

inductive Termination where
  | solved
  | noProgress
  | majorIterationLimit
  | minorIterationLimit
  | timeLimit
  | userInterrupt
  | boundError
  | domainError
  | internalError
deriving DecidableEq, Repr

def Termination.code : Termination → Int
  | .solved => 1
  | .noProgress => 2
  | .majorIterationLimit => 3
  | .minorIterationLimit => 4
  | .timeLimit => 5
  | .userInterrupt => 6
  | .boundError => 7
  | .domainError => 8
  | .internalError => 9

/-- The kinds of the codes that it knows. -/
structure Classifier where
  table : List (Int × OutcomeKind)

namespace Classifier

/-- A code that the table leaves out is of unknown kind, and a solver without a code failed. -/
def classify (c : Classifier) : Option Int → OutcomeKind
  | none => .numericalFailure
  | some code => ((c.table.find? (·.1 == code)).map (·.2)).getD .unknown

/-- The kind of a code as it is given, by the whole number that it stands for. -/
def classifyValue (c : Classifier) : Value → Except Error OutcomeKind
  | .null => .ok (c.classify none)
  | v => do return c.classify (some (← v.toWhole))

def codesFor (c : Classifier) (kind : OutcomeKind) : List Int :=
  ((c.table.filter (·.2 == kind)).map (·.1)).mergeSort (· ≤ ·)

def toText (c : Classifier) : String := s!"StatusClassifier({c.table.length} codes)"

def summary (c : Classifier) : Report :=
  .record (OutcomeKind.all.map fun k => (k.toText, .each (c.codesFor k) .whole))

/-- A later kind of a code takes the place of the earlier one. -/
def ofList (table : List (Int × OutcomeKind)) : Classifier :=
  ⟨table.foldl (fun acc e =>
    if acc.any (·.1 == e.1) then acc.map fun f => if f.1 == e.1 then e else f
    else acc ++ [e]) []⟩

/-- An interrupt by the user is left out and so of unknown kind. -/
def standard : Classifier := ⟨[
  (Termination.solved.code, .optimal),
  (Termination.noProgress.code, .infeasible),
  (Termination.majorIterationLimit.code, .iterationLimit),
  (Termination.minorIterationLimit.code, .iterationLimit),
  (Termination.timeLimit.code, .timeLimit),
  (Termination.boundError.code, .infeasible),
  (Termination.domainError.code, .numericalFailure),
  (Termination.internalError.code, .numericalFailure)]⟩

end Classifier

/-! ## Outcomes -/

/-- How a solve ended. There is no code if the solver broke down. -/
structure Outcome (α : Type) where
  kind : OutcomeKind
  code : Option Int
  solver : String
  message : String
  iterations : Int
  norm : Option α
  time : α

namespace Outcome

variable {α : Type} [Scalar α]

def ofFields (get? : String → Option Value) : Except Error (Outcome α) :=
  let field {β : Type} (name : String) (default : Reading β) (read : Value → Reading β) :
      Reading β := (get? name).elim default read
  let number (name : String) (v : Value) : Reading α := Scalar.ofFloat <$> numberField name v
  let kind := choiceField "kind" (OutcomeKind.all.map OutcomeKind.toText) OutcomeKind.ofText?
  (Outcome.mk <$> field "kind" (.flaw "kind" .missing) kind
    <*> field "status_code" (.ok none) (maybeField (wholeField "status_code"))
    <*> optionalText "solver" (get? "solver")
    <*> optionalText "message" (get? "message")
    <*> field "iterations" (.ok 0) (wholeField "iterations")
    <*> field "residual_norm" (.ok none) (maybeField (number "residual_norm"))
    <*> field "solve_time" (.ok 0) (number "solve_time")).get

def isOptimal (o : Outcome α) : Bool := o.kind == .optimal

def toText (o : Outcome α) : String :=
  let code := o.code.elim "None" toString
  let time := fixedText 2 (Scalar.toFloat o.time)
  s!"{o.kind.toText} (status {code}, solver={o.solver}, iterations={o.iterations}, time={time}s)"

def fields (o : Outcome α) : Report :=
  .record [("kind", o.kind.toText), ("status_code", .maybe o.code .whole), ("solver", o.solver),
    ("message", o.message), ("iterations", o.iterations),
    ("residual_norm", .maybe o.norm .exact), ("solve_time", .exact o.time)]

end Outcome

end Equilibria
