import Equilibria.Path.Statement
import Equilibria.Solver.Solver

/-!
# The external program

Hands the conditions of a problem to a program outside and reads its report. A point is only
read from a report that tells of success and carries a solution; places that the solution leaves
out keep their starts.
-/

namespace Equilibria.Path

/-- What the program says when it comes back. A solution has a number for some of the places. -/
structure Report (α : Type) where
  termination : String
  message : String
  solution : Option (List (Option α))

structure External (α : Type) where
  executable : String
  isAvailable : Bool
  run : List (Condition α) → Options → Except Error (Report α)

def External.missing {α : Type} (executable : String) : External α :=
  ⟨executable, false, fun _ _ => .error (.solverUnavailable executable)⟩

def terminations : List (String × Termination) := [
  ("optimal", .solved),
  ("locallyOptimal", .solved),
  ("globallyOptimal", .solved),
  ("feasible", .solved),
  ("maxIterations", .majorIterationLimit),
  ("maxEvaluations", .minorIterationLimit),
  ("maxTimeLimit", .timeLimit),
  ("userInterrupt", .userInterrupt),
  ("minStepLength", .noProgress),
  ("infeasible", .noProgress),
  ("noSolution", .noProgress),
  ("solverFailure", .internalError),
  ("internalSolverError", .internalError),
  ("error", .internalError)]

/-- The code of a termination, zero if it is not known. -/
def codeOf (termination : String) : Int :=
  (terminations.lookup termination).elim 0 Termination.code

variable {α : Type} [Scalar α]

namespace Report

/-- The numbers of a solution, with the starts in the places that it leaves out. -/
def point (r : Report α) (start : List α) : List α :=
  match r.solution with
  | some xs =>
    if codeOf r.termination == Termination.solved.code then
      start.zipIdx.map fun (x, i) => ((xs[i]?).join).getD x
    else start
  | none => start

def output (r : Report α) (start : List α) : Output α where
  x := .vector (r.point start)
  code := codeOf r.termination
  message := if r.message.isEmpty then r.termination else r.message
  iterations := 0
  norm := none
  time := 0

end Report

def solve {σ : Type} (e : External α) (p : Problem σ α) (o : Options) : Run σ α (Output α) := do
  if p.size == 0 then return .finish [] .solved "" 0 none
  let cs ← conditions p
  if !cs.all Condition.isAccepted then throw .openCondition
  if !e.isAvailable then throw (.solverUnavailable e.executable)
  Run.note (.handedOver o (o.getBool "output"))
  let r ← e.run cs o
  Run.note (.reported r.termination r.message)
  return r.output p.start

def solver (e : External α) : Solver α where
  name := "path"
  classifier := .standard
  solve := solve e

end Equilibria.Path
