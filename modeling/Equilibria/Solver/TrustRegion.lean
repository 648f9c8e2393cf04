import Equilibria.Solver.LeastSquares
import Equilibria.Solver.Newton

/-!
# Trust region method

Minimises the merit of the equations as a sum of squares. A point counts as a solution only if
its equations meet the tolerance.
-/

namespace Equilibria.TrustRegion

variable {σ α : Type} [Scalar α]

/-- Why a minimisation cannot go on. -/
inductive Halt (α : Type) where
  | failed (e : Error)
  | timeUp (x : List α)

abbrev Search (σ α β : Type) := ExceptT (Halt α) (StateM (Trace σ α)) β

/-- A method that minimises a sum of squares, given the values, their Jacobian, a start and a
limit of evaluations. -/
abbrev Method (σ α : Type) :=
  (List α → Search σ α (List α)) → (List α → Search σ α (List (List α))) → List α → Int →
    Search σ α (Except Error (LeastSquares.Fit α))

def lift {β : Type} (r : Run σ α β) : Search σ α β := ExceptT.adapt .failed r

/-- The values of the equations, as long as there is time. -/
def values (p : Problem σ α) (l : Limits α) (elapsed : α) (x : List α) : Search σ α (List α) := do
  if l.time < elapsed then throw (.timeUp x)
  return Newton.values (← lift (Run.equations p x))

def jacobian (p : Problem σ α) (x : List α) : Search σ α (List (List α)) := lift do
  let rows ← Run.equations p x
  Run.slopes p x rows

def endingText : LeastSquares.Ending → String
  | .evaluations => "The maximum number of function evaluations is exceeded."
  | .gradient => "`gtol` termination condition is satisfied."
  | .decrease => "`ftol` termination condition is satisfied."
  | .shortStep => "`xtol` termination condition is satisfied."

def report (l : Limits α) (fit : LeastSquares.Fit α) : Output α :=
  let size := Vec.maxAbs fit.values
  let out (t : Termination) (message : String) : Output α :=
    .finish fit.x t message fit.evaluations (some size)
  if size ≤ l.tolerance then out .solved "Solution found"
  else if fit.ending == .evaluations then out .majorIterationLimit (endingText fit.ending)
  else out .noProgress (endingText fit.ending)

def run (method : Method σ α) (p : Problem σ α) (l : Limits α) (elapsed : α) :
    Run σ α (Output α) := do
  let x := p.start
  -- Bounds that do not fit together are refused before they are compared.
  let _ ← p.box.sides
  if ← p.hasCrossedBounds then
    return .finish x .boundError "Lower bound exceeds upper bound" 0 none
  if p.size == 0 then return .finish x .solved "Empty problem" 0 (some 0)
  let search : Search σ α (Except Error (LeastSquares.Fit α)) :=
    method (values p l elapsed) (jacobian p) x l.iterations
  let (r, t) ← fun t => let (r, t') := search t; (.ok (r, t'), t')
  set t
  match r with
  | .ok (.ok fit) => return report l fit
  | .ok (.error e) => throw e
  | .error (.timeUp x) => return .finish x .timeLimit "Time limit reached" 0 none
  | .error (.failed e) =>
    if e.isFloatingPoint then return .finish x .domainError e.text 0 none else throw e

end Equilibria.TrustRegion
