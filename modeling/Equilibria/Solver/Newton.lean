import Equilibria.Linear.Elimination
import Equilibria.Solver.Problem

/-!
# Damped Newton method

Solves the equations of a box problem. Each iteration takes the Newton direction, or the
steepest descent of the merit `½ |Φ|²` where that is no good, and goes back along it until the
merit has dropped enough.
-/

namespace Equilibria

structure Newton (α : Type) where
  /-- The share of the expected decrease that a step has to reach. -/
  sigma : α
  /-- The factor of a step that went too far. -/
  beta : α
  /-- How much of a descent a direction has to be. -/
  rho : α
  minStep : α
  /-- The size of a gradient that counts as zero. -/
  gradientTolerance : α

structure Limits (α : Type) where
  tolerance : α
  iterations : Int
  time : α
  output : Bool

namespace Limits

variable {α : Type} [Scalar α]

def ofOptions (o : Options) (iterations : Int) : Except Error (Limits α) := do
  let tolerance ← o.getFloat "convergence_tolerance"
  let count ← o.getInt "major_iteration_limit"
  let time ← o.getFloat "time_limit"
  return {
    tolerance := Scalar.ofFloat (tolerance.getD 1e-8)
    iterations := count.getD iterations
    time := Scalar.ofFloat (time.getD Double.infinity)
    output := o.getBool "output" }

end Limits

namespace Newton

variable {σ α : Type} [Scalar α]

def standard : Newton α where
  sigma := Scalar.ofFloat 1e-4
  beta := Scalar.half
  rho := Scalar.ofFloat 1e-10
  minStep := Scalar.ofFloat 1e-12
  gradientTolerance := Scalar.ofFloat 1e-14

/-- What a run depends on beside the problem: a solver of linear systems, the time that has
passed at each iteration, and how often a line search may go back. -/
structure Setting (α : Type) where
  solve : List (List α) → List α → Option (List α)
  elapsed : Nat → α
  patience : Nat

/-- Where a run stands: the point, its equations, and those of the last trial that had any. -/
structure Iterate (α : Type) where
  x : List α
  rows : List (Row α)
  trial : Option (List (Row α))

def values (rows : List (Row α)) : List α := rows.map Row.value

def merit (rows : List (Row α)) : α := Scalar.half * Vec.dot (values rows) (values rows)

def norm (rows : List (Row α)) : α := Vec.maxAbs (values rows)

/-- The power of a size that the descent test asks for. It has to be a number if the size is. -/
def sizePower (d : List α) : Except Error α :=
  let size := Vec.norm d
  let p := Scalar.pow size (Scalar.ofFloat 2.1)
  if Scalar.isFinite size && !Scalar.isFinite p then .error .overflow else .ok p

/-- The Newton direction if it is one of descent, and the steepest descent otherwise. -/
def direction (n : Newton α) (s : Setting α) (h : List (List α)) (phi grad : List α) :
    Run σ α (List α) := do
  match s.solve h (Vec.negate phi) with
  | none =>
    Run.note .singular
    return Vec.negate grad
  | some d =>
    if !Vec.isFinite d then return Vec.negate grad
    else
      let p ← sizePower d
      if -n.rho * p < Vec.dot grad d then
        Run.note .notDescent
        return Vec.negate grad
      else return d

/-- The equations at a trial point, unless it has none. -/
def evaluate? (p : Problem σ α) (x : List α) : Run σ α (Option (List (Row α))) :=
  tryCatch (some <$> Run.equations p x) fun e =>
    if e.isFloatingPoint then return none else throw e

/-- Goes back along a direction until the merit has dropped enough. There is no answer if the
step gets too short. -/
def search (n : Newton α) (p : Problem σ α) (x d : List α) (merit₀ slope : α) :
    Nat → α → Option (List (Row α)) → Run σ α (Option (Iterate α))
  | 0, _, _ => throw .endless
  | patience + 1, step, trial => do
    let x' := Vec.add x (Vec.scale step d)
    let rows ← evaluate? p x'
    let trial := rows <|> trial
    let m := rows.elim Scalar.infinity merit
    if m ≤ merit₀ + n.sigma * step * slope then
      match trial with
      | some r => return some ⟨x', r, trial⟩
      | none => throw .noTrial
    else
      let step := step * n.beta
      if step < n.minStep then return none
      else search n p x d merit₀ slope patience step trial

/-- One iteration: the next point, or the end of the run. -/
def step (n : Newton α) (s : Setting α) (p : Problem σ α) (l : Limits α) (k : Nat)
    (i : Iterate α) : Run σ α (Output α ⊕ Iterate α) := do
  let size := norm i.rows
  let stop (t : Termination) (message : String) : Run σ α (Output α ⊕ Iterate α) :=
    return .inl (Output.finish i.x t message k (some size))
  Run.note (.iteration size)
  if size ≤ l.tolerance then return ← stop .solved "Solution found"
  if l.time < s.elapsed k then return ← stop .timeLimit "Time limit reached"
  let h ← Run.slopes p i.x i.rows
  if !Mat.isFinite h then return ← stop .domainError "Jacobian is not finite"
  let phi := values i.rows
  let grad := Mat.transposeApply h phi
  if Vec.maxAbs grad ≤ n.gradientTolerance then
    return ← stop .noProgress "Stationary point of the merit function"
  let d ← direction n s h phi grad
  match ← search n p i.x d (merit i.rows) (Vec.dot grad d) s.patience 1 i.trial with
  | some next => return .inr next
  | none => stop .noProgress "Line search failed"

/-- The last word when all iterations are used up. -/
def exhausted (l : Limits α) (i : Iterate α) : Output α :=
  let size := norm i.rows
  if size ≤ l.tolerance then .finish i.x .solved "Solution found" l.iterations (some size)
  else .finish i.x .majorIterationLimit "Major iteration limit" l.iterations (some size)

def loop (n : Newton α) (s : Setting α) (p : Problem σ α) (l : Limits α) :
    Nat → Nat → Iterate α → Run σ α (Output α)
  | 0, _, i => return exhausted l i
  | left + 1, k, i => do
    match ← step n s p l k i with
    | .inl out => return out
    | .inr next => loop n s p l left (k + 1) next

def run (n : Newton α) (s : Setting α) (p : Problem σ α) (l : Limits α) : Run σ α (Output α) := do
  let x := p.start
  if ← p.hasCrossedBounds then
    return .finish x .boundError "Lower bound exceeds upper bound" 0 none
  if p.size == 0 then return .finish x .solved "Empty problem" 0 (some 0)
  let rows ← tryCatch (Except.ok <$> Run.equations p x) fun e =>
    if e.isFloatingPoint then return .error e else throw e
  match rows with
  | .error e => return .finish x .domainError e.text 0 none
  | .ok rows => loop n s p l l.iterations.toNat 0 ⟨x, rows, none⟩

end Newton

end Equilibria
