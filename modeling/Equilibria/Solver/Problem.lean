import Equilibria.Box.Reformulation
import Equilibria.Expr.Basic
import Equilibria.Field
import Equilibria.Linear.Grid
import Equilibria.Options.Basic
import Equilibria.Report
import Equilibria.Solver.Outcome

/-!
# Flat problems

What a solver is given and what it returns. The two callbacks of a problem may fail and may
change what surrounds them, also when they fail.
-/

namespace Equilibria

/-- A computation that may fail and changes its surroundings either way. -/
abbrev Call (σ β : Type) := ExceptT Error (StateM σ) β

/-- A mixed complementarity problem in flat form. The variables and residuals are there for
solvers that need the expressions. -/
structure Problem (σ α : Type) where
  lower : List α
  upper : List α
  start : List α
  value : List α → Call σ (Grid α)
  jacobian : List α → Call σ (Jacobian α)
  vars : List Key
  residuals : List (Expr α)

namespace Problem

variable {σ α : Type}

def size (p : Problem σ α) : Nat := p.start.length

def box (p : Problem σ α) : Box α := ⟨p.lower, p.upper⟩

def toText (p : Problem σ α) : String := s!"MCPProblem(n={p.size})"

def hasCrossedBounds [Scalar α] (p : Problem σ α) : Except Error Bool := do
  return (← Box.align p.lower p.upper).any fun (l, u) => decide (u < l)

end Problem

/-- What a solver returns. The point has any shape, and only a code of success vouches for it. -/
structure Output (α : Type) where
  x : Grid α
  code : Int
  message : String
  iterations : Int
  norm : Option α
  time : α

namespace Output

variable {α : Type} [Scalar α]

/-- The end of a run at a point, with no time taken. -/
def finish (x : List α) (t : Termination) (message : String) (iterations : Int)
    (norm : Option α) : Output α :=
  ⟨.vector x, t.code, message, iterations, norm, 0⟩

def ofFields (x : Option (Grid α)) (get? : String → Option Value) : Except Error (Output α) :=
  let field {β : Type} (name : String) (default : Reading β) (read : Value → Reading β) :
      Reading β := (get? name).elim default read
  let number (name : String) (v : Value) : Reading α := Scalar.ofFloat <$> numberField name v
  (Output.mk <$> x.elim (.flaw "x" .missing) .ok
    <*> field "status_code" (.flaw "status_code" .missing) (wholeField "status_code")
    <*> optionalText "message" (get? "message")
    <*> field "iterations" (.ok 0) (wholeField "iterations")
    <*> field "residual_norm" (.ok none) (maybeField (number "residual_norm"))
    <*> field "solve_time" (.ok 0) (number "solve_time")).get

def toText (o : Output α) : String :=
  let time := fixedText 2 (Scalar.toFloat o.time)
  s!"SolverOutput(status={o.code}, iterations={o.iterations}, time={time}s)"

def report (o : Output α) : Report :=
  .record [("repr", o.toText), ("code", o.code), ("x", .each o.x.data .exact),
    ("message", o.message), ("norm", .maybe o.norm .settled)]

end Output

/-! ## What a run leaves behind -/

/-- What a solver does that others can see. -/
inductive Event (α : Type) where
  | valueCall
  | jacobianCall
  | iteration (norm : α)
  | singular
  | notDescent
  /-- The problem was handed to an external program, with these options and maybe an echo. -/
  | handedOver (options : Options) (echo : Bool)
  | reported (termination message : String)

structure Tally where
  values : Nat := 0
  jacobians : Nat := 0
  lines : Nat := 0
  singular : Nat := 0
  notDescent : Nat := 0

namespace Tally

variable {α : Type}

def add (t : Tally) : Event α → Tally
  | .valueCall => { t with values := t.values + 1 }
  | .jacobianCall => { t with jacobians := t.jacobians + 1 }
  | .iteration _ => { t with lines := t.lines + 1 }
  | .singular => { t with singular := t.singular + 1 }
  | .notDescent => { t with notDescent := t.notDescent + 1 }
  | .handedOver .. | .reported .. => t

def ofEvents (events : List (Event α)) : Tally := events.foldl add {}

/-- The lines that were logged, by their kinds. Iterations are told louder to those who asked for
output. -/
def log (t : Tally) (output : Bool) : Report :=
  let counts := [(if output then "info" else "debug", t.lines), ("singular", t.singular),
    ("nondescent", t.notDescent)]
  .record ((counts.filter (·.2 != 0)).map fun (name, n) => (name, n))

def calls (t : Tally) : Report := .record [("F", t.values), ("J", t.jacobians)]

end Tally

namespace Event

variable {α : Type}

def handed (events : List (Event α)) : Report :=
  let start : Option (Options × Bool) := events.findSome? fun e =>
    match e with
    | .handedOver o echo => some (o, echo)
    | _ => none
  .maybe start fun (o, echo) => .record [("options", o.values), ("tee", echo)]

def status (events : List (Event α)) : Report :=
  let said : Option (String × String) := events.findSome? fun e =>
    match e with
    | .reported termination message => some (termination, message)
    | _ => none
  match said with
  | some (t, m) => .record [("status", "ok"), ("termination", t), ("message", m)]
  | none => .record [("status", "not_solved")]

end Event

/-- The surroundings of the callbacks, and the events so far with the last one first. -/
structure Trace (σ α : Type) where
  surroundings : σ
  events : List (Event α)

abbrev Run (σ α β : Type) := ExceptT Error (StateM (Trace σ α)) β

namespace Run

variable {σ α β : Type}

def note (e : Event α) : Run σ α Unit := modify fun t => { t with events := e :: t.events }

def call (c : Call σ β) : Run σ α β := fun t =>
  let (r, s) := c t.surroundings
  (r, { t with surroundings := s })

def equations [Scalar α] (p : Problem σ α) (x : List α) : Run σ α (List (Row α)) := do
  note .valueCall
  let f ← call (p.value x)
  p.box.evaluate x f.shape f.data

def slopes [Scalar α] (p : Problem σ α) (x : List α) (rows : List (Row α)) :
    Run σ α (List (List α)) := do
  note .jacobianCall
  let j ← call (p.jacobian x)
  Jacobian.ofBox rows j

end Run

end Equilibria
