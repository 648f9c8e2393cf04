import Equilibria.Path.External

/-!
# Back ends

The back ends that come with the library, by their names, and lists of back ends under names of
one's own.
-/

namespace Equilibria

/-- Back ends under the names that they were registered with. -/
structure Roster (β : Type) where
  entries : List (String × β)

namespace Roster

variable {β : Type}

def empty : Roster β := ⟨[]⟩

def names (r : Roster β) : List String := r.entries.map (·.1)

def contains (r : Roster β) (name : String) : Bool := r.names.contains name

def register (r : Roster β) (name : String) (x : β) : Except Error (Roster β) :=
  if r.contains name then .error (.solverExists name) else .ok ⟨r.entries ++ [(name, x)]⟩

def get (r : Roster β) (name : String) : Except Error β :=
  match r.entries.lookup name with
  | some x => .ok x
  | none => .error (.solverMissing name)

end Roster

inductive Backend where
  | newton
  | trustRegion
  | path
deriving DecidableEq, Repr

namespace Backend

def all : List Backend := [newton, trustRegion, path]

def name : Backend → String
  | .newton => "newton"
  | .trustRegion => "trust_region"
  | .path => "path"

def kindName : Backend → String
  | .newton => "SemismoothNewtonSolver"
  | .trustRegion => "TrustRegionSolver"
  | .path => "PathSolver"

def roster : Roster Backend := ⟨all.map fun b => (b.name, b)⟩

def parameters : Backend → List String
  | .newton => ["sigma", "beta", "rho", "min_step", "gradient_tolerance"]
  | .trustRegion => []
  | .path => ["executable"]

end Backend

inductive Instance (α : Type) where
  | newton (n : Newton α)
  | trustRegion
  | path (executable : String)

def Newton.ofParameters {α : Type} [Scalar α] (params : List (String × Value)) :
    Except Error (Newton α) := do
  let standard : Newton α := .standard
  let get (name : String) (default : α) : Except Error α :=
    match params.lookup name with
    | some v => do return Scalar.ofFloat (← v.toDouble)
    | none => .ok default
  return {
    sigma := ← get "sigma" standard.sigma
    beta := ← get "beta" standard.beta
    rho := ← get "rho" standard.rho
    minStep := ← get "min_step" standard.minStep
    gradientTolerance := ← get "gradient_tolerance" standard.gradientTolerance }

namespace Instance

variable {α : Type} [Scalar α]

/-- A solver of a back end with parameters, all of which it has to know. -/
def make (b : Backend) (params : List (String × Value)) : Except Error (Instance α) :=
  if params.any fun p => !b.parameters.contains p.1 then .error .wrongType
  else
    match b with
    | .newton => do return .newton (← Newton.ofParameters params)
    | .trustRegion => .ok .trustRegion
    | .path => .ok (.path (((params.lookup "executable").map Value.toText).getD "path"))

def toText : Instance α → String
  | .newton _ => "SemismoothNewtonSolver(name=newton)"
  | .trustRegion => "TrustRegionSolver(name=trust_region)"
  | .path executable => s!"PathSolver(executable={executable})"

/-- Whether the solver can run as it is: the external program cannot be found. -/
def isAvailable : Instance α → Bool
  | .path _ => false
  | _ => true

/-- The solver, which looks at the clock in the ways given. -/
def solver (setting : Newton.Setting α) (elapsed : α) : Instance α → Solver α
  | .newton n => .newton n setting
  | .trustRegion => .trustRegion LeastSquares.minimise elapsed
  | .path executable => Path.solver (.missing executable)

end Instance

end Equilibria
