import Equilibria.Solver.Flat
import Equilibria.Solver.TrustRegion

/-!
# Solvers

A solver takes a flat problem and options and makes an output, or breaks down. Its classifier
tells what its codes mean.
-/

namespace Equilibria

structure Solver (α : Type) where
  name : String
  classifier : Classifier
  solve : Problem (Scratch α) α → Options → Run (Scratch α) α (Output α)

namespace Solver

variable {α : Type} [Scalar α]

/-- A run on a problem, from what is bound before it. -/
def runFrom (s : Solver α) (scratch : Scratch α) (p : Problem (Scratch α) α) (o : Options) :
    Except Error (Output α) × Trace (Scratch α) α :=
  (s.solve p o).run ⟨scratch, []⟩

def newton (n : Newton α) (s : Newton.Setting α) : Solver α where
  name := "newton"
  classifier := .standard
  solve p o := do n.run s p (← Limits.ofOptions o 500)

def trustRegion (method : TrustRegion.Method (Scratch α) α) (elapsed : α) : Solver α where
  name := "trust_region"
  classifier := .standard
  solve p o := do TrustRegion.run method p (← Limits.ofOptions o 1000) elapsed

def dispatchText (s : Solver α) : String := s!"SolveDispatcher(solver={s.name})"

end Solver

end Equilibria
