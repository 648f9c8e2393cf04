import Equilibria.Backend
import Equilibria.Box.FischerBurmeister
import Equilibria.Box.Reformulation
import Equilibria.Decimal.Binary
import Equilibria.Decimal.Reading
import Equilibria.Decimal.Rounded
import Equilibria.Decimal.Shortest
import Equilibria.Decimal.Written
import Equilibria.Error
import Equilibria.Expr.Basic
import Equilibria.Expr.Build
import Equilibria.Expr.Evaluate
import Equilibria.Expr.Scope
import Equilibria.Expr.Text
import Equilibria.Field
import Equilibria.Index.Family
import Equilibria.Index.Product
import Equilibria.Index.Set
import Equilibria.Key.Basic
import Equilibria.Key.Make
import Equilibria.Linear.Elimination
import Equilibria.Linear.Grid
import Equilibria.Linear.SingularValues
import Equilibria.Linear.Vector
import Equilibria.Model.Basic
import Equilibria.Model.Build
import Equilibria.Model.Linear
import Equilibria.Model.Operation
import Equilibria.Model.Report
import Equilibria.Model.Solve
import Equilibria.Model.Workspace
import Equilibria.Options.Basic
import Equilibria.Options.Document
import Equilibria.Pairing
import Equilibria.Path.External
import Equilibria.Path.Formula
import Equilibria.Path.Statement
import Equilibria.Proofs.Assembly
import Equilibria.Proofs.Batches
import Equilibria.Proofs.Bijection
import Equilibria.Proofs.Bounds
import Equilibria.Proofs.Breakdowns
import Equilibria.Proofs.Budget
import Equilibria.Proofs.Building
import Equilibria.Proofs.Callbacks
import Equilibria.Proofs.Calls
import Equilibria.Proofs.Changes
import Equilibria.Proofs.Complementarity
import Equilibria.Proofs.Components
import Equilibria.Proofs.Conditions
import Equilibria.Proofs.Decrease
import Equilibria.Proofs.Descent
import Equilibria.Proofs.Differences
import Equilibria.Proofs.Documents
import Equilibria.Proofs.Doubles
import Equilibria.Proofs.Dual
import Equilibria.Proofs.Edits
import Equilibria.Proofs.Elementwise
import Equilibria.Proofs.Enumeration
import Equilibria.Proofs.Equations
import Equilibria.Proofs.Exact
import Equilibria.Proofs.Expressions
import Equilibria.Proofs.Families
import Equilibria.Proofs.Fits
import Equilibria.Proofs.Formulas
import Equilibria.Proofs.Histories
import Equilibria.Proofs.Iterations
import Equilibria.Proofs.Keys
import Equilibria.Proofs.Layers
import Equilibria.Proofs.Lifecycle
import Equilibria.Proofs.LinearModels
import Equilibria.Proofs.Locking
import Equilibria.Proofs.Numerals
import Equilibria.Proofs.Occurrences
import Equilibria.Proofs.Optimality
import Equilibria.Proofs.Pairs
import Equilibria.Proofs.Polynomials
import Equilibria.Proofs.Powers
import Equilibria.Proofs.Products
import Equilibria.Proofs.Readers
import Equilibria.Proofs.Reading
import Equilibria.Proofs.Registries
import Equilibria.Proofs.Renames
import Equilibria.Proofs.Reordering
import Equilibria.Proofs.Repetitions
import Equilibria.Proofs.Reported
import Equilibria.Proofs.Rules
import Equilibria.Proofs.Signs
import Equilibria.Proofs.Slopes
import Equilibria.Proofs.Solves
import Equilibria.Proofs.Sparsity
import Equilibria.Proofs.Storing
import Equilibria.Proofs.Sums
import Equilibria.Proofs.Validation
import Equilibria.Proofs.Weights
import Equilibria.Report
import Equilibria.Residual
import Equilibria.Scalar
import Equilibria.Solver.Flat
import Equilibria.Solver.LeastSquares
import Equilibria.Solver.Newton
import Equilibria.Solver.Outcome
import Equilibria.Solver.Problem
import Equilibria.Solver.Solver
import Equilibria.Solver.TrustRegion
import Equilibria.Text.Blank
import Equilibria.Text.Digit
import Equilibria.Text.Printable
import Equilibria.Text.Quoted
import Equilibria.Value.Arithmetic
import Equilibria.Value.Basic
import Equilibria.Value.Number
import Equilibria.Value.Text
import Equilibria.Variable.Basic
import Equilibria.Variable.Registry
import Equilibria.Yaml.Moment
import Equilibria.Yaml.Node
import Equilibria.Yaml.Scalar
import Equilibria.Yaml.Source
import Equilibria.Yaml.Tag
import Equilibria.Yaml.Token
import Equilibria.Yaml.Value
