import Equilibria.Error
import Equilibria.Linear.SingularValues

/-!
# Nonlinear least squares

Minimises `½ |f|²` by steps inside a region of trust, whose radius follows how well the
quadratic model predicts each step. Evaluations of `f` are counted, and their number is limited.
-/

namespace Equilibria.LeastSquares

variable {α : Type} [Scalar α]

inductive Ending where
  | evaluations
  | gradient
  | decrease
  | shortStep
deriving DecidableEq, Repr

structure Fit (α : Type) where
  x : List α
  values : List α
  evaluations : Nat
  ending : Ending

def epsilon : α := Scalar.ofFloat 2.220446049250313e-16

/-- The tolerance on decreases, steps and gradients. -/
def tolerance : α := Scalar.ofFloat 1e-15

def cost (f : List α) : α := Scalar.half * Vec.dot f f

/-- A point with the values and the Jacobian of `f` there. -/
structure Place (α : Type) where
  x : List α
  f : List α
  jacobian : List (List α)

namespace Place

def gradient (p : Place α) : List α := Mat.transposeApply p.jacobian p.f

end Place

/-! ## The step inside the region -/

/-- The model in the directions of the singular vectors. -/
structure Model (α : Type) where
  singular : List (Linear.Singular α)
  /-- The left singular vectors against `f`. -/
  uf : List α

namespace Model

def ofPlace (p : Place α) : Model α :=
  let singular := Linear.singularValues epsilon p.jacobian
  ⟨singular, singular.map fun s => Vec.dot s.left p.f⟩

def combine (m : Model α) (weights : List α) : List α :=
  let n := m.singular.length
  (List.range n).map fun i => Vec.dot (m.singular.map fun s => s.right.getD i 0) weights

def weighted (m : Model α) : List α := List.zipWith (fun s u => s.value * u) m.singular m.uf

def hasFullRank (m : Model α) : Bool :=
  match m.singular.head?, m.singular.getLast? with
  | some first, some last =>
    decide (epsilon * Scalar.ofNat m.singular.length * first.value < last.value)
  | _, _ => false

/-- How far the step with the damping `a` leaves the region, and the derivative in `a`. -/
def excess (m : Model α) (radius a : α) : α × α :=
  let suf := m.weighted
  let denom := m.singular.map fun s => s.value * s.value + a
  let size := Vec.norm (List.zipWith (· / ·) suf denom)
  let slope := List.zipWith (fun w d => w * w / (d * d * d)) suf denom
  (size - radius, -(slope.foldl (· + ·) 0) / size)

def larger (x y : α) : α := if x < y then y else x

def restart (low high : α) : α :=
  larger (Scalar.ofFloat 0.001 * high) (Scalar.pow (low * high) Scalar.half)

/-- Newton's iteration for the damping that makes the step as long as the radius. -/
def damping (m : Model α) (radius : α) : Nat → α → α → α → α
  | 0, _, _, a => a
  | n + 1, low, high, a =>
    let a := if a < low || high < a then restart low high else a
    let (phi, slope) := m.excess radius a
    let high := if phi < 0 then a else high
    let ratio := phi / slope
    let low := larger low (a - ratio)
    let next := a - (phi + radius) * ratio / radius
    if Scalar.abs phi < Scalar.ofFloat 0.01 * radius then next
    else damping m radius n low high next

def lowest (m : Model α) (radius : α) : α :=
  match m.hasFullRank, m.excess radius 0 with
  | true, (phi, slope) => -phi / slope
  | false, _ => 0

/-- The step that minimises the model inside the radius, and its damping. -/
def step (m : Model α) (radius start : α) : List α × α :=
  let full := m.hasFullRank
  let whole := Vec.negate (m.combine (List.zipWith (fun u s => u / s.value) m.uf m.singular))
  if full && decide (Vec.norm whole ≤ radius) then (whole, 0)
  else
    let suf := m.weighted
    let high := Vec.norm suf / radius
    let low := m.lowest radius
    let a := if !full && start == 0 then restart low high else start
    let a := m.damping radius 10 low high a
    let p := Vec.negate (m.combine
      (List.zipWith (fun w s => w / (s.value * s.value + a)) suf m.singular))
    (Vec.scale (radius / Vec.norm p) p, a)

end Model

/-! ## The run -/

/-- The decrease that the quadratic model predicts for a step. -/
def predicted (p : Place α) (step : List α) : α :=
  -(cost (Mat.apply p.jacobian step) + Vec.dot step p.gradient)

/-- How much of the predicted decrease came true. -/
def quality (actual expected : α) : α :=
  if 0 < expected then actual / expected
  else if expected == 0 && actual == 0 then 1
  else 0

def nextRadius (radius ratio size : α) : α :=
  if ratio < Scalar.ofFloat 0.25 then Scalar.ofFloat 0.25 * size
  else if Scalar.ofFloat 0.75 < ratio && Scalar.ofFloat 0.95 * radius < size then radius * 2
  else radius

/-- Whether a decrease or a step is too small to go on. -/
def endingOf (actual cost size xSize ratio : α) : Option Ending :=
  if actual < tolerance * cost && Scalar.ofFloat 0.25 < ratio then some .decrease
  else if size < tolerance * (tolerance + xSize) then some .shortStep
  else none

variable {m : Type → Type} [Monad m]

def fit (p : Place α) (count : Nat) (ending : Ending) : Fit α := ⟨p.x, p.f, count, ending⟩

/-- Goes on from a place with its model, with `left` evaluations left of `limit`. -/
def go (f : List α → m (List α)) (jacobian : List α → m (List (List α))) (limit : Nat) :
    Nat → Place α → Model α → α → α → m (Except Error (Fit α))
  | 0, p, _, _, _ => return .ok (fit p limit .evaluations)
  | left + 1, p, model, radius, alpha => do
    let (step, alpha) := model.step radius alpha
    let x := Vec.add p.x step
    let values ← f x
    let size := Vec.norm step
    if !Vec.isFinite values then
      go f jacobian limit left p model (Scalar.ofFloat 0.25 * size) alpha
    else
      let actual := cost p.f - cost values
      let ratio := quality actual (predicted p step)
      let next := nextRadius radius ratio size
      let ending := endingOf actual (cost p.f) size (Vec.norm p.x) ratio
      let alpha := alpha * (radius / next)
      if 0 < actual then
        let p : Place α := ⟨x, values, ← jacobian x⟩
        if Vec.maxAbs p.gradient < tolerance then return .ok (fit p (limit - left) .gradient)
        match ending with
        | some e => return .ok (fit p (limit - left) e)
        | none =>
          if left == 0 then return .ok (fit p limit .evaluations)
          else if !Mat.isFinite p.jacobian then return .error .unlikeShapes
          else go f jacobian limit left p (.ofPlace p) next alpha
      else
        match ending with
        | some e => return .ok (fit p (limit - left) e)
        | none => go f jacobian limit left p model next alpha

/-- Minimises `½ |f|²` from `x`. The limit has to be positive, and the start and the values
there finite numbers. -/
def minimise (f : List α → m (List α)) (jacobian : List α → m (List (List α))) (x : List α)
    (limit : Int) : m (Except Error (Fit α)) := do
  if limit ≤ 0 || x.any Scalar.isNaN then return .error .unlikeShapes
  let values ← f x
  if !Vec.isFinite values then return .error .unlikeShapes
  let p : Place α := ⟨x, values, ← jacobian x⟩
  let left := limit.toNat - 1
  if Vec.maxAbs p.gradient < tolerance then return .ok (fit p 1 .gradient)
  else if left == 0 then return .ok (fit p 1 .evaluations)
  else if !Mat.isFinite p.jacobian then return .error .unlikeShapes
  else
    let size := Vec.norm x
    go f jacobian limit.toNat left p (.ofPlace p) (if size == 0 then 1 else size) 0

end Equilibria.LeastSquares
