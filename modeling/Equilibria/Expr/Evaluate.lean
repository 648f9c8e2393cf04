import Equilibria.Expr.Basic

/-!
# Values and derivatives

`evaluate` is the value of an expression at a binding, `derivative k` its partial derivative
in the variable `k`. Arithmetic follows the scalars: a division by zero is theirs to answer.
-/

namespace Equilibria

variable {α : Type} [Scalar α]

def BinaryOp.apply (op : BinaryOp) (x y : α) : α :=
  match op with
  | .add => x + y
  | .sub => x - y
  | .mul => x * y
  | .div => x / y
  | .pow => Scalar.pow x y

def UnaryOp.apply (op : UnaryOp) (x : α) : α :=
  match op with
  | .neg => -x
  | .log => Scalar.log x
  | .exp => Scalar.exp x
  | .sqrt => Scalar.sqrt x
  | .sin => Scalar.sin x
  | .cos => Scalar.cos x

namespace BlackBox

def evaluate (f : BlackBox α) (args : List Key) (b : Binding α) : Except Error α := do
  f.apply (← args.mapM b)

/-- The width of a difference at `x`: the step, times `|x|` if that is more than one. -/
def width (step x : α) : α :=
  let size := Scalar.abs x
  step * if 1 < size then size else 1

/-- The derivative in the place `pos` of the arguments. -/
def derivativeAt (f : BlackBox α) (pos : Nat) (xs : List α) : Except Error α :=
  match f.gradient with
  | some gradient => do
    match (← gradient xs)[pos]? with
    | some d => .ok d
    | none => .error .noItem
  | none => do
    let x := xs.getD pos 0
    let h := width f.step x
    let above ← f.apply (xs.set pos (x + h))
    let below ← f.apply (xs.set pos (x - h))
    let distance := 2 * h
    if distance == 0 then .error .divisionByZero else .ok ((above - below) / distance)

/-- The derivative in the first place that holds `k`. -/
def derivative (f : BlackBox α) (args : List Key) (k : Key) (b : Binding α) : Except Error α := do
  let xs ← args.mapM b
  f.derivativeAt (args.findIdx (· == k)) xs

end BlackBox

namespace Expr

mutual

def evaluate (b : Binding α) : Expr α → Except Error α
  | .const x => .ok x
  | .ref k => b k
  | .binary op l r => do
    let x ← evaluate b l
    let y ← evaluate b r
    return op.apply x y
  | .unary op a => do return op.apply (← evaluate b a)
  | .sum terms => evaluateSum b 0 terms
  | .blackBox f args => f.evaluate args b
  | .custom e => e.evaluate b

/-- Adds the terms to `acc` from left to right. -/
def evaluateSum (b : Binding α) (acc : α) : List (Expr α) → Except Error α
  | [] => .ok acc
  | t :: r => do
    let x ← evaluate b t
    evaluateSum b (acc + x) r

end

/-- The derivative of a power: by the rule of a constant exponent or base where the other side
does not mention the variable, and by the general rule where both do. -/
def powDerivative (inLeft inRight : Bool) (x y dx dy : α) : α :=
  if !inRight then y * Scalar.pow x (y - 1) * dx
  else if !inLeft then Scalar.pow x y * Scalar.log x * dy
  else Scalar.pow x y * (dy * Scalar.log x + y * dx / x)

def unaryDerivative (op : UnaryOp) (x dx : α) : α :=
  match op with
  | .neg => -dx
  | .log => dx / x
  | .exp => Scalar.exp x * dx
  | .sqrt => dx / (2 * Scalar.sqrt x)
  | .sin => Scalar.cos x * dx
  | .cos => -Scalar.sin x * dx

mutual

/-- The partial derivative in `k`, which is zero for an expression that does not mention it. A
foreign evaluator answers for itself. -/
def derivative (k : Key) (b : Binding α) (e : Expr α) : Except Error α :=
  if e.isForeign || e.mentions k then match e with
    | .const _ => .ok 0
    | .ref _ => .ok 1
    | .binary op l r => do
      let dx ← derivative k b l
      let dy ← derivative k b r
      match op with
      | .add => return dx + dy
      | .sub => return dx - dy
      | .mul =>
        let x ← evaluate b l
        let y ← evaluate b r
        return dx * y + x * dy
      | .div =>
        let x ← evaluate b l
        let y ← evaluate b r
        return (dx * y - x * dy) / (y * y)
      | .pow =>
        let x ← evaluate b l
        let y ← evaluate b r
        return powDerivative (l.mentions k) (r.mentions k) x y dx dy
    | .unary op a => do
      let dx ← derivative k b a
      match op with
      | .neg => return -dx
      | _ => return unaryDerivative op (← evaluate b a) dx
    | .sum terms => derivativeSum k b 0 terms
    | .blackBox f args => f.derivative args k b
    | .custom e => e.derivative k b
  else .ok 0

/-- Adds the derivatives of the terms that mention `k`. -/
def derivativeSum (k : Key) (b : Binding α) (acc : α) : List (Expr α) → Except Error α
  | [] => .ok acc
  | t :: r =>
    if t.mentions k then do
      let dx ← derivative k b t
      derivativeSum k b (acc + dx) r
    else derivativeSum k b acc r

end

def gradient (b : Binding α) (e : Expr α) : Except Error (List (Key × α)) :=
  e.vars.mapM fun k => do return (k, ← e.derivative k b)

end Expr

end Equilibria
