import Equilibria.Decimal.Binary
import Equilibria.Linear.Vector
import Mathlib.Analysis.SpecialFunctions.Pow.Real
import Mathlib.Analysis.SpecialFunctions.Trigonometric.Basic
import Mathlib.Analysis.Real.Sqrt

/-!
# Exact numbers

Scalars that are not rounded. A number is real, or one of the answers that doubles give where there
is no real one. There is one zero, so a quotient by it takes the sign of what is divided.
-/

namespace Equilibria

/-- A real number, or what stands in its place. -/
inductive Exact where
  | real (x : ℝ)
  | infinite (negative : Bool)
  | nan

namespace Exact

noncomputable section

/-! ## Arithmetic -/

def ofBinary : Decimal.Binary → Exact
  | .nan => nan
  | .infinite negative => infinite negative
  | .finite negative m e =>
    let size : ℝ := m * (2 : ℝ) ^ e
    real (if negative then -size else size)

def ofFloat (x : Float) : Exact := ofBinary (Decimal.Binary.ofFloat x)

def toFloat (x : Exact) : Float :=
  open Classical in if h : ∃ d, ofFloat d = x then h.choose else 0.0 / 0.0

def neg : Exact → Exact
  | real x => real (-x)
  | infinite negative => infinite !negative
  | nan => nan

def add : Exact → Exact → Exact
  | real x, real y => real (x + y)
  | infinite a, infinite b => if a = b then infinite a else nan
  | infinite a, real _ | real _, infinite a => infinite a
  | nan, _ | _, nan => nan

/-- Infinity with the sign of a number, of which zero has none. -/
def signed (negative : Bool) (x : ℝ) : Exact :=
  if x = 0 then nan else infinite (negative ^^ decide (x < 0))

def mul : Exact → Exact → Exact
  | real x, real y => real (x * y)
  | infinite a, infinite b => infinite (a ^^ b)
  | infinite a, real x | real x, infinite a => signed a x
  | nan, _ | _, nan => nan

def div : Exact → Exact → Exact
  | real x, real y => if y = 0 then signed false x else real (x / y)
  | real _, infinite _ => real 0
  | infinite a, real y => infinite (a ^^ decide (y < 0))
  | infinite _, infinite _ => nan
  | nan, _ | _, nan => nan

def beq : Exact → Exact → Bool
  | real x, real y => decide (x = y)
  | infinite a, infinite b => a == b
  | _, _ => false

def le : Exact → Exact → Prop
  | real x, real y => x ≤ y
  | infinite a, infinite b => b ≤ a
  | infinite a, real _ => a = true
  | real _, infinite b => b = false
  | nan, _ | _, nan => False

def lt : Exact → Exact → Prop
  | real x, real y => x < y
  | infinite a, infinite b => b < a
  | infinite a, real _ => a = true
  | real _, infinite b => b = false
  | nan, _ | _, nan => False

/-! ## Functions -/

def abs : Exact → Exact
  | real x => real |x|
  | infinite _ => infinite false
  | nan => nan

def sqrt : Exact → Exact
  | real x => if x < 0 then nan else real √x
  | infinite negative => if negative then nan else infinite false
  | nan => nan

def exp : Exact → Exact
  | real x => real (Real.exp x)
  | infinite negative => if negative then real 0 else infinite false
  | nan => nan

def log : Exact → Exact
  | real x => if x < 0 then nan else if x = 0 then infinite true else real (Real.log x)
  | infinite negative => if negative then nan else infinite false
  | nan => nan

def onReal (f : ℝ → ℝ) : Exact → Exact
  | real x => real (f x)
  | infinite _ | nan => nan

def IsWhole (x : ℝ) : Prop := ∃ n : ℤ, x = n

/-- A negative base has powers of whole exponents only, and zero no negative ones. -/
def realPow (x y : ℝ) : Exact :=
  open Classical in
  if x = 0 ∧ y < 0 then infinite false
  else if x < 0 ∧ ¬ IsWhole y then nan
  else real (x ^ y)

/-- Exponent zero and base one give one in any case. -/
def pow : Exact → Exact → Exact
  | real x, real y => realPow x y
  | real x, infinite negative =>
    if |x| = 1 then real 1
    else if decide (1 < |x|) == negative then real 0
    else infinite false
  | infinite a, real y =>
    open Classical in
    if y = 0 then real 1
    else if y < 0 then real 0
    else infinite (a && decide (∃ n : ℤ, y = 2 * n + 1))
  | infinite _, infinite negative => if negative then real 0 else infinite false
  | nan, real y => if y = 0 then real 1 else nan
  | real x, nan => if x = 1 then real 1 else nan
  | infinite _, nan | nan, infinite _ | nan, nan => nan

def hypot : Exact → Exact → Exact
  | real x, real y => real √(x ^ 2 + y ^ 2)
  | infinite _, _ | _, infinite _ => infinite false
  | nan, _ | _, nan => nan

def isFinite : Exact → Bool
  | real _ => true
  | _ => false

def isNaN : Exact → Bool
  | nan => true
  | _ => false

def isWhole : Exact → Bool
  | real x => open Classical in decide (IsWhole x)
  | infinite _ => true
  | nan => false

instance : Scalar Exact where
  add := add
  sub x y := add x (neg y)
  mul := mul
  div := div
  neg := neg
  beq := beq
  le := le
  lt := lt
  ofFloat := ofFloat
  toFloat := toFloat
  ofNat n := real n
  infinity := infinite false
  abs := abs
  sqrt := sqrt
  exp := exp
  log := log
  sin := onReal Real.sin
  cos := onReal Real.cos
  pow := pow
  hypot := hypot
  isFinite := isFinite
  isNaN := isNaN
  isWhole := isWhole
  decLe _ _ := Classical.propDecidable _
  decLt _ _ := Classical.propDecidable _

end

/-! ## Real numbers -/

theorem isFinite_iff {a : Exact} : Scalar.isFinite a = true ↔ ∃ x, a = real x := by
  cases a <;> simp [Scalar.isFinite, isFinite]

@[simp]
theorem isFinite_real (x : ℝ) : Scalar.isFinite (real x) = true := rfl

@[simp]
theorem isFinite_infinite (negative : Bool) : Scalar.isFinite (infinite negative) = false := rfl

@[simp]
theorem isFinite_nan : Scalar.isFinite nan = false := rfl

@[simp]
theorem zero_eq : (0 : Exact) = real 0 := congrArg real Nat.cast_zero

theorem one_eq : (1 : Exact) = real 1 := congrArg real Nat.cast_one

theorem three_eq : (3 : Exact) = real 3 := congrArg real (Nat.cast_ofNat (n := 3))

@[simp]
theorem add_real (x y : ℝ) : real x + real y = real (x + y) := rfl

theorem zero_add_eq (x : Exact) : 0 + x = x := by
  rw [zero_eq]
  cases x with
  | real x => rw [add_real, zero_add]
  | infinite | nan => rfl

theorem add_zero_eq (x : Exact) : x + 0 = x := by
  rw [zero_eq]
  cases x with
  | real x => rw [add_real, add_zero]
  | infinite | nan => rfl

@[simp]
theorem sub_real (x y : ℝ) : real x - real y = real (x - y) :=
  congrArg real (sub_eq_add_neg x y).symm

@[simp]
theorem neg_real (x : ℝ) : -real x = real (-x) := rfl

@[simp]
theorem mul_real (x y : ℝ) : real x * real y = real (x * y) := rfl

@[simp]
theorem abs_real (x : ℝ) : Scalar.abs (real x) = real |x| := rfl

@[simp]
theorem hypot_real (x y : ℝ) : Scalar.hypot (real x) (real y) = real √(x ^ 2 + y ^ 2) := rfl

@[simp]
theorem le_real {x y : ℝ} : real x ≤ real y ↔ x ≤ y := Iff.rfl

@[simp]
theorem lt_real {x y : ℝ} : real x < real y ↔ x < y := Iff.rfl

theorem real_le_of_lt {x : ℝ} {t : Exact} (h : real x < t) : real x ≤ t := by
  cases t with
  | real t => exact le_real.2 (lt_real.1 h).le
  | infinite negative => exact h
  | nan => exact h

theorem not_infinity_le (x : ℝ) : ¬ (Scalar.infinity : Exact) ≤ real x := Bool.false_ne_true

theorem not_infinity_lt (x : ℝ) : ¬ (Scalar.infinity : Exact) < real x := Bool.false_ne_true

theorem beq_real (x y : ℝ) : (real x == real y) = decide (x = y) := rfl

theorem pow_eq_real {x y z : ℝ} : Scalar.pow (real x) (real y) = real z ↔
    ¬ (x = 0 ∧ y < 0) ∧ ¬ (x < 0 ∧ ¬ IsWhole y) ∧ x ^ y = z := by
  change realPow x y = _ ↔ _
  unfold realPow
  split
  · simp [*]
  · split <;> simp [*]

theorem pow_one (x : ℝ) : Scalar.pow (real x) (real 1) = real x :=
  pow_eq_real.2 ⟨fun h => h.2.not_gt one_pos, fun h => h.2 ⟨1, Int.cast_one.symm⟩, Real.rpow_one x⟩

theorem isWhole_iff {x : ℝ} : Scalar.isWhole (real x) = true ↔ IsWhole x :=
  @decide_eq_true_iff _ (_)

theorem div_real (x : ℝ) {y : ℝ} (h : y ≠ 0) : real x / real y = real (x / y) := if_neg h

theorem log_real {x : ℝ} (h : 0 < x) : Scalar.log (real x) = real (Real.log x) := by
  change log (real x) = _
  rw [log, if_neg h.not_gt, if_neg h.ne']

theorem sqrt_real {x : ℝ} (h : 0 ≤ x) : Scalar.sqrt (real x) = real √x := if_neg h.not_gt

theorem mul_eq_real {a b : Exact} {z : ℝ} (h : a * b = real z) :
    ∃ x y, a = real x ∧ b = real y ∧ x * y = z := by
  change mul a b = _ at h
  cases a <;> cases b <;> simp only [mul, signed] at h <;> grind

theorem half_eq : (Scalar.half : Exact) = real (1 / 2) := by
  change div (real (1 : ℕ)) (real (2 : ℕ)) = _
  simp [div]

/-! ## Finite numbers -/

theorem ofFloat_eq (x : Float) :
    (Scalar.ofFloat x : Exact) = ofBinary (Decimal.Binary.ofFloat x) := rfl

theorem isFinite_ofFloat (x : Float) : Scalar.isFinite (Scalar.ofFloat x : Exact) =
    (Decimal.Binary.ofFloat x matches .finite ..) := by
  rw [ofFloat_eq]
  cases Decimal.Binary.ofFloat x <;> rfl

theorem ofFloat_pos {x : Float} {m : Nat} {e : Int}
    (h : Decimal.Binary.ofFloat x = .finite false (m + 1) e) : real 0 < Scalar.ofFloat x := by
  rw [ofFloat_eq, h]
  change (0 : ℝ) < ((m + 1 : ℕ) : ℝ) * 2 ^ e
  positivity

@[simp]
theorem isFinite_add (a b : Exact) :
    Scalar.isFinite (a + b) = (Scalar.isFinite a && Scalar.isFinite b) := by
  change isFinite (add a b) = (isFinite a && isFinite b)
  rcases a with _ | _ | _ <;> rcases b with _ | _ | _ <;> simp only [add] <;> try rfl
  split <;> rfl

@[simp]
theorem isFinite_neg (a : Exact) : Scalar.isFinite (-a) = Scalar.isFinite a := by
  cases a <;> rfl

@[simp]
theorem isFinite_mul (a b : Exact) :
    Scalar.isFinite (a * b) = (Scalar.isFinite a && Scalar.isFinite b) := by
  change isFinite (mul a b) = (isFinite a && isFinite b)
  rcases a with _ | _ | _ <;> rcases b with _ | _ | _ <;> simp only [mul, signed] <;> try rfl
  all_goals split <;> rfl

theorem isFinite_all {xs : List Exact} :
    Vec.isFinite xs = true ↔ ∀ x ∈ xs, Scalar.isFinite x = true := List.all_eq_true

theorem isFinite_cons {x : Exact} {xs : List Exact} :
    Vec.isFinite (x :: xs) = true ↔ Scalar.isFinite x = true ∧ Vec.isFinite xs = true := by
  simp [Vec.isFinite]

theorem isFinite_zipWith {f : Exact → Exact → Exact} {xs ys : List Exact}
    (hf : ∀ x y, Scalar.isFinite x = true → Scalar.isFinite y = true →
      Scalar.isFinite (f x y) = true)
    (hx : Vec.isFinite xs = true) (hy : Vec.isFinite ys = true) :
    Vec.isFinite (List.zipWith f xs ys) = true := by
  induction xs generalizing ys with
  | nil => rfl
  | cons x xs ih =>
    cases ys with
    | nil => rfl
    | cons y ys =>
      rw [isFinite_cons] at hx hy
      rw [List.zipWith_cons_cons, isFinite_cons]
      exact ⟨hf x y hx.1 hy.1, ih hx.2 hy.2⟩

theorem isFinite_sum {xs : List Exact} {acc : Exact} (ha : Scalar.isFinite acc = true)
    (hx : Vec.isFinite xs = true) : Scalar.isFinite (xs.foldl (· + ·) acc) = true := by
  induction xs generalizing acc with
  | nil => exact ha
  | cons x xs ih =>
    rw [isFinite_cons] at hx
    exact ih (by simp [ha, hx.1]) hx.2

theorem isFinite_dot {xs ys : List Exact} (hx : Vec.isFinite xs = true)
    (hy : Vec.isFinite ys = true) : Scalar.isFinite (Vec.dot xs ys) = true :=
  isFinite_sum rfl (isFinite_zipWith (fun x y h h' => by simp [h, h']) hx hy)

theorem isFinite_negate {xs : List Exact} (h : Vec.isFinite xs = true) :
    Vec.isFinite (Vec.negate xs) = true := by
  simpa [isFinite_all, Vec.negate] using h

theorem isFinite_getD {xs : List Exact} (h : Vec.isFinite xs = true) (i : Nat) :
    Scalar.isFinite (xs.getD i 0) = true := by
  rw [List.getD_eq_getElem?_getD]
  cases hi : xs[i]? with
  | none => rfl
  | some x => exact isFinite_all.1 h x (List.mem_of_getElem? hi)

theorem isFinite_transposeApply {rows : List (List Exact)} {v : List Exact}
    (hr : Mat.isFinite rows = true) (hv : Vec.isFinite v = true) :
    Vec.isFinite (Mat.transposeApply rows v) = true := by
  have hr : ∀ r ∈ rows, Vec.isFinite r = true := List.all_eq_true.1 hr
  rw [isFinite_all]
  intro x hx
  obtain ⟨j, -, rfl⟩ := List.mem_map.1 hx
  refine isFinite_dot (isFinite_all.2 fun y hy => ?_) hv
  obtain ⟨r, hm, rfl⟩ := List.mem_map.1 hy
  exact isFinite_getD (hr r hm) j

theorem isFinite_of_add {xs ys : List Exact} (h : Vec.isFinite (Vec.add xs ys) = true)
    (hl : (Vec.add xs ys).length = xs.length) : Vec.isFinite xs = true := by
  induction xs generalizing ys with
  | nil => rfl
  | cons x xs ih =>
    cases ys with
    | nil => simp [Vec.add] at hl
    | cons y ys =>
      rw [Vec.add, List.zipWith_cons_cons, isFinite_cons, isFinite_add, Bool.and_eq_true] at h
      rw [isFinite_cons]
      exact ⟨h.1.1, ih h.2 (by simpa [Vec.add] using hl)⟩

/-! ## The largest entry -/

theorem maxNaN_real (x y : ℝ) : Vec.maxNaN (real x) (real y) = real (max x y) := by
  have hx : Scalar.isNaN (real x) = false := rfl
  have hy : Scalar.isNaN (real y) = false := rfl
  simp only [Vec.maxNaN, hx, hy, Bool.false_eq_true, if_false, lt_real]
  split
  · rw [max_eq_right (le_of_lt ‹_›)]
  · rw [max_eq_left (not_lt.1 ‹_›)]

theorem foldl_maxNaN (xs : List ℝ) (acc : ℝ) :
    ∃ m, (xs.map real).foldl Vec.maxNaN (real acc) = real m ∧ acc ≤ m ∧ ∀ x ∈ xs, x ≤ m := by
  induction xs generalizing acc with
  | nil => exact ⟨acc, rfl, le_refl acc, by simp⟩
  | cons x xs ih =>
    obtain ⟨m, hm, ha, hx⟩ := ih (max acc x)
    refine ⟨m, by rw [List.map_cons, List.foldl_cons, maxNaN_real, hm],
      (le_max_left acc x).trans ha, ?_⟩
    rintro y (_ | ⟨_, hy⟩)
    · exact (le_max_right acc x).trans ha
    · exact hx y hy

theorem eq_map_real {xs : List Exact} (h : Vec.isFinite xs = true) : ∃ ys : List ℝ, xs = ys.map real := by
  induction xs with
  | nil => exact ⟨[], rfl⟩
  | cons x xs ih =>
    obtain ⟨hx, hxs⟩ := isFinite_cons.1 h
    obtain ⟨y, rfl⟩ := isFinite_iff.1 hx
    obtain ⟨ys, rfl⟩ := ih hxs
    exact ⟨y :: ys, rfl⟩

theorem abs_le_of_maxAbs {xs : List Exact} {t : Exact} (hx : Vec.isFinite xs = true)
    (h : Vec.maxAbs xs ≤ t) {x : ℝ} (hm : real x ∈ xs) : real |x| ≤ t := by
  obtain ⟨ys, rfl⟩ := eq_map_real hx
  have hy : x ∈ ys := by simpa using hm
  obtain ⟨m, hs, -, hb⟩ := foldl_maxNaN (ys.map (|·|)) 0
  have he : Vec.maxAbs (ys.map real) = real m := by
    rw [← hs, Vec.maxAbs, List.map_map, List.map_map, zero_eq]
    rfl
  rw [he] at h
  have hle : |x| ≤ m := hb |x| (List.mem_map_of_mem hy)
  cases t with
  | real t => exact hle.trans h
  | infinite negative => exact h
  | nan => exact h

theorem le_mul {a b c : ℝ} {t : Exact} (hc : 0 < c) (h : a ≤ c * b) (hb : real b ≤ t) :
    real a ≤ real c * t := by
  cases t with
  | real t => exact h.trans (mul_le_mul_of_nonneg_left hb hc.le)
  | infinite negative =>
    have hn : negative = false := hb
    have hs : real c * infinite negative = infinite false := by
      change signed negative c = _
      simp [signed, hn, hc.ne', hc.le]
    rw [hs]
    rfl
  | nan => exact hb

end Exact

end Equilibria
