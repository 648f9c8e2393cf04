import Equilibria.Proofs.Expressions
import Equilibria.Proofs.Rules

/-!
# Slopes of expressions

The derivative of an expression in a variable is the slope that it has in dual numbers where that
variable moves and all others stand still, at each point where calculus gives it one.
-/

namespace Equilibria

open Fallible ExactOver
open Equilibria.Dual (ofNumber zero_num one_num)

variable {α β K : Type} [Scalar α] [Field K] [LinearOrder K] [IsStrictOrderedRing K]
  [ExactOver α K]

/-! ## Expressions over dual numbers -/

/-- The binding in which `k` moves and all other variables stand still. -/
def Binding.nudge (k : Key) (b : Binding α) : Binding (Dual α) := fun k' => do
  let x ← b k'
  return ⟨x, if k == k' then 1 else 0⟩

namespace Expr

def closed (name : String) (vars : List Key) : Expr β :=
  .custom ⟨name, name, vars, fun _ => .error .wrongType, fun _ _ => .error .wrongType⟩

mutual

/-- The same expression over other scalars, where what cannot be looked into has no values. -/
def map (f : α → β) : Expr α → Expr β
  | .const x => .const (f x)
  | .ref k => .ref k
  | .binary op l r => .binary op (map f l) (map f r)
  | .unary op a => .unary op (map f a)
  | .sum terms => .sum (mapAll f terms)
  | .blackBox g args => closed g.name args
  | .custom e => closed e.kindName e.vars

def mapAll (f : α → β) : List (Expr α) → List (Expr β)
  | [] => []
  | t :: r => map f t :: mapAll f r

end

def Has (b : Binding α) (e : Expr α) (p : K → Prop) : Prop := ∃ x, e.evaluate b = .ok (num x) ∧ p x

/-- The sides of an operation have values where it has a slope. -/
def BinaryDomain (b : Binding α) (op : BinaryOp) (l r : Expr α) : Prop :=
  match op with
  | .add | .sub | .mul => True
  | .div => r.Has b (· ≠ 0)
  | .pow => l.Has b (0 < ·) ∨ l.Has b (· ≠ 0) ∧ ∃ n : ℤ, r = .const (num (n : K))

def UnaryDomain (b : Binding α) (op : UnaryOp) (a : Expr α) : Prop :=
  match op with
  | .neg | .exp | .sin | .cos => True
  | .log | .sqrt => a.Has b (0 < ·)

mutual

/-- A point where calculus gives every part of an expression a slope. -/
def Regular (b : Binding α) : Expr α → Prop
  | .const c => ∃ x, c = num x
  | .ref k => ∃ x, b k = .ok (num x)
  | .binary op l r => Regular b l ∧ Regular b r ∧ BinaryDomain b op l r
  | .unary op a => Regular b a ∧ UnaryDomain b op a
  | .sum terms => AllRegular b terms
  | .blackBox .. | .custom _ => False

def AllRegular (b : Binding α) : List (Expr α) → Prop
  | [] => True
  | t :: r => Regular b t ∧ AllRegular b r

end

/-- The dual number `z` is what becomes of the expression when `k` moves. -/
structure Moves (b : Binding α) (k : Key) (e : Expr α) (z : DualNumber K) : Prop where
  moved : (e.map Dual.const).evaluate (b.nudge k) = .ok (ofNumber z)
  value : e.evaluate b = .ok (num z.fst)
  slope : e.derivative k b = .ok (num z.snd)
  still : e.mentions k = false → z.snd = 0

variable {b : Binding α} {k : Key} {l r a : Expr α} {z w v : DualNumber K}

theorem derivative_binary {op : BinaryOp} {x y dx dy : α} (hx : l.evaluate b = .ok x)
    (hy : r.evaluate b = .ok y) (hdx : l.derivative k b = .ok dx) (hdy : r.derivative k b = .ok dy) :
    (binary op l r).derivative k b = .ok (if (binary op l r).mentions k then
      op.slope (l.mentions k) (r.mentions k) x y dx dy else 0) := by
  rw [derivative]
  split
  · rename_i h
    rw [if_pos (by simpa [isForeign] using h)]
    cases op <;> simp only [hx, hy, hdx, hdy] <;> rfl
  · rename_i h
    rw [if_neg (by simpa [isForeign] using h)]

theorem derivative_unary {op : UnaryOp} {x dx : α} (hx : a.evaluate b = .ok x)
    (hdx : a.derivative k b = .ok dx) :
    (unary op a).derivative k b = .ok (if a.mentions k then unaryDerivative op x dx else 0) := by
  rw [derivative]
  split
  · rename_i h
    rw [if_pos (by simpa [isForeign, mentions, reads] using h)]
    cases op <;> simp only [hx, hdx] <;> rfl
  · rename_i h
    rw [if_neg (by simpa [isForeign, mentions, reads] using h)]

omit [Scalar α] in
theorem mentions_binary (op : BinaryOp) :
    (binary op l r).mentions k = (l.mentions k || r.mentions k) := by
  simp [mentions, reads]

theorem Moves.binary {op : BinaryOp} (hl : l.Moves b k z) (hr : r.Moves b k w)
    (h : op.Follows α (l.mentions k) (r.mentions k) z w v) : (binary op l r).Moves b k v := by
  have hstill : (Expr.binary op l r).mentions k = false → v.snd = 0 := by
    intro hk
    rw [mentions_binary, Bool.or_eq_false_iff] at hk
    exact h.still (hl.still hk.1) (hr.still hk.2)
  refine ⟨?_, ?_, ?_, hstill⟩
  · rw [map, evaluate, hl.moved, hr.moved]
    exact congrArg Except.ok h.apply
  · rw [evaluate, hl.value, hr.value]
    have hvalue := congrArg Dual.value h.apply
    rw [BinaryOp.value_apply] at hvalue
    exact congrArg Except.ok hvalue
  · rw [derivative_binary hl.value hr.value hl.slope hr.slope, h.slope]
    split
    · rfl
    · rename_i hk
      rw [hstill (by simpa using hk), zero_num]

theorem Moves.unary {op : UnaryOp} (ha : a.Moves b k z) (h : op.Follows α z v) :
    (unary op a).Moves b k v := by
  refine ⟨?_, ?_, ?_, fun hk => h.still (ha.still hk)⟩
  · rw [map, evaluate, ha.moved]
    exact congrArg Except.ok h.apply
  · rw [evaluate, ha.value]
    have hvalue := congrArg Dual.value h.apply
    rw [UnaryOp.value_apply] at hvalue
    exact congrArg Except.ok hvalue
  · rw [derivative_unary ha.value ha.slope, h.slope]
    split
    · rfl
    · rename_i hk
      rw [h.still (ha.still (by simpa using hk)), zero_num]

theorem Moves.fst_of_has {p : K → Prop} (ha : a.Moves b k z) (h : a.Has b p) : p z.fst := by
  obtain ⟨x, hx, hp⟩ := h
  have hnum : (num x : α) = num z.fst := Except.ok.inj (hx.symm.trans ha.value)
  have heq : x = z.fst := (beq_num x z.fst).1 (by rw [hnum]; exact (beq_num _ _).2 rfl)
  exact heq ▸ hp

/-! ## Leaves, operations and sums -/

theorem moves_const (x : K) : (const (num x : α)).Moves b k (TrivSqZeroExt.inl x) where
  moved := congrArg Except.ok (Dual.const_num x)
  value := rfl
  slope := by
    rw [derivative, ite_self, zero_num]
    rfl
  still _ := rfl

theorem moves_ref {k' : Key} {x : K} (h : b k' = .ok (num x)) :
    (ref k' : Expr α).Moves b k ((x, if k == k' then 1 else 0) : DualNumber K) := by
  refine ⟨?_, h, ?_, fun hk => ?_⟩
  · have hnudge : b.nudge k k' = .ok ⟨num x, if k == k' then 1 else 0⟩ := by
      rw [Binding.nudge, h]
      rfl
    refine hnudge.trans (congrArg Except.ok ?_)
    rw [one_num, zero_num, ← apply_ite num]
    rfl
  · have hmentions : (ref k' : Expr α).mentions k = (k == k') := by simp [mentions, reads]
    rw [derivative, hmentions, one_num, zero_num]
    cases k == k' <;> rfl
  · have hne : (k == k') = false := by simpa [mentions, reads] using hk
    rw [hne]
    rfl

theorem Moves.exists_binary {op : BinaryOp} (hl : l.Moves b k z) (hr : r.Moves b k w)
    (hd : BinaryDomain b op l r) : ∃ v, (Expr.binary op l r).Moves b k v := by
  cases op with
  | add => exact ⟨_, hl.binary hr BinaryOp.follows_add⟩
  | sub => exact ⟨_, hl.binary hr BinaryOp.follows_sub⟩
  | mul => exact ⟨_, hl.binary hr BinaryOp.follows_mul⟩
  | div => exact ⟨_, hl.binary hr (BinaryOp.follows_div (hr.fst_of_has hd))⟩
  | pow =>
    refine ⟨_, hl.binary hr (BinaryOp.follows_pow hl.still hr.still ?_)⟩
    rcases hd with hx | ⟨hx, n, rfl⟩
    · exact .inl (hl.fst_of_has hx)
    · have hw : w.fst = n := hr.fst_of_has (p := (· = (n : K))) ⟨n, rfl, rfl⟩
      exact .inr ⟨⟨hl.fst_of_has hx, n, hw⟩, rfl⟩

theorem Moves.exists_unary {op : UnaryOp} (ha : a.Moves b k z) (hd : UnaryDomain b op a) :
    ∃ v, (Expr.unary op a).Moves b k v := by
  have hfollows : ∃ v, op.Follows α z v := by
    cases op with
    | neg => exact ⟨_, UnaryOp.follows_neg⟩
    | log => exact UnaryOp.follows_log (ha.fst_of_has hd)
    | exp => exact UnaryOp.follows_exp
    | sqrt => exact UnaryOp.follows_sqrt (ha.fst_of_has hd)
    | sin => exact UnaryOp.follows_sin
    | cos => exact UnaryOp.follows_cos
  obtain ⟨v, hv⟩ := hfollows
  exact ⟨v, ha.unary hv⟩

structure AllMove (b : Binding α) (k : Key) (terms : List (Expr α)) (acc v : DualNumber K) :
    Prop where
  moved : evaluateSum (b.nudge k) (ofNumber acc) (mapAll Dual.const terms) = .ok (ofNumber v)
  value : evaluateSum b (num acc.fst) terms = .ok (num v.fst)
  slope : derivativeSum k b (num acc.snd) terms = .ok (num v.snd)
  still : (readsAll terms).contains k = false → v.snd = acc.snd

theorem AllMove.nil (acc : DualNumber K) : AllMove b k ([] : List (Expr α)) acc acc :=
  ⟨rfl, rfl, rfl, fun _ => rfl⟩

theorem AllMove.cons {t : Expr α} {rest : List (Expr α)} {acc : DualNumber K}
    (ht : t.Moves b k z) (hr : AllMove b k rest (acc + z) v) : AllMove b k (t :: rest) acc v := by
  refine ⟨?_, ?_, ?_, fun hk => ?_⟩
  · rw [mapAll, evaluateSum, ht.moved]
    change evaluateSum _ (ofNumber acc + ofNumber z) _ = _
    rw [Dual.ofNumber_add]
    exact hr.moved
  · rw [evaluateSum, ht.value]
    change evaluateSum _ (num acc.fst + num z.fst) _ = _
    rw [add_num]
    exact hr.value
  · rw [derivativeSum]
    split
    · rw [ht.slope]
      change derivativeSum _ _ (num acc.snd + num z.snd) _ = _
      rw [add_num]
      exact hr.slope
    · -- A term that does not mention the variable is left out, as its slope is zero.
      rename_i hk
      have hslope := hr.slope
      rwa [TrivSqZeroExt.snd_add, ht.still (by simpa using hk), add_zero] at hslope
  · rw [readsAll, List.contains_append, Bool.or_eq_false_iff] at hk
    rw [hr.still hk.2, TrivSqZeroExt.snd_add, ht.still hk.1, add_zero]

theorem AllMove.sum {terms : List (Expr α)} (h : AllMove b k terms 0 v) :
    (Expr.sum terms).Moves b k v := by
  have hzero : (0 : Dual α) = ofNumber (0 : DualNumber K) := by
    change Dual.const (Scalar.ofNat 0) = _
    rw [ofNat_num, Nat.cast_zero, Dual.const_num]
    rfl
  refine ⟨?_, ?_, ?_, h.still⟩
  · rw [map, evaluate, hzero]
    exact h.moved
  · rw [evaluate, zero_num]
    exact h.value
  · rw [derivative]
    split
    · rw [zero_num]
      exact h.slope
    · rename_i hk
      have hstill : v.snd = 0 := h.still (by simpa [isForeign, mentions, reads] using hk)
      rw [hstill, zero_num]

/-! ## Expressions at regular points -/

mutual

theorem exists_moves (k : Key) : ∀ {e : Expr α}, e.Regular b → ∃ z, e.Moves b k z
  | .const _, ⟨x, hx⟩ => ⟨_, hx ▸ moves_const x⟩
  | .ref _, ⟨_, hx⟩ => ⟨_, moves_ref hx⟩
  | .binary _ _ _, h => by
    obtain ⟨z, hz⟩ := exists_moves k h.1
    obtain ⟨w, hw⟩ := exists_moves k h.2.1
    exact hz.exists_binary hw h.2.2
  | .unary _ _, h => by
    obtain ⟨z, hz⟩ := exists_moves k h.1
    exact hz.exists_unary h.2
  | .sum terms, h => by
    have hterms : AllRegular b terms := h
    obtain ⟨v, hv⟩ := exists_allMove k hterms 0
    exact ⟨v, hv.sum⟩

theorem exists_allMove (k : Key) : ∀ {terms : List (Expr α)}, AllRegular b terms →
    ∀ acc : DualNumber K, ∃ v, AllMove b k terms acc v
  | [], _, acc => ⟨acc, .nil acc⟩
  | _ :: _, h, acc => by
    obtain ⟨z, hz⟩ := exists_moves k h.1
    obtain ⟨v, hv⟩ := exists_allMove k h.2 (acc + z)
    exact ⟨v, .cons hz hv⟩

end

theorem Regular.derivative_eq_zero (h : a.Regular b) (hk : a.vars.contains k = false) :
    a.derivative k b = .ok 0 := by
  have hmentions : a.mentions k = false := (contains_distinct a.reads k).symm.trans hk
  obtain ⟨z, hz⟩ := exists_moves k h
  rw [hz.slope, hz.still hmentions, zero_num]

theorem Regular.gradient_ok (h : a.Regular b) : ∃ slopes, a.gradient b = .ok slopes ∧
    slopes.map (·.1) = a.vars ∧ ∀ p ∈ slopes, a.derivative p.1 b = .ok p.2 := by
  let entry (k : Key) : Except Error (Key × α) := do return (k, ← a.derivative k b)
  have hentry (k : Key) : ∃ d, a.derivative k b = .ok d ∧ entry k = .ok (k, d) := by
    obtain ⟨z, hz⟩ := exists_moves k h
    exact ⟨num z.snd, hz.slope, by simp only [entry, hz.slope]; rfl⟩
  have hall : ∀ k ∈ a.vars, ∃ p, entry k = .ok p := by
    intro k _
    obtain ⟨d, -, hd⟩ := hentry k
    exact ⟨(k, d), hd⟩
  obtain ⟨slopes, hslopes⟩ := mapM_ok_of_forall hall
  refine ⟨slopes, hslopes, map_of_mapM hslopes fun k p hp => ?_, fun p hp => ?_⟩
  · obtain ⟨d, -, hd⟩ := hentry k
    cases hd.symm.trans hp
    rfl
  · obtain ⟨k, -, hk⟩ := mem_of_mapM hslopes hp
    obtain ⟨d, hderivative, hd⟩ := hentry k
    cases hd.symm.trans hk
    exact hderivative

/-- At a regular point the derivative of an expression is its slope in dual numbers, and zero in a
variable that it does not have. -/
theorem slopes_of_regular {b : Binding α} {e : Expr α} (h : e.Regular b) :
    (∀ k, ∃ z : DualNumber K, (e.map Dual.const).evaluate (b.nudge k) = .ok (ofNumber z) ∧
      e.evaluate b = .ok (num z.fst) ∧ e.derivative k b = .ok (num z.snd)) ∧
    (∀ k, e.vars.contains k = false → e.derivative k b = .ok 0) ∧
    (∃ slopes, e.gradient b = .ok slopes ∧ slopes.map (·.1) = e.vars ∧
      ∀ p ∈ slopes, e.derivative p.1 b = .ok p.2) ∧
    ∀ (inLeft inRight : Bool) (x y dx dy : K), 0 < x → (inLeft = false → dx = 0) →
      (inRight = false → dy = 0) →
      powDerivative inLeft inRight (num x : α) (num y) (num dx) (num dy) =
        powDerivative true true (num x) (num y) (num dx) (num dy) := by
  refine ⟨fun k => ?_, fun k hk => h.derivative_eq_zero hk, h.gradient_ok, ?_⟩
  · obtain ⟨z, hz⟩ := exists_moves k h
    exact ⟨z, hz.moved, hz.value, hz.slope⟩
  · intro inLeft inRight x y dx dy hx hl hr
    rw [BinaryOp.powDerivative_num y dx dy hx hl hr,
      BinaryOp.powDerivative_num y dx dy hx (by simp) (by simp)]

/-- The terms `x ^ y`, `log x / y` and `(x - 4) ^ 3`. -/
noncomputable def threeTerms (x y : Key) : Expr Exact :=
  .sum [.binary .pow (.ref x) (.ref y), .binary .div (.unary .log (.ref x)) (.ref y),
    .binary .pow (.binary .sub (.ref x) (.const (.real 4))) (.const (.real (3 : ℤ)))]

/-- With `x` at two the base of the last power is negative, but its exponent is a whole number. -/
theorem slopes_of_threeTerms : let x : Key := ⟨"x", []⟩; let y : Key := ⟨"y", []⟩
    let b : Binding Exact := fun k => .ok (.real (if k == x then 2 else 3))
    ∃ z : DualNumber ℝ, ((threeTerms x y).map Dual.const).evaluate (b.nudge x) = .ok (ofNumber z) ∧
      (threeTerms x y).evaluate b = .ok (.real z.fst) ∧
      (threeTerms x y).derivative x b = .ok (.real z.snd) := by
  intro x y b
  have hx : b x = .ok (num 2) := congrArg (fun t => Except.ok (Exact.real t)) (if_pos BEq.rfl)
  have hy : b y = .ok (num 3) := congrArg (fun t => Except.ok (Exact.real t)) (if_neg (by decide))
  have hbase : (binary .sub (.ref x) (.const (.real 4))).Has b (· ≠ 0) :=
    ⟨2 - 4, by simp only [evaluate, hx]; exact congrArg Except.ok (sub_num 2 4), by norm_num⟩
  have hregular : (threeTerms x y).Regular b :=
    ⟨⟨⟨2, hx⟩, ⟨3, hy⟩, .inl ⟨2, hx, two_pos⟩⟩,
      ⟨⟨⟨2, hx⟩, 2, hx, two_pos⟩, ⟨3, hy⟩, 3, hy, three_ne_zero⟩,
      ⟨⟨⟨2, hx⟩, ⟨4, rfl⟩, trivial⟩, ⟨(3 : ℤ), rfl⟩, .inr ⟨hbase, 3, rfl⟩⟩, trivial⟩
  exact (slopes_of_regular hregular).1 x

end Expr

end Equilibria
