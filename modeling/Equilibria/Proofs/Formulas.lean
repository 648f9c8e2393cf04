import Equilibria.Fallible
import Equilibria.Path.Formula
import Equilibria.Proofs.Exact

/-!
# Formulas mean what expressions mean

An expression is translated node by node, each after the nodes below it, and the first node that
has no formula decides the error. In exact arithmetic a formula is worth what its expression is
worth, however it was simplified.
-/

namespace Equilibria

open Fallible

/-! ## Nodes -/

theorem eq_of_singleton {β : Type} {a x : β} {before after : List β}
    (h : [a] = before ++ x :: after) : x = a :=
  List.mem_singleton.1 (h ▸ List.mem_append_right before List.mem_cons_self)

theorem append_eq_of_cons {β : Type} {l r before after : List β} {x : β}
    (h : l ++ r = before ++ x :: after) :
    (∃ rest, l = before ++ x :: rest) ∨ ∃ rest, before = l ++ rest ∧ r = rest ++ x :: after := by
  rcases List.append_eq_append_iff.1 h with ⟨rest, hb, hr⟩ | ⟨rest, hl, hx⟩
  · exact .inr ⟨rest, hb, hr⟩
  · cases rest with
    | nil => exact .inr ⟨[], by simpa using hl.symm, by simpa using hx.symm⟩
    | cons a rest =>
      obtain ⟨rfl, rfl⟩ := List.cons.inj hx
      exact .inl ⟨rest, hl⟩

namespace Expr

variable {α : Type}

/-- Numbers, variables, arithmetic, elementary functions and sums. -/
def isAlgebraic : Expr α → Bool
  | .const _ | .ref _ | .binary .. | .unary .. | .sum _ => true
  | .blackBox .. | .custom _ => false

mutual

/-- The nodes of an expression, each after the nodes below it. -/
def nodes : Expr α → List (Expr α)
  | .const x => [.const x]
  | .ref k => [.ref k]
  | .binary op l r => nodes l ++ (nodes r ++ [.binary op l r])
  | .unary op a => nodes a ++ [.unary op a]
  | .sum terms => nodesAll terms ++ [.sum terms]
  | .blackBox f args => [.blackBox f args]
  | .custom e => [.custom e]

def nodesAll : List (Expr α) → List (Expr α)
  | [] => []
  | t :: r => nodes t ++ nodesAll r

end

theorem mem_nodes (e : Expr α) : e ∈ e.nodes := by
  cases e <;> simp [nodes]

variable [Scalar α] {position : Key → Except Error Nat}

def HasFormula (position : Key → Except Error Nat) (e : Expr α) : Prop :=
  ∃ f, e.toFormula position = .ok f

theorem toFormula_of_not_algebraic {e : Expr α} (h : e.isAlgebraic = false) :
    e.toFormula position = .error (.noFormula e.kindName) := by
  cases e with
  | blackBox f args => rfl
  | custom e => rfl
  | _ => cases h

mutual

theorem HasFormula.nodes : ∀ {e : Expr α}, e.HasFormula position →
    ∀ x ∈ e.nodes, x.HasFormula position
  | .const _, h | .ref _, h | .blackBox .., h | .custom _, h => List.forall_mem_singleton.2 h
  | .binary op l r, h => by
    obtain ⟨f, hf⟩ := h
    obtain ⟨fl, hl, hr⟩ := bind_eq_ok.1 hf
    obtain ⟨fr, hr, -⟩ := bind_eq_ok.1 hr
    simp only [Expr.nodes, List.forall_mem_append, List.forall_mem_singleton]
    exact ⟨HasFormula.nodes ⟨fl, hl⟩, HasFormula.nodes ⟨fr, hr⟩, f, hf⟩
  | .unary op a, h => by
    obtain ⟨f, hf⟩ := h
    obtain ⟨g, ha, -⟩ := bind_eq_ok.1 hf
    simp only [Expr.nodes, List.forall_mem_append, List.forall_mem_singleton]
    exact ⟨HasFormula.nodes ⟨g, ha⟩, f, hf⟩
  | .sum terms, h => by
    obtain ⟨f, hf⟩ := h
    simp only [Expr.nodes, List.forall_mem_append, List.forall_mem_singleton]
    exact ⟨HasFormula.nodesAll hf, f, hf⟩

theorem HasFormula.nodesAll : ∀ {terms : List (Expr α)} {acc f : Formula α},
    sumFormula position acc terms = .ok f → ∀ x ∈ nodesAll terms, x.HasFormula position
  | [], _, _, _ => fun _ h => by cases h
  | t :: r, acc, f, h => by
    obtain ⟨g, ht, hr⟩ := bind_eq_ok.1 h
    simp only [Expr.nodesAll, List.forall_mem_append]
    exact ⟨HasFormula.nodes ⟨g, ht⟩, HasFormula.nodesAll hr⟩

end

theorem HasFormula.isAlgebraic {e : Expr α} (h : e.HasFormula position) :
    ∀ x ∈ e.nodes, x.isAlgebraic = true := by
  intro x hx
  obtain ⟨f, hf⟩ := h.nodes x hx
  by_contra ha
  rw [toFormula_of_not_algebraic (Bool.not_eq_true _ ▸ ha)] at hf
  cases hf

mutual

-- By induction on the expression. The node lies in one of the parts, and all parts before that one
-- are translated, since each part is the last of its own nodes; or it is the expression itself.
theorem toFormula_of_first : ∀ {e : Expr α} {before after : List (Expr α)} {x : Expr α}
    {error : Error}, e.nodes = before ++ x :: after → (∀ y ∈ before, y.HasFormula position) →
    x.toFormula position = .error error → e.toFormula position = .error error
  | .const _, _, _, _, _, h, _, hx | .ref _, _, _, _, _, h, _, hx
  | .blackBox .., _, _, _, _, h, _, hx | .custom _, _, _, _, _, h, _, hx => by
    rw [← eq_of_singleton h]
    exact hx
  | .binary op l r, before, after, x, error, h, hb, hx => by
    rcases append_eq_of_cons h with ⟨rest, hl⟩ | ⟨rest, rfl, hr⟩
    · simp only [toFormula, toFormula_of_first hl hb hx]
      rfl
    · obtain ⟨hl, hb⟩ := List.forall_mem_append.1 hb
      obtain ⟨f, hf⟩ := hl l l.mem_nodes
      rcases append_eq_of_cons hr with ⟨rest, hr⟩ | ⟨rest, -, he⟩
      · simp only [toFormula, hf, toFormula_of_first hr hb hx]
        rfl
      · rw [← eq_of_singleton he]
        exact hx
  | .unary op a, before, after, x, error, h, hb, hx => by
    rcases append_eq_of_cons h with ⟨rest, ha⟩ | ⟨rest, -, he⟩
    · simp only [toFormula, toFormula_of_first ha hb hx]
      rfl
    · rw [← eq_of_singleton he]
      exact hx
  | .sum terms, before, after, x, error, h, hb, hx => by
    rcases append_eq_of_cons h with ⟨rest, ht⟩ | ⟨rest, -, he⟩
    · simp only [toFormula]
      exact sumFormula_of_first _ ht hb hx
    · rw [← eq_of_singleton he]
      exact hx

theorem sumFormula_of_first : ∀ {terms : List (Expr α)} {before after : List (Expr α)}
    {x : Expr α} {error : Error} (acc : Formula α), nodesAll terms = before ++ x :: after →
    (∀ y ∈ before, y.HasFormula position) → x.toFormula position = .error error →
    sumFormula position acc terms = .error error
  | [], _, _, _, _, _, h, _, _ => by simp [nodesAll] at h
  | t :: r, before, after, x, error, acc, h, hb, hx => by
    rcases append_eq_of_cons h with ⟨rest, ht⟩ | ⟨rest, rfl, hr⟩
    · simp only [sumFormula, toFormula_of_first ht hb hx]
      rfl
    · obtain ⟨ht, hb⟩ := List.forall_mem_append.1 hb
      obtain ⟨f, hf⟩ := ht t t.mem_nodes
      simp only [sumFormula, hf]
      exact sumFormula_of_first (acc.add f) hr hb hx

end

end Expr

/-! ## Values -/

/-- No divisor is zero, and powers are real numbers. -/
def BinaryOp.Proper : BinaryOp → Exact → Exact → Prop
  | .div, _, y => y ≠ 0
  | .pow, x, y => Scalar.isFinite (Scalar.pow x y) = true
  | _, _, _ => True

/-- Logarithms are of positive numbers, and roots of numbers that are not negative. -/
def UnaryOp.Proper : UnaryOp → Exact → Prop
  | .log, x => 0 < x
  | .sqrt, x => 0 ≤ x
  | _, _ => True

namespace Checked

theorem div_ok (x : ℝ) {y : ℝ} (h : y ≠ 0) :
    div (Exact.real x) (.real y) = .ok (.real (x / y)) := by
  simp [div, Exact.beq_real, h, Exact.div_real x h]

theorem pow_ok {x y z : ℝ} (h : Scalar.pow (Exact.real x) (.real y) = .real z) :
    pow (Exact.real x) (.real y) = .ok (.real (.real z)) := by
  obtain ⟨hzero, hwhole, -⟩ := Exact.pow_eq_real.1 h
  unfold pow
  rw [if_neg (by simpa [Exact.beq_real] using hzero),
    if_neg (by simpa [← Exact.isWhole_iff] using hwhole)]
  simp [h]

theorem function_ok {op : UnaryOp} {x : ℝ} (h : op.Proper (.real x)) :
    ∃ y, op.apply (Exact.real x) = .real y ∧ function op (Exact.real x) = .ok (.real y) := by
  cases op with
  | neg => exact ⟨-x, rfl, rfl⟩
  | log =>
    have hx : 0 < x := by simpa [UnaryOp.Proper] using h
    exact ⟨Real.log x, Exact.log_real hx, by simp [function, Exact.log_real hx, hx]⟩
  | exp => exact ⟨Real.exp x, rfl, rfl⟩
  | sqrt =>
    have hx : 0 ≤ x := by simpa [UnaryOp.Proper] using h
    exact ⟨√x, Exact.sqrt_real hx, by simp [function, Exact.sqrt_real hx, hx]⟩
  | sin => exact ⟨Real.sin x, rfl, rfl⟩
  | cos => exact ⟨Real.cos x, rfl, rfl⟩

end Checked

namespace Formula

variable {v : Nat → Except Error Exact} {f g : Formula Exact} {x y : ℝ}

/-- The formula has the real value `x`. -/
def Worth (v : Nat → Except Error Exact) (f : Formula Exact) (x : ℝ) : Prop :=
  f.evaluate v = .ok (.real (.real x))

theorem worth_number (x : ℝ) : Worth v (.number (.real x)) x := rfl

theorem Worth.number_eq {a : Exact} (h : Worth v (.number a) x) : a = .real x := by
  cases h
  rfl

theorem Worth.number_beq {a : Exact} {c : ℝ} (h : Worth v (.number a) x)
    (ha : (a == .real c) = true) : x = c := by
  rw [h.number_eq, Exact.beq_real] at ha
  exact of_decide_eq_true ha

theorem worth_variable {i : Nat} (h : v i = .ok (.real x)) : Worth v (.variable i) x :=
  bind_eq_ok.2 ⟨_, h, rfl⟩

theorem Worth.variable_eq {i : Nat} (h : Worth v (.variable i) x) : v i = .ok (.real x) := by
  obtain ⟨a, ha, h⟩ := bind_eq_ok.1 h
  cases h
  exact ha

theorem worth_scaled {i : Nat} {a : Exact} (h : v i = .ok (.real x)) (ha : a * .real x = .real y) :
    Worth v (.scaled a i) y :=
  bind_eq_ok.2 ⟨_, h, congrArg (fun y => Except.ok (Quantity.real y)) ha⟩

theorem Worth.scaled_eq {i : Nat} {a : Exact} (h : Worth v (.scaled a i) x) :
    ∃ c t, a = .real c ∧ v i = .ok (.real t) ∧ c * t = x := by
  obtain ⟨b, hb, h⟩ := bind_eq_ok.1 h
  obtain ⟨c, t, rfl, rfl, rfl⟩ := Exact.mul_eq_real (Quantity.real.inj (Except.ok.inj h))
  exact ⟨c, t, rfl, hb, rfl⟩

theorem Worth.negation (hf : Worth v f x) : Worth v (.negation f) (-x) :=
  bind_eq_ok.2 ⟨_, hf, rfl⟩

theorem Worth.function {op : UnaryOp} {z : ℝ} (hf : Worth v f x)
    (h : Checked.function op (Exact.real x) = .ok (.real z)) : Worth v (.function op f) z :=
  bind_eq_ok.2 ⟨_, hf, bind_eq_ok.2 ⟨_, h, rfl⟩⟩

theorem Worth.both {z : ℝ} {op : Quantity Exact → Quantity Exact → Except Error (Quantity Exact)}
    (hf : Worth v f x) (hg : Worth v g y)
    (h : op (.real (.real x)) (.real (.real y)) = .ok (.real (.real z))) :
    (do op (← f.evaluate v) (← g.evaluate v)) = .ok (.real (.real z)) :=
  bind_eq_ok.2 ⟨_, hf, bind_eq_ok.2 ⟨_, hg, h⟩⟩

theorem Worth.sum (hf : Worth v f x) (hg : Worth v g y) : Worth v (.sum f g) (x + y) :=
  hf.both hg (by simp [Quantity.lift])

theorem Worth.product (hf : Worth v f x) (hg : Worth v g y) : Worth v (.product f g) (x * y) :=
  hf.both hg rfl

theorem Worth.quotient (hf : Worth v f x) (hg : Worth v g y) (h : y ≠ 0) :
    Worth v (.quotient f g) (x / y) :=
  hf.both hg (map_eq_ok.2 ⟨_, Checked.div_ok x h, rfl⟩)

theorem Worth.power {z : ℝ} (hf : Worth v f x) (hg : Worth v g y)
    (h : Scalar.pow (Exact.real x) (.real y) = .real z) : Worth v (.power f g) z :=
  hf.both hg (Checked.pow_ok h)

/-! ### Building

Each simplification keeps the value: it drops a zero or a one, or computes with numbers. -/

theorem Worth.add (hf : Worth v f x) (hg : Worth v g y) : Worth v (f.add g) (x + y) := by
  unfold Formula.add
  split
  · rw [hf.number_eq, hg.number_eq]
    exact worth_number _
  · split
    · rename_i h
      rw [hf.number_beq (Exact.zero_eq ▸ h), zero_add]
      exact hg
    · exact hf.sum hg
  · split
    · rename_i h
      rw [hg.number_beq (Exact.zero_eq ▸ h), add_zero]
      exact hf
    · exact hf.sum hg
  · exact hf.sum hg

theorem Worth.negate (hf : Worth v f x) : Worth v f.negate (-x) := by
  unfold Formula.negate
  split
  · rw [hf.number_eq]
    exact worth_number _
  · refine worth_scaled hf.variable_eq ?_
    simp [Exact.one_eq]
  · obtain ⟨c, t, rfl, ht, rfl⟩ := hf.scaled_eq
    exact worth_scaled ht (by simp)
  · exact hf.negation

theorem Worth.sub (hf : Worth v f x) (hg : Worth v g y) : Worth v (f.sub g) (x - y) := by
  unfold Formula.sub
  split
  · rw [hf.number_eq, hg.number_eq, Exact.sub_real]
    exact worth_number _
  · rw [sub_eq_add_neg]
    exact hf.add hg.negate

theorem Worth.times {a : Exact} (ha : Worth v (.number a) x) (hf : Worth v f y) :
    Worth v (Formula.times a f) (x * y) := by
  unfold Formula.times
  split
  · rename_i h
    rw [ha.number_beq (Exact.one_eq ▸ h), one_mul]
    exact hf
  split
  · rw [ha.number_eq]
    exact worth_scaled hf.variable_eq rfl
  · obtain ⟨c, t, rfl, ht, rfl⟩ := hf.scaled_eq
    rw [ha.number_eq]
    exact worth_scaled ht (by simp [mul_assoc])
  · exact ha.product hf

theorem Worth.mul (hf : Worth v f x) (hg : Worth v g y) : Worth v (f.mul g) (x * y) := by
  unfold Formula.mul
  split
  · rw [hf.number_eq, hg.number_eq]
    exact worth_number _
  · exact hf.times hg
  · rw [mul_comm]
    exact hg.times hf
  · exact hf.product hg

theorem Worth.div (hf : Worth v f x) (hg : Worth v g y) (h : y ≠ 0) :
    ∃ k, f.div g = .ok k ∧ Worth v k (x / y) := by
  unfold Formula.div
  split
  · rw [hf.number_eq, hg.number_eq, Checked.div_ok x h]
    exact ⟨_, rfl, worth_number _⟩
  · split
    · rename_i hone
      rw [hg.number_beq (Exact.one_eq ▸ hone), div_one]
      exact ⟨_, rfl, hf⟩
    split
    · rw [hg.number_eq, Exact.one_eq, Checked.div_ok 1 h]
      exact ⟨_, rfl, worth_scaled hf.variable_eq (by simp [div_eq_inv_mul])⟩
    · obtain ⟨c, t, rfl, ht, rfl⟩ := hf.scaled_eq
      rw [hg.number_eq, Checked.div_ok c h]
      exact ⟨_, rfl, worth_scaled ht (by simp [div_mul_eq_mul_div])⟩
    · exact ⟨_, rfl, hf.quotient hg h⟩
  · exact ⟨_, rfl, hf.quotient hg h⟩

theorem Worth.pow {z : ℝ} (hf : Worth v f x) (hg : Worth v g y)
    (h : Scalar.pow (Exact.real x) (.real y) = .real z) :
    ∃ k, f.pow g = .ok k ∧ Worth v k z := by
  unfold Formula.pow
  split
  · rw [hf.number_eq, hg.number_eq, Checked.pow_ok h]
    exact ⟨_, rfl, worth_number _⟩
  · refine ⟨_, rfl, ?_⟩
    split
    · rename_i hone
      rw [hg.number_beq (Exact.one_eq ▸ hone), Exact.pow_one] at h
      cases h
      exact hf
    · exact hf.power hg h
  · exact ⟨_, rfl, hf.power hg h⟩

theorem Worth.combine {op : BinaryOp} (hf : Worth v f x) (hg : Worth v g y)
    (h : op.Proper (.real x) (.real y)) :
    ∃ k z, Formula.combine op f g = .ok k ∧ Worth v k z ∧
      op.apply (Exact.real x) (.real y) = .real z := by
  cases op with
  | add => exact ⟨_, x + y, rfl, hf.add hg, rfl⟩
  | sub => exact ⟨_, x - y, rfl, hf.sub hg, Exact.sub_real x y⟩
  | mul => exact ⟨_, x * y, rfl, hf.mul hg, rfl⟩
  | div =>
    have hy : y ≠ 0 := by simpa [BinaryOp.Proper] using h
    obtain ⟨k, hk, hw⟩ := hf.div hg hy
    exact ⟨k, x / y, hk, hw, Exact.div_real x hy⟩
  | pow =>
    obtain ⟨z, hz⟩ := Exact.isFinite_iff.1 h
    obtain ⟨k, hk, hw⟩ := hf.pow hg hz
    exact ⟨k, z, hk, hw, hz⟩

theorem Worth.apply {op : UnaryOp} (hf : Worth v f x) (h : op.Proper (.real x)) :
    ∃ k z, Formula.apply op f = .ok k ∧ Worth v k z ∧ op.apply (Exact.real x) = .real z := by
  obtain ⟨z, hz, hc⟩ := Checked.function_ok h
  unfold Formula.apply
  split
  · rw [hf.number_eq, hc]
    exact ⟨_, z, rfl, worth_number z, hz⟩
  · refine ⟨_, z, rfl, ?_, hz⟩
    split
    · rename_i hneg
      cases eq_of_beq hneg
      cases hz
      exact hf.negate
    · exact hf.function hc

end Formula

/-! ## Expressions -/

namespace Expr

/-- What a node asks of the values below it, in exact arithmetic. -/
def Proper (b : Binding Exact) : Expr Exact → Prop
  | .const c => Scalar.isFinite c = true
  | .binary op l r => ∀ x y, l.evaluate b = .ok x → r.evaluate b = .ok y → op.Proper x y
  | .unary op a => ∀ x, a.evaluate b = .ok x → op.Proper x
  | .ref _ | .sum _ | .blackBox .. | .custom _ => True

def Represents (position : Key → Except Error Nat) (v : Nat → Except Error Exact)
    (b : Binding Exact) (keys : List Key) : Prop :=
  ∀ k ∈ keys, ∃ i x, position k = .ok i ∧ v i = .ok (.real x) ∧ b k = .ok (.real x)

variable {position : Key → Except Error Nat} {v : Nat → Except Error Exact} {b : Binding Exact}

/-- The formula of an expression has the value of the expression. -/
def Translates (position : Key → Except Error Nat) (v : Nat → Except Error Exact)
    (b : Binding Exact) (e : Expr Exact) : Prop :=
  ∃ f x, e.toFormula position = .ok f ∧ f.Worth v x ∧ e.evaluate b = .ok (.real x)

mutual

-- By induction on the expression. For sums the induction carries the formula and the value of the
-- terms that have been added so far.
theorem translates_of_proper : ∀ {e : Expr Exact}, (∀ x ∈ e.nodes, x.isAlgebraic = true) →
    Represents position v b e.reads → (∀ x ∈ e.nodes, x.Proper b) → e.Translates position v b
  | .const c, _, _, hp => by
    obtain ⟨x, rfl⟩ := Exact.isFinite_iff.1 (hp _ (mem_nodes _))
    exact ⟨_, x, rfl, Formula.worth_number x, rfl⟩
  | .ref k, _, hk, _ => by
    obtain ⟨i, x, hi, hv, hb⟩ := hk k List.mem_cons_self
    exact ⟨.variable i, x, bind_eq_ok.2 ⟨i, hi, rfl⟩, Formula.worth_variable hv, hb⟩
  | .binary op l r, ha, hk, hp => by
    simp only [nodes, List.forall_mem_append, List.forall_mem_singleton] at ha hp
    simp only [reads, Represents, List.forall_mem_append] at hk
    obtain ⟨f, x, hf, hx, hl⟩ := translates_of_proper ha.1 hk.1 hp.1
    obtain ⟨g, y, hg, hy, hr⟩ := translates_of_proper ha.2.1 hk.2 hp.2.1
    obtain ⟨k, z, hk, hz, happly⟩ := hx.combine hy (hp.2.2 _ _ hl hr)
    exact ⟨k, z, bind_eq_ok.2 ⟨f, hf, bind_eq_ok.2 ⟨g, hg, hk⟩⟩, hz,
      bind_eq_ok.2 ⟨_, hl, bind_eq_ok.2 ⟨_, hr, congrArg Except.ok happly⟩⟩⟩
  | .unary op a, ha, hk, hp => by
    simp only [nodes, List.forall_mem_append, List.forall_mem_singleton] at ha hp
    obtain ⟨f, x, hf, hx, he⟩ := translates_of_proper ha.1 hk hp.1
    obtain ⟨k, z, hk, hz, happly⟩ := hx.apply (hp.2 _ he)
    exact ⟨k, z, bind_eq_ok.2 ⟨f, hf, hk⟩, hz,
      bind_eq_ok.2 ⟨_, he, congrArg Except.ok happly⟩⟩
  | .sum terms, ha, hk, hp => by
    simp only [nodes, List.forall_mem_append, List.forall_mem_singleton] at ha hp
    have hzero : Formula.Worth v (.number 0) 0 := by
      rw [Exact.zero_eq]
      exact Formula.worth_number 0
    obtain ⟨f, z, hf, hz, he⟩ := translates_sum hzero ha.1 hk hp.1
    exact ⟨f, z, hf, hz, by simpa only [evaluate, Exact.zero_eq] using he⟩
  | .blackBox .., ha, _, _ | .custom _, ha, _, _ => by cases ha _ (mem_nodes _)

theorem translates_sum : ∀ {terms : List (Expr Exact)} {acc : Formula Exact} {x : ℝ},
    acc.Worth v x → (∀ x ∈ nodesAll terms, x.isAlgebraic = true) →
    Represents position v b (readsAll terms) → (∀ x ∈ nodesAll terms, x.Proper b) →
    ∃ f z, sumFormula position acc terms = .ok f ∧ f.Worth v z ∧
      evaluateSum b (.real x) terms = .ok (.real z)
  | [], acc, x, hx, _, _, _ => ⟨acc, x, rfl, hx, rfl⟩
  | t :: r, acc, x, hx, ha, hk, hp => by
    simp only [nodesAll, List.forall_mem_append] at ha hp
    simp only [readsAll, Represents, List.forall_mem_append] at hk
    obtain ⟨f, y, hf, hy, ht⟩ := translates_of_proper ha.1 hk.1 hp.1
    obtain ⟨k, z, hk, hz, hr⟩ := translates_sum (hx.add hy) ha.2 hk.2 hp.2
    exact ⟨k, z, bind_eq_ok.2 ⟨f, hf, hk⟩, hz, bind_eq_ok.2 ⟨_, ht, hr⟩⟩

end

/-- Only algebraic expressions have formulas, and the first other node decides the error. A formula
has the value of its expression wherever all parts of that are real. -/
theorem formulas_of_nodes (position : Key → Except Error Nat) :
    (∀ (α : Type) [Scalar α] (e : Expr α),
      (e.HasFormula position → ∀ x ∈ e.nodes, x.isAlgebraic = true) ∧
      ∀ (before after : List (Expr α)) (x : Expr α), e.nodes = before ++ x :: after →
        x.isAlgebraic = false → (∀ y ∈ before, y.HasFormula position) →
        e.toFormula position = .error (.noFormula x.kindName) ∧
          (Error.noFormula x.kindName).kind = "TypeError") ∧
    ∀ (e : Expr Exact) (v : Nat → Except Error Exact) (b : Binding Exact),
      (∀ x ∈ e.nodes, x.isAlgebraic = true) → Represents position v b e.reads →
      (∀ x ∈ e.nodes, x.Proper b) → e.Translates position v b :=
  ⟨fun _ _ _ => ⟨HasFormula.isAlgebraic, fun _ _ _ h hx hb =>
      ⟨toFormula_of_first h hb (toFormula_of_not_algebraic hx), rfl⟩⟩,
    fun _ _ _ => translates_of_proper⟩

noncomputable def threeParts (x y : Key) : Expr Exact :=
  .sum [.binary .div (.ref x) (.ref y), .unary .neg (.binary .pow (.ref y) (.ref x)),
    .unary .log (.unary .sqrt (.binary .mul (.const (.real (4 : ℕ))) (.ref x)))]

noncomputable def hiddenBox (x y : Key) : Expr Exact :=
  .unary .exp (.sum [.ref y, .blackBox ⟨"first", fun xs => .ok (xs.headD 0), none, 0⟩ [x], .ref x])

theorem formulas_of_twoTrees : let x : Key := ⟨"x", []⟩; let y : Key := ⟨"y", []⟩
    let position : Key → Except Error Nat := fun k => .ok (if k == x then 0 else 1)
    let v : Nat → Except Error Exact := fun i => .ok (.real (if i == 0 then 3 else -2))
    let b : Binding Exact := fun k => .ok (.real (if k == x then 3 else -2))
    (threeParts x y).Translates position v b ∧
      (∀ n ∈ (threeParts x y).nodes, n.isAlgebraic = true) ∧
      (hiddenBox x y).toFormula position = .error (.noFormula "FunctionExpression") := by
  intro x y position v b
  have halgebraic : ∀ n ∈ (threeParts x y).nodes, n.isAlgebraic = true := by
    simp [threeParts, nodes, nodesAll, isAlgebraic]
  have hx : b x = .ok (.real 3) := congrArg (fun t => Except.ok (Exact.real t)) (if_pos BEq.rfl)
  have hy : b y = .ok (.real (-2)) :=
    congrArg (fun t => Except.ok (Exact.real t)) (if_neg (by decide))
  have hcube : Scalar.pow (Exact.real (-2)) (.real 3) = .real ((-2) ^ (3 : ℝ)) :=
    Exact.pow_eq_real.2 ⟨by norm_num, fun h => h.2 ⟨3, by norm_num⟩, rfl⟩
  have hkeys : Represents position v b (threeParts x y).reads := by
    intro k _
    refine ⟨if k == x then 0 else 1, if k == x then 3 else -2, rfl, ?_, rfl⟩
    cases k == x <;> simp [v]
  have hproper : ∀ n ∈ (threeParts x y).nodes, n.Proper b := by
    have hroot : Scalar.sqrt (Exact.real (4 * 3)) = .real √(4 * 3) := Exact.sqrt_real (by norm_num)
    simp [threeParts, nodes, nodesAll, Proper, BinaryOp.Proper, UnaryOp.Proper, evaluate, hx, hy,
      BinaryOp.apply, UnaryOp.apply, bind, Except.bind, pure, Except.pure, hcube, hroot]
  obtain ⟨hfirst, htranslates⟩ := formulas_of_nodes position
  have h := htranslates (threeParts x y) v b halgebraic hkeys hproper
  refine ⟨h, ?_, ?_⟩
  · obtain ⟨f, -, hf, -⟩ := h
    exact (hfirst Exact _).1 ⟨f, hf⟩
  · exact ((hfirst Exact (hiddenBox x y)).2 [.ref y] _ _ rfl rfl
      (List.forall_mem_singleton.2 ⟨_, rfl⟩)).1

end Expr

end Equilibria
