import Equilibria.Path.External
import Equilibria.Proofs.Calls
import Equilibria.Proofs.Components
import Equilibria.Proofs.Formulas

/-!
# Conditions ask what equations ask

The external program and the solvers that make equations of a problem are told the same. In exact
arithmetic the condition of a pair is met by just the values at which the equation of the pair is
zero, with one exception: a residual that is a number leaves only the truth of a comparison, unless
its variable has both bounds. No values meet such a condition, and it is never handed over.
-/

namespace Equilibria

open Fallible Calls

theorem Formula.Worth.unique {v : Nat → Except Error Exact} {f : Formula Exact} {x y : ℝ}
    (hx : f.Worth v x) (hy : f.Worth v y) : y = x := by
  cases hx.symm.trans hy
  rfl

namespace Path

/-! ## What a condition means -/

/-- A condition is met where its formulas have these values. -/
inductive Condition.Met (v : Nat → Except Error Exact) : Condition Exact → Prop
  | ranged {l u : Exact} {i : Nat} {f : Formula Exact} {x y : ℝ} (point : v i = .ok (.real x))
    (value : f.Worth v y) (solved : Complementary l u x y) : Met v ⟨.ranged l i u, .plain f⟩
  | inequalities {f₁ g₁ f₂ g₂ : Formula Exact} {a b c d : ℝ} (left₁ : f₁.Worth v a)
    (right₁ : g₁.Worth v b) (left₂ : f₂.Worth v c) (right₂ : g₂.Worth v d) (first : a ≤ b)
    (second : c ≤ d) (tight : a = b ∨ c = d) : Met v ⟨.atMost f₁ g₁, .atMost f₂ g₂⟩
  | equation {f g : Formula Exact} {i : Nat} {a b : ℝ} (left : f.Worth v a) (right : g.Worth v b)
    (holds : a = b) : Met v ⟨.equal f g, .plain (.variable i)⟩

variable {v : Nat → Except Error Exact} {f : Formula Exact} {place : Nat} {x y : ℝ}

theorem worth_zero : (Formula.number (0 : Exact)).Worth v 0 := by
  rw [Exact.zero_eq]
  exact Formula.worth_number 0

namespace Condition

theorem not_met_truth {r : Relation Exact} {b : Bool} : ¬ Met v ⟨r, .truth b⟩ := by
  intro h
  cases h

theorem not_met_truth_plain {b : Bool} : ¬ Met v ⟨.truth b, .plain f⟩ := by
  intro h
  cases h

theorem met_ranged_iff {l u : Exact} (hx : v place = .ok (.real x)) (hf : f.Worth v y) :
    Met v ⟨.ranged l place u, .plain f⟩ ↔ Complementary l u x y := by
  constructor
  · intro h
    cases h with
    | ranged point value solved =>
      cases hx.symm.trans point
      cases hf.unique value
      exact solved
  · exact .ranged hx hf

theorem met_inequalities_iff {f₁ g₁ f₂ g₂ : Formula Exact} {a b c d : ℝ} (h₁ : f₁.Worth v a)
    (h₂ : g₁.Worth v b) (h₃ : f₂.Worth v c) (h₄ : g₂.Worth v d) :
    Met v ⟨.atMost f₁ g₁, .atMost f₂ g₂⟩ ↔ a ≤ b ∧ c ≤ d ∧ (a = b ∨ c = d) := by
  constructor
  · intro h
    cases h with
    | inequalities left₁ right₁ left₂ right₂ first second tight =>
      cases h₁.unique left₁
      cases h₂.unique right₁
      cases h₃.unique left₂
      cases h₄.unique right₂
      exact ⟨first, second, tight⟩
  · rintro ⟨first, second, tight⟩
    exact .inequalities h₁ h₂ h₃ h₄ first second tight

theorem met_equation_iff (hf : f.Worth v y) :
    Met v ⟨.equal f (.number 0), .plain (.variable place)⟩ ↔ y = 0 := by
  constructor
  · intro h
    cases h with
    | equation left right holds =>
      rw [← hf.unique left, holds, worth_zero.unique right]
  · exact .equation hf worth_zero

end Condition

/-! ## The condition of a pair -/

def IsNumber (f : Formula Exact) : Prop := ∃ a, f = .number a

namespace Relation

theorem notNegative_eq (hf : f.Worth v y) (hn : ¬ IsNumber f) :
    notNegative f = .ok (.atMost (.number 0) f) := by
  cases f with
  | number a => exact absurd ⟨a, rfl⟩ hn
  | complex => cases hf
  | _ => rfl

theorem notPositive_eq (hf : f.Worth v y) (hn : ¬ IsNumber f) :
    notPositive f = .ok (.atMost f (.number 0)) := by
  cases f with
  | number a => exact absurd ⟨a, rfl⟩ hn
  | complex => cases hf
  | _ => rfl

theorem zero_eq (hf : f.Worth v y) (hn : ¬ IsNumber f) : zero f = .equal f (.number 0) := by
  cases f with
  | number a => exact absurd ⟨a, rfl⟩ hn
  | complex => cases hf
  | _ => rfl

end Relation

namespace Condition

/-- What a condition asks for is that the equation with the value `φ` is met. -/
structure Asks (c : Condition Exact) (v : Nat → Except Error Exact) (l u : Exact)
    (f : Formula Exact) (φ : ℝ) : Prop where
  accepted : c.isAccepted = true ↔ ¬ (IsNumber f ∧ Side.of l u ≠ .boxed)
  met : c.Met v ↔ c.isAccepted = true ∧ φ = 0

theorem Asks.of_met {c : Condition Exact} {l u : Exact} {φ : ℝ} (ha : c.isAccepted = true)
    (hn : ¬ (IsNumber f ∧ Side.of l u ≠ .boxed)) (h : c.Met v ↔ φ = 0) : c.Asks v l u f φ :=
  ⟨iff_of_true ha hn, h.trans (and_iff_right ha).symm⟩

theorem Asks.of_number {c : Condition Exact} {l u : Exact} {φ : ℝ} (ha : c.isAccepted ≠ true)
    (hm : ¬ c.Met v) (hn : IsNumber f) (hs : Side.of l u ≠ .boxed) : c.Asks v l u f φ :=
  ⟨iff_of_false ha fun h => h ⟨hn, hs⟩, iff_of_false hm fun h => ha h.1⟩

variable {c : Condition Exact}

theorem asks_boxed {a b : ℝ} (hab : a ≤ b) (hx : v place = .ok (.real x)) (hf : f.Worth v y) :
    Asks ⟨.ranged (.real a) place (.real b), .plain f⟩ v (.real a) (.real b) f
      (equation (.real a) (.real b) x y) := by
  refine .of_met rfl (fun h => h.2 rfl) ?_
  rw [met_ranged_iff hx hf, equation_eq_zero_iff, natural_eq_zero_iff (.boxed hab)]

theorem asks_lowerOnly {a : ℝ} (h : ofPair place (.real a) (.infinite false) f = .ok c)
    (hx : v place = .ok (.real x)) (hf : f.Worth v y) :
    c.Asks v (.real a) (.infinite false) f (equation (.real a) (.infinite false) x y) := by
  obtain ⟨r, hr, h⟩ := bind_eq_ok.1 h
  cases h
  by_cases hn : IsNumber f
  · obtain ⟨z, rfl⟩ := hn
    cases hr
    exact .of_number Bool.false_ne_true not_met_truth ⟨z, rfl⟩
      (show Side.lowerOnly ≠ .boxed by decide)
  · cases (Relation.notNegative_eq hf hn).symm.trans hr
    refine .of_met rfl (fun h => hn h.1) ?_
    rw [met_inequalities_iff (Formula.worth_number a) (Formula.worth_variable hx) worth_zero hf,
      equation_eq_zero_iff]
    change _ ↔ min (x - a) y = 0
    rw [min_eq_zero_iff, sub_nonneg, sub_eq_zero, eq_comm (a := a), eq_comm (a := 0)]

theorem asks_upperOnly {b : ℝ} (h : ofPair place (.infinite true) (.real b) f = .ok c)
    (hx : v place = .ok (.real x)) (hf : f.Worth v y) :
    c.Asks v (.infinite true) (.real b) f (equation (.infinite true) (.real b) x y) := by
  obtain ⟨r, hr, h⟩ := bind_eq_ok.1 h
  cases h
  by_cases hn : IsNumber f
  · obtain ⟨z, rfl⟩ := hn
    cases hr
    exact .of_number Bool.false_ne_true not_met_truth ⟨z, rfl⟩
      (show Side.upperOnly ≠ .boxed by decide)
  · cases (Relation.notPositive_eq hf hn).symm.trans hr
    refine .of_met rfl (fun h => hn h.1) ?_
    rw [met_inequalities_iff (Formula.worth_variable hx) (Formula.worth_number b) hf worth_zero,
      equation_eq_zero_iff]
    change _ ↔ max (x - b) y = 0
    rw [max_eq_zero_iff, sub_nonpos, sub_eq_zero]

theorem asks_free (h : ofPair place (.infinite true) (.infinite false) f = .ok c)
    (hf : f.Worth v y) :
    c.Asks v (.infinite true) (.infinite false) f
      (equation (.infinite true) (.infinite false) x y) := by
  cases h
  by_cases hn : IsNumber f
  · obtain ⟨z, rfl⟩ := hn
    exact .of_number Bool.false_ne_true not_met_truth_plain ⟨z, rfl⟩
      (show Side.free ≠ .boxed by decide)
  · rw [Relation.zero_eq hf hn]
    exact .of_met rfl (fun h => hn h.1) (met_equation_iff hf)

theorem asks_of_ofPair {l u : Exact} (hb : Ordered l u) (h : ofPair place l u f = .ok c)
    (hx : v place = .ok (.real x)) (hf : f.Worth v y) : c.Asks v l u f (equation l u x y) := by
  have hle := hb.le
  obtain ⟨⟨a, rfl⟩ | rfl, ⟨b, rfl⟩ | rfl⟩ := hb.cases
  · cases h
    exact asks_boxed hle hx hf
  · exact asks_lowerOnly h hx hf
  · exact asks_upperOnly h hx hf
  · exact asks_free h hf

theorem exists_ofPair (place : Nat) (l u : Exact) (hf : f ≠ .complex) :
    ∃ c, ofPair place l u f = .ok c := by
  have hn : ∃ r, Relation.notNegative f = .ok r := by
    cases f with
    | complex => exact absurd rfl hf
    | _ => exact ⟨_, rfl⟩
  have hp : ∃ r, Relation.notPositive f = .ok r := by
    cases f with
    | complex => exact absurd rfl hf
    | _ => exact ⟨_, rfl⟩
  obtain ⟨r, hr⟩ := hn
  obtain ⟨r', hr'⟩ := hp
  unfold ofPair
  cases Side.of l u with
  | free => exact ⟨_, rfl⟩
  | lowerOnly => exact ⟨_, bind_eq_ok.2 ⟨r, hr, rfl⟩⟩
  | upperOnly => exact ⟨_, bind_eq_ok.2 ⟨r', hr', rfl⟩⟩
  | boxed => exact ⟨_, rfl⟩

end Condition

/-! ## Problems -/

section

variable {σ : Type} {p : Problem σ Exact} {cs : List (Condition Exact)}

/-- The place of a key, the last one if there are several. -/
def placeOf (p : Problem σ Exact) (k : Key) : Except Error Nat :=
  if !k.isFixed then .error .wrongType
  else
    match p.vars.zipIdx.reverse.find? (·.1 == k) with
    | some e => .ok e.2
    | none => .error (.unbound k)

theorem conditions_eq (p : Problem σ Exact) : conditions p = (do
    if p.vars.length != p.size || p.residuals.length != p.size then throw .componentsMissing
    let formulas ← p.residuals.mapM fun e => e.toFormula (placeOf p)
    (formulas.zip (p.lower.zip p.upper)).zipIdx.mapM fun ((f, l, u), i) =>
      Condition.ofPair i l u f) := rfl

/-- The condition at a place is that of its bounds and formula. -/
structure Stated (p : Problem σ Exact) (i : Nat) (c : Condition Exact) (l u : Exact)
    (f : Formula Exact) : Prop where
  lower : p.lower[i]? = some l
  upper : p.upper[i]? = some u
  residual : ∃ e, p.residuals[i]? = some e ∧ e.toFormula (placeOf p) = .ok f
  condition : Condition.ofPair i l u f = .ok c

theorem exists_conditions (hv : p.vars.length = p.size) (hr : p.residuals.length = p.size)
    (hf : ∀ e ∈ p.residuals, ∃ f, e.toFormula (placeOf p) = .ok f ∧ f ≠ .complex) :
    ∃ cs, conditions p = .ok cs := by
  obtain ⟨formulas, hm⟩ := mapM_ok_of_forall fun e he => (hf e he).imp fun f h => h.1
  have hnot : ∀ f ∈ formulas, f ≠ .complex := by
    intro f hfm
    obtain ⟨e, he, heq⟩ := mem_of_mapM hm hfm
    obtain ⟨g, hg, hne⟩ := hf e he
    cases heq.symm.trans hg
    exact hne
  have hsizes : (p.vars.length != p.size || p.residuals.length != p.size) = false := by
    simp [hv, hr]
  rw [conditions_eq, hsizes]
  refine (mapM_ok_of_forall ?_).imp fun cs hcs => bind_eq_ok.2 ⟨formulas, hm, hcs⟩
  rintro ⟨⟨f, l, u⟩, i⟩ hmem
  have hz : (f, l, u) ∈ formulas.zip (p.lower.zip p.upper) := List.fst_mem_of_mem_zipIdx hmem
  exact Condition.exists_ofPair i l u (hnot f (List.of_mem_zip hz).1)

theorem length_conditions (h : conditions p = .ok cs) (hr : p.residuals.length = p.size)
    (hl : p.lower.length = p.size) (hu : p.upper.length = p.size) : cs.length = p.size := by
  rw [conditions_eq] at h
  split at h
  · cases h
  obtain ⟨formulas, hf, h⟩ := bind_eq_ok.1 h
  simp [length_of_mapM h, length_of_mapM hf, hl, hu, hr]

theorem stated_of_conditions (h : conditions p = .ok cs) {i : Nat} {c : Condition Exact}
    (hc : cs[i]? = some c) : ∃ l u f, Stated p i c l u f := by
  rw [conditions_eq] at h
  split at h
  · cases h
  obtain ⟨formulas, hf, h⟩ := bind_eq_ok.1 h
  obtain ⟨⟨⟨f, l, u⟩, j⟩, hj, hp⟩ := getElem?_of_mapM_right h hc
  rw [List.getElem?_zipIdx, Option.map_eq_some_iff] at hj
  obtain ⟨_, hz, he⟩ := hj
  cases he
  rw [Nat.zero_add] at hp
  obtain ⟨hfi, hlu⟩ := List.getElem?_zip_eq_some.1 hz
  obtain ⟨hli, hui⟩ := List.getElem?_zip_eq_some.1 hlu
  exact ⟨l, u, f, hli, hui, getElem?_of_mapM_right hf hfi, hp⟩

theorem row_of_rows {xs fs : List ℝ} {i : Nat} {l u : Exact} {x y : ℝ}
    (hl : p.lower[i]? = some l) (hu : p.upper[i]? = some u) (hx : xs[i]? = some x)
    (hy : fs[i]? = some y) :
    (List.zipWith (fun (l, u) (x, f) => boxRow l u x f) (p.lower.zip p.upper)
      ((xs.map Exact.real).zip (fs.map .real)))[i]? = some (boxRow l u (.real x) (.real y)) := by
  have hbounds : (p.lower.zip p.upper)[i]? = some (l, u) := List.getElem?_zip_eq_some.2 ⟨hl, hu⟩
  have hpoint : ((xs.map Exact.real).zip (fs.map Exact.real))[i]? = some (.real x, .real y) :=
    List.getElem?_zip_eq_some.2 ⟨by simp [hx], by simp [hy]⟩
  exact List.getElem?_zipWith_eq_some.2 ⟨_, _, hbounds, hpoint, rfl⟩

/-- A problem whose residuals have formulas has a condition for each component. It is met just if it
is accepted and the equation is zero, and refused only if it compares two numbers. -/
theorem conditions_ask_equations (hv : p.vars.length = p.size) (hr : p.residuals.length = p.size)
    (hl : p.lower.length = p.size) (hu : p.upper.length = p.size)
    (hb : ∀ (i : Nat) (l u : Exact), p.lower[i]? = some l → p.upper[i]? = some u → Ordered l u)
    (hf : ∀ e ∈ p.residuals, ∃ f, e.toFormula (placeOf p) = .ok f ∧ f ≠ .complex) :
    ∃ cs, conditions p = .ok cs ∧ cs.length = p.size ∧
      ∀ xs fs : List ℝ, xs.length = p.size → fs.length = p.size →
        ∃ rows, p.box.rows (xs.map .real) (fs.map .real) = .ok rows ∧
          ∀ (i : Nat) (c : Condition Exact) (x y : ℝ), cs[i]? = some c → xs[i]? = some x →
            fs[i]? = some y →
            ∃ l u f r, Stated p i c l u f ∧ rows[i]? = some r ∧ r.value = .real (equation l u x y) ∧
              ∀ v : Nat → Except Error Exact, v i = .ok (.real x) → f.Worth v y →
                c.Asks v l u f (equation l u x y) := by
  obtain ⟨cs, hcs⟩ := exists_conditions hv hr hf
  refine ⟨cs, hcs, length_conditions hcs hr hl hu, fun xs fs hxs hfs => ?_⟩
  have hlx : p.box.lower.length = (xs.map Exact.real).length := by
    rw [List.length_map, hxs]
    exact hl
  have hux : p.box.upper.length = (xs.map Exact.real).length := by
    rw [List.length_map, hxs]
    exact hu
  refine ⟨_, Box.rows_eq_ok hlx hux, fun i c x y hc hx hy => ?_⟩
  obtain ⟨l, u, f, hs⟩ := stated_of_conditions hcs hc
  refine ⟨l, u, f, boxRow l u (.real x) (.real y), hs, row_of_rows hs.lower hs.upper hx hy,
    boxRow_real l u x y, fun v hvi hw => ?_⟩
  exact Condition.asks_of_ofPair (hb i l u hs.lower hs.upper) hs.condition hvi hw

theorem solve_refused {α : Type} [Scalar α] {p : Problem σ α} {cs : List (Condition α)}
    {c : Condition α} (hsize : p.size ≠ 0) (hcs : conditions p = .ok cs) (hc : c ∈ cs)
    (ha : c.isAccepted = false) (e : External α) (o : Options) (t : Trace σ α) :
    solve e p o t = (.error .openCondition, t) := by
  have hempty : (p.size == 0) = false := beq_false_of_ne hsize
  have hall : cs.all Condition.isAccepted = false := by
    rw [List.all_eq_false]
    exact ⟨c, hc, ne_true_of_eq_false ha⟩
  unfold solve
  rw [hempty, if_neg Bool.false_ne_true, bind_apply, lift_apply, hcs]
  simp only [hall]
  rfl

end

def twoPairs : Problem Unit Exact where
  lower := [.real 0, .real 1]
  upper := [.infinite false, .real 1]
  start := [.real 0, .real 1]
  value x := pure (.vector x.reverse)
  jacobian _ := pure (.dense [[.real 0, .real 1], [.real 1, .real 0]])
  vars := [⟨"x", []⟩, ⟨"y", []⟩]
  residuals := [.ref ⟨"y", []⟩, .ref ⟨"x", []⟩]

theorem ordered_twoPairs (i : Nat) (l u : Exact) (hl : twoPairs.lower[i]? = some l)
    (hu : twoPairs.upper[i]? = some u) : Ordered l u := by
  match i with
  | 0 =>
    cases hl
    cases hu
    exact .lowerOnly 0
  | 1 =>
    cases hl
    cases hu
    exact .boxed le_rfl
  | i + 2 => cases hl

/-- At two the first function has to be zero, and the second may be anything. -/
theorem twoPairs_second_met : ∃ c₀ c₁, conditions twoPairs = .ok [c₀, c₁] ∧
    ∀ v : Nat → Except Error Exact, v 0 = .ok (.real 2) → v 1 = .ok (.real 1) →
      ¬ c₀.Met v ∧ c₁.Met v := by
  have hcs : conditions twoPairs = .ok
      [⟨.atMost (.number (.real 0)) (.variable 0), .atMost (.number 0) (.variable 1)⟩,
        ⟨.ranged (.real 1) 1 (.real 1), .plain (.variable 0)⟩] := rfl
  have hformulas : ∀ e ∈ twoPairs.residuals,
      ∃ f, e.toFormula (placeOf twoPairs) = .ok f ∧ f ≠ .complex := by
    rintro e (_ | ⟨_, _ | ⟨_, he⟩⟩)
    · exact ⟨.variable 1, rfl, nofun⟩
    · exact ⟨.variable 0, rfl, nofun⟩
    · cases he
  obtain ⟨cs, h, -, hask⟩ := conditions_ask_equations (p := twoPairs) rfl rfl rfl rfl
    ordered_twoPairs hformulas
  cases hcs.symm.trans h
  obtain ⟨rows, -, hask⟩ := hask [2, 1] [1, 2] rfl rfl
  refine ⟨_, _, hcs, fun v h₀ h₁ => ⟨fun hmet => ?_, ?_⟩⟩
  · obtain ⟨l, u, f, r, hs, -, -, hask⟩ := hask 0 _ 2 1 rfl rfl rfl
    cases hs.lower
    cases hs.upper
    obtain ⟨e, he, hf⟩ := hs.residual
    cases he
    cases hf
    have hzero := ((hask v h₀ (Formula.worth_variable h₁)).met.1 hmet).2
    have hin := ((measures_equation (.lowerOnly 0) 2 1).zero.1 hzero).inside
      (Exact.lt_real.2 two_pos) rfl
    exact one_ne_zero hin
  · obtain ⟨l, u, f, r, hs, -, -, hask⟩ := hask 1 _ 1 2 rfl rfl rfl
    cases hs.lower
    cases hs.upper
    obtain ⟨e, he, hf⟩ := hs.residual
    cases he
    cases hf
    have hzero := (measures_equation (.boxed le_rfl) 1 2).fixed rfl rfl
    exact (hask v h₁ (Formula.worth_variable h₀)).met.2 ⟨rfl, hzero⟩

/-- One variable with an upper bound against a number. -/
def numberPair : Problem Unit Exact where
  lower := [.infinite true]
  upper := [.real 1]
  start := [.real 0]
  value _ := pure (.vector [.real (-1)])
  jacobian _ := pure (.dense [[.real 0]])
  vars := [⟨"x", []⟩]
  residuals := [.const (.real (-1))]

/-- At its bound the variable meets the equation, but no values meet the condition, and the problem
is refused. -/
theorem numberPair_refused : Ordered (.infinite true) (.real 1) ∧
    ∃ c, conditions numberPair = .ok [c] ∧
      Stated numberPair 0 c (.infinite true) (.real 1) (.number (.real (-1))) ∧
      (∀ v, ¬ c.Met v) ∧
      (∃ r, numberPair.box.rows [.real 1] [.real (-1)] = .ok [r] ∧ r.value = .real 0) ∧
      ∀ e o t, solve e numberPair o t = (.error .openCondition, t) := by
  have hcs : conditions numberPair = .ok
      [⟨.atMost (.variable 0) (.number (.real 1)), .truth (decide (Exact.real (-1) ≤ 0))⟩] := rfl
  -- The truth value stays as it is: no condition that has one is met, be it true or false.
  refine ⟨.upperOnly 1, _, hcs, ⟨rfl, rfl, ⟨_, rfl, rfl⟩, rfl⟩, fun v => Condition.not_met_truth,
    ⟨_, rfl, ?_⟩, solve_refused (by decide) hcs List.mem_cons_self rfl⟩
  have hzero : equation (.infinite true) (.real 1) 1 (-1) = 0 := by
    rw [equation_eq_zero_iff]
    change max (1 - 1 : ℝ) (-1) = 0
    norm_num
  rw [← hzero]
  exact boxRow_real ..

end Path

end Equilibria
