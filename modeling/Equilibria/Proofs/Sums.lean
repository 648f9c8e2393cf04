import Equilibria.Proofs.Products
import Equilibria.Proofs.Slopes
import Equilibria.Proofs.Sparsity

/-!
# What sums stand for

Terms are added up one after the other with plus signs, in one node, or by a rule over a product of
domains. In exact arithmetic all of these have the values and the partial derivatives of the sum, and
so have linear combinations without the terms that they leave out.
-/

namespace Equilibria

open Fallible

/-! ## Adding up -/

namespace Exact

theorem add_assoc_eq (x y z : Exact) : x + y + z = x + (y + z) := by
  change add (add x y) z = add x (add y z)
  rcases x with x | a | _ <;> rcases y with y | b | _ <;> rcases z with z | c | _ <;>
    simp only [add, add_assoc]
  all_goals grind [add]

/-- The sum of numbers, or the first reason why one of them is missing. -/
noncomputable def total : List (Except Error Exact) → Except Error Exact
  | [] => .ok 0
  | x :: r => do
    let a ← x
    let s ← total r
    return a + s

theorem total_append (xs ys : List (Except Error Exact)) : total (xs ++ ys) = do
    let s ← total xs
    let t ← total ys
    return s + t := by
  induction xs with
  | nil =>
    simp only [List.nil_append, total, bind, Except.bind]
    cases total ys with
    | error e => rfl
    | ok t => exact congrArg Except.ok (zero_add_eq t).symm
  | cons x r ih =>
    rw [List.cons_append, total, total, ih]
    cases x with
    | error e => rfl
    | ok a =>
      cases total r with
      | error e => rfl
      | ok s =>
        cases total ys with
        | error e => rfl
        | ok t => exact congrArg Except.ok (add_assoc_eq a s t).symm

theorem total_singleton (x : Except Error Exact) : total [x] = x := by
  cases x with
  | error e => rfl
  | ok a => exact congrArg Except.ok (add_zero_eq a)

theorem total_concat (xs : List (Except Error Exact)) (y : Except Error Exact) :
    total (xs ++ [y]) = do
      let s ← total xs
      let a ← y
      return s + a := by
  rw [total_append, total_singleton]

theorem total_real {β : Type} (g : β → ℝ) (xs : List β) :
    total (xs.map fun x => .ok (real (g x))) = .ok (real (xs.map g).sum) := by
  induction xs with
  | nil => exact congrArg Except.ok zero_eq
  | cons x r ih =>
    rw [List.map_cons, total, ih]
    rfl

theorem sum_filter {β : Type} {g : β → ℝ} {q : β → Bool} {xs : List β}
    (h : ∀ x ∈ xs, q x = false → g x = 0) : ((xs.filter q).map g).sum = (xs.map g).sum := by
  induction xs with
  | nil => rfl
  | cons x r ih =>
    have ih := ih fun y hy => h y (List.mem_cons_of_mem _ hy)
    rw [List.filter_cons, List.map_cons, List.sum_cons]
    split
    · rw [List.map_cons, List.sum_cons, ih]
    · rename_i hq
      rw [ih, h x List.mem_cons_self (by simpa using hq), zero_add]

theorem total_filter {β : Type} {f : β → Except Error Exact} {g : β → ℝ} {q : β → Bool}
    {xs : List β} (hf : ∀ x ∈ xs, f x = .ok (real (g x))) (hg : ∀ x ∈ xs, q x = false → g x = 0) :
    total ((xs.filter q).map f) = .ok (real (xs.map g).sum) := by
  have hkept : (xs.filter q).map f = (xs.filter q).map fun x => .ok (real (g x)) :=
    List.map_congr_left fun x hx => hf x (List.mem_of_mem_filter hx)
  rw [hkept, total_real, sum_filter hg]

theorem total_zeros {β : Type} {f : β → Except Error Exact} {xs : List β}
    (h : ∀ x ∈ xs, f x = .ok 0) : total (xs.map f) = .ok 0 := by
  induction xs with
  | nil => rfl
  | cons x r ih =>
    rw [List.map_cons, total, h x List.mem_cons_self,
      ih fun y hy => h y (List.mem_cons_of_mem _ hy)]
    exact congrArg Except.ok (zero_add_eq 0)

/-- The sum over the first domain of the sums over the others. -/
noncomputable def nested {β : Type} : List (List β) → (List β → Except Error Exact) →
    Except Error Exact
  | [], f => f []
  | d :: ds, f => total (d.map fun x => nested ds fun t => f (x :: t))

theorem total_product {β : Type} (ds : List (List β)) (f : List β → Except Error Exact) :
    total ((product ds).map f) = nested ds f := by
  induction ds generalizing f with
  | nil => exact total_singleton _
  | cons d ds ih =>
    rw [nested, product]
    simp only [← ih]
    induction d with
    | nil => rfl
    | cons x r ihd =>
      rw [List.flatMap_cons, List.map_append, total_append, ihd, List.map_cons, total, List.map_map]
      rfl

end Exact

/-! ## Sums of expressions -/

namespace Expr

variable {b : Binding Exact} {k : Key}

theorem mentions_sum (terms : List (Expr Exact)) :
    (sum terms).mentions k = terms.any (·.mentions k) := by
  have h : ∀ terms : List (Expr Exact),
      (readsAll terms).contains k = terms.any (·.mentions k) := by
    intro terms
    induction terms with
    | nil => rfl
    | cons t r ih => rw [readsAll, List.contains_append, ih, List.any_cons, mentions]
  exact h terms

theorem derivative_add {l r : Expr Exact} (hl : l.isForeign = false) (hr : r.isForeign = false) :
    (binary .add l r).derivative k b = do
      let dx ← l.derivative k b
      let dy ← r.derivative k b
      return dx + dy := by
  cases hk : (binary .add l r).mentions k with
  | true =>
    rw [derivative, hk]
    rfl
  | false =>
    have hk' := hk
    rw [mentions_binary, Bool.or_eq_false_iff] at hk'
    rw [derivative_of_not_mentions rfl hk, derivative_of_not_mentions hl hk'.1,
      derivative_of_not_mentions hr hk'.2]
    exact congrArg Except.ok (Exact.zero_add_eq 0).symm

theorem evaluateSum_eq (terms : List (Expr Exact)) (acc : Exact) :
    evaluateSum b acc terms = (acc + ·) <$> Exact.total (terms.map (·.evaluate b)) := by
  induction terms generalizing acc with
  | nil => exact congrArg Except.ok (Exact.add_zero_eq acc).symm
  | cons t r ih =>
    rw [evaluateSum, List.map_cons, Exact.total]
    cases t.evaluate b with
    | error e => rfl
    | ok x =>
      refine (ih (acc + x)).trans ?_
      cases Exact.total (r.map (·.evaluate b)) with
      | error e => rfl
      | ok s => exact congrArg Except.ok (Exact.add_assoc_eq acc x s)

theorem derivativeSum_eq {terms : List (Expr Exact)} (h : ∀ t ∈ terms, t.isForeign = false)
    (acc : Exact) :
    derivativeSum k b acc terms = (acc + ·) <$> Exact.total (terms.map (·.derivative k b)) := by
  induction terms generalizing acc with
  | nil => exact congrArg Except.ok (Exact.add_zero_eq acc).symm
  | cons t r ih =>
    have ih := ih fun u hu => h u (List.mem_cons_of_mem _ hu)
    rw [derivativeSum, List.map_cons, Exact.total]
    split
    · cases t.derivative k b with
      | error e => rfl
      | ok x =>
        refine (ih (acc + x)).trans ?_
        cases Exact.total (r.map (·.derivative k b)) with
        | error e => rfl
        | ok s => exact congrArg Except.ok (Exact.add_assoc_eq acc x s)
    · rename_i hk
      rw [derivative_of_not_mentions (h t List.mem_cons_self) (by simpa using hk), ih]
      cases Exact.total (r.map (·.derivative k b)) with
      | error e => rfl
      | ok s => exact congrArg (fun s => Except.ok (acc + s)) (Exact.zero_add_eq s).symm

/-- An expression has the values and the partial derivatives of the sum of the terms. -/
structure Sums (e : Expr Exact) (terms : List (Expr Exact)) : Prop where
  value : ∀ b : Binding Exact, e.evaluate b = Exact.total (terms.map (·.evaluate b))
  slope : ∀ (b : Binding Exact) (k : Key),
    e.derivative k b = Exact.total (terms.map (·.derivative k b))

theorem sums_self (e : Expr Exact) : e.Sums [e] :=
  ⟨fun _ => (Exact.total_singleton _).symm, fun _ _ => (Exact.total_singleton _).symm⟩

theorem sums_sum {terms : List (Expr Exact)} (h : ∀ t ∈ terms, t.isForeign = false) :
    (sum terms).Sums terms := by
  refine ⟨fun b => ?_, fun b k => ?_⟩
  · rw [evaluate, evaluateSum_eq]
    cases Exact.total (terms.map (·.evaluate b)) with
    | error e => rfl
    | ok s => exact congrArg Except.ok (Exact.zero_add_eq s)
  · cases hk : (sum terms).mentions k with
    | true =>
      have hsum : (sum terms).derivative k b = derivativeSum k b 0 terms := by
        rw [derivative, hk]
        rfl
      rw [hsum, derivativeSum_eq h]
      cases Exact.total (terms.map (·.derivative k b)) with
      | error e => rfl
      | ok s => exact congrArg Except.ok (Exact.zero_add_eq s)
    | false =>
      have hterms : ∀ t ∈ terms, t.mentions k = false := by
        rw [mentions_sum, List.any_eq_false] at hk
        simpa using hk
      rw [derivative_of_not_mentions rfl hk,
        Exact.total_zeros fun t ht => derivative_of_not_mentions (h t ht) (hterms t ht)]

theorem quickSum_sums {terms : List (Operand Exact)} {exprs : List (Expr Exact)}
    (hexprs : terms.mapM Operand.toExpr = .ok exprs) (h : ∀ e ∈ exprs, e.isForeign = false) :
    ∃ q, quickSum terms = .ok q ∧ q.Sums exprs :=
  ⟨.sum exprs, by rw [quickSum, hexprs]; rfl, sums_sum h⟩

theorem Sums.add {e t : Expr Exact} {terms : List (Expr Exact)} (h : e.Sums terms)
    (he : e.isForeign = false) (ht : t.isForeign = false) :
    (binary .add e t).Sums (terms ++ [t]) := by
  refine ⟨fun b => ?_, fun b k => ?_⟩
  · rw [evaluate, h.value, List.map_append, List.map_singleton, Exact.total_concat]
    rfl
  · rw [derivative_add he ht, h.slope, List.map_append, List.map_singleton, Exact.total_concat]

theorem Sums.of_consts {x y : Exact} {terms : List (Expr Exact)}
    (h : (binary .add (const x) (const y)).Sums terms) : (const (x + y)).Sums terms := by
  refine ⟨h.value, fun b k => ?_⟩
  rw [← h.slope, derivative_of_not_mentions rfl rfl, derivative_of_not_mentions rfl rfl]

theorem Sums.of_zero {terms : List (Expr Exact)} (h : (const 0).Sums terms) (t : Expr Exact) :
    t.Sums (terms ++ [t]) := by
  refine ⟨fun b => ?_, fun b k => ?_⟩
  · rw [List.map_append, List.map_singleton, Exact.total_concat, ← h.value, evaluate]
    cases t.evaluate b with
    | error e => rfl
    | ok x => exact congrArg Except.ok (Exact.zero_add_eq x).symm
  · rw [List.map_append, List.map_singleton, Exact.total_concat, ← h.slope,
      derivative_of_not_mentions (e := const 0) rfl rfl]
    cases t.derivative k b with
    | error e => rfl
    | ok x => exact congrArg Except.ok (Exact.zero_add_eq x).symm

end Expr

/-! ## Plain zeros -/

theorem Mark.ofFloat_eq_zero {x : Float} :
    ofFloat x = ofInt 0 ↔ (Scalar.ofFloat x : Exact) = .real 0 := by
  have hzero : ofInt 0 = .number 0 0 := rfl
  rw [Exact.ofFloat_eq, ofFloat, hzero]
  cases Decimal.Binary.ofFloat x with
  | nan | infinite => simp [Exact.ofBinary]
  | finite negative m e =>
    by_cases hm : m = 0
    · simp [hm, Exact.ofBinary]
    · obtain ⟨k, -, hodd⟩ := Decimal.Binary.oddPart_value m.log2 m e
      have hpart : (Decimal.Binary.oddPart m.log2 m e).1 ≠ 0 := by
        intro h
        rw [h, Nat.zero_mul] at hodd
        exact hm hodd.symm
      have hpow : (2 : ℝ) ^ e ≠ 0 := zpow_ne_zero e two_ne_zero
      cases negative <;> simp [hm, hpart, hpow, Exact.ofBinary]

theorem Exact.ofFloat_zero : (Scalar.ofFloat 0.0 : Exact) = 0 := by
  rw [zero_eq, ofFloat_eq,
    show Decimal.Binary.ofFloat 0.0 = .finite false 0 (-1074) by decide +kernel]
  simp [ofBinary]

theorem Value.double_of_isZero {v : Value} (h : v.isZero = true) :
    ∃ x, v.toDouble = .ok x ∧ (Scalar.ofFloat x : Exact) = .real 0 := by
  have hzero := Exact.ofFloat_zero.trans Exact.zero_eq
  have hform : v.form = [.ofInt 0] := Value.beq_iff.1 h
  cases v with
  | bool b =>
    cases b with
    | true => exact absurd hform (by decide)
    | false => exact ⟨0.0, rfl, hzero⟩
  | int n =>
    have hn : n = 0 := Mark.ofInt_inj (List.cons.inj hform).1
    rw [hn]
    exact ⟨0.0, by rfl, hzero⟩
  | float x => exact ⟨x, rfl, Mark.ofFloat_eq_zero.1 (List.cons.inj hform).1⟩
  | _ => cases hform

/-! ## Operands -/

namespace Operand

variable {α : Type} [Scalar α]

/-- The operand can be used as an expression of the sum of the terms. -/
def Denotes (a : Operand Exact) (terms : List (Expr Exact)) : Prop :=
  ∃ e, a.toExpr = .ok e ∧ e.isForeign = false ∧ e.Sums terms

structure AddsExactly (v w s : Value) : Prop where
  sum : Value.arithmetic .add v w = .ok s
  exact : ∃ x y : Exact, (plain v).toExpr = .ok (.const x) ∧ (plain w).toExpr = .ok (.const y) ∧
    (plain s).toExpr = .ok (.const (x + y))

/-- Plain numbers are added to a plain number without rounding, as long as no expression comes. -/
def Unrounded : Operand Exact → List (Operand Exact) → Prop
  | .plain v, .plain w :: rest => ∃ s, AddsExactly v w s ∧ Unrounded (.plain s) rest
  | _, _ => True

theorem toExpr_of_isZero {v : Value} (hn : v.isNumber = true) (hz : v.isZero = true) :
    (plain v : Operand Exact).toExpr = .ok (.const 0) := by
  obtain ⟨x, hx, hzero⟩ := Value.double_of_isZero hz
  rw [toExpr, hn, hx, Exact.zero_eq, ← hzero]
  rfl

theorem unrounded_expr (e : Expr Exact) (rest : List (Operand Exact)) :
    Unrounded (.expr e) rest := by
  cases rest <;> trivial

theorem combine_expr_left {e u : Expr Exact} {t : Operand Exact} (ht : t.toExpr = .ok u) :
    combine .add (.expr e) t = .ok (.expr (.binary .add e u)) := by
  rw [combine, node, ht]
  rfl

theorem Denotes.step {a t : Operand Exact} {terms : List (Expr Exact)} {u : Expr Exact}
    (ha : a.Denotes terms) (ht : t.toExpr = .ok u) (hu : u.isForeign = false)
    {rest : List (Operand Exact)} (hexact : Unrounded a (t :: rest)) :
    ∃ r, combine .add a t = .ok r ∧ r.Denotes (terms ++ [u]) ∧ Unrounded r rest := by
  obtain ⟨e, hae, hforeign, hsums⟩ := ha
  have hadd := hsums.add hforeign hu
  cases a with
  | evaluator | other => cases hae
  | expr e' =>
    cases hae
    exact ⟨_, combine_expr_left ht, ⟨_, rfl, rfl, hadd⟩, unrounded_expr _ rest⟩
  | plain v =>
    cases t with
    | evaluator | other => cases ht
    | plain w =>
      obtain ⟨s, ⟨hs, x, y, hx, hy, hxy⟩, hrest⟩ := hexact
      cases hae.symm.trans hx
      cases ht.symm.trans hy
      refine ⟨.plain s, by rw [combine, hs]; rfl, ⟨_, hxy, rfl, hadd.of_consts⟩, hrest⟩
    | expr e' =>
      cases ht
      cases hzero : (plain v : Operand Exact).isPlainZero with
      | true =>
        refine ⟨.expr u, by simp only [combine, hzero]; rfl, ⟨u, rfl, hu, ?_⟩,
          unrounded_expr u rest⟩
        rw [isPlainZero, Bool.and_eq_true] at hzero
        rw [toExpr_of_isZero hzero.1 hzero.2] at hae
        cases hae
        exact hsums.of_zero u
      | false =>
        refine ⟨.expr (.binary .add e u), ?_, ⟨_, rfl, rfl, hadd⟩, unrounded_expr _ rest⟩
        simp only [combine, hzero, node, hae]
        rfl

theorem Denotes.all {rest : List (Operand Exact)} : ∀ {a : Operand Exact}
    {terms exprs : List (Expr Exact)}, a.Denotes terms → rest.mapM toExpr = .ok exprs →
    (∀ e ∈ exprs, e.isForeign = false) → Unrounded a rest →
    ∃ r, rest.foldlM (combine .add) a = .ok r ∧ r.Denotes (terms ++ exprs) := by
  induction rest with
  | nil =>
    intro a terms exprs ha hexprs _ _
    cases hexprs
    exact ⟨a, rfl, by simpa using ha⟩
  | cons t rest ih =>
    intro a terms exprs ha hexprs hforeign hexact
    obtain ⟨u, us, hu, hus, rfl⟩ := mapM_cons_eq_ok.1 hexprs
    obtain ⟨s, hs, hdenotes, hrest⟩ := ha.step hu (hforeign u List.mem_cons_self) hexact
    obtain ⟨r, hr, hsum⟩ := ih hdenotes hus
      (fun e he => hforeign e (List.mem_cons_of_mem _ he)) hrest
    refine ⟨r, ?_, by rwa [List.append_assoc] at hsum⟩
    rw [List.foldlM_cons, hs]
    exact hr

theorem denotes_zero : (plain (.int 0) : Operand Exact).Denotes [] :=
  ⟨.const 0, toExpr_of_isZero rfl rfl, rfl, fun _ => rfl,
    fun _ _ => Expr.derivative_of_not_mentions rfl rfl⟩

/-- The terms with plus signs between them. -/
def chain (t : Operand α) (rest : List (Operand α)) : Except Error (Operand α) :=
  rest.foldlM (combine .add) t

theorem chain_plain (v : Value) (vs : List Value) (rest : List (Operand α)) :
    chain (.plain v) (vs.map .plain ++ rest) =
      vs.foldlM (Value.arithmetic .add) v >>= fun s => chain (.plain s) rest := by
  induction vs generalizing v with
  | nil => rfl
  | cons w vs ih =>
    rw [chain, List.map_cons, List.cons_append, List.foldlM_cons, List.foldlM_cons, combine]
    cases Value.arithmetic .add v w with
    | error e => rfl
    | ok s => exact ih s

theorem unrounded_of_head {a : Operand Exact} {rest : List (Operand Exact)}
    (h : ∀ w, rest.head? ≠ some (.plain w)) : Unrounded a rest := by
  cases rest with
  | nil => cases a <;> trivial
  | cons t rest =>
    cases t with
    | plain w => exact absurd rfl (h w)
    | expr | evaluator | other => cases a <;> trivial

/-- The only number that can be rounded is the sum of those in front. -/
theorem denotes_chain {v s : Value} {vs : List Value} {x : Exact} {rest : List (Operand Exact)}
    {exprs : List (Expr Exact)} (hs : vs.foldlM (Value.arithmetic .add) v = .ok s)
    (hx : (plain s).toExpr = .ok (.const x)) (hhead : ∀ w, rest.head? ≠ some (.plain w))
    (hexprs : rest.mapM toExpr = .ok exprs) (hforeign : ∀ e ∈ exprs, e.isForeign = false) :
    ∃ c, chain (.plain v) (vs.map .plain ++ rest) = .ok c ∧ c.Denotes (.const x :: exprs) := by
  have hfront : (plain s).Denotes [.const x] := ⟨_, hx, rfl, Expr.sums_self _⟩
  obtain ⟨c, hc, hdenotes⟩ := hfront.all hexprs hforeign (unrounded_of_head hhead)
  refine ⟨c, ?_, hdenotes⟩
  rw [chain_plain, hs]
  exact hc

end Operand

/-! ## Sums over domains -/

namespace Expr

structure SumsOver (e : Expr Exact) (ds : List (List Value)) (term : List Value → Expr Exact) :
    Prop where
  value : ∀ b : Binding Exact, e.evaluate b = Exact.nested ds fun i => (term i).evaluate b
  slope : ∀ (b : Binding Exact) (k : Key),
    e.derivative k b = Exact.nested ds fun i => (term i).derivative k b
  once : ds = [] → ∀ (b : Binding Exact) (k : Key),
    e.evaluate b = (term []).evaluate b ∧ e.derivative k b = (term []).derivative k b
  empty : [] ∈ ds → ∀ (b : Binding Exact) (k : Key),
    e.evaluate b = .ok 0 ∧ e.derivative k b = .ok 0

theorem Sums.over {e : Expr Exact} {ds : List (List Value)} {term : List Value → Expr Exact}
    (h : e.Sums ((product ds).map term)) : e.SumsOver ds term := by
  have hvalue : ∀ b : Binding Exact,
      e.evaluate b = Exact.nested ds fun i => (term i).evaluate b := by
    intro b
    rw [h.value, List.map_map, ← Exact.total_product]
    rfl
  have hslope : ∀ (b : Binding Exact) (k : Key),
      e.derivative k b = Exact.nested ds fun i => (term i).derivative k b := by
    intro b k
    rw [h.slope, List.map_map, ← Exact.total_product]
    rfl
  refine ⟨hvalue, hslope, fun hds b k => ?_, fun hds b k => ?_⟩
  · rw [hvalue, hslope, hds]
    exact ⟨rfl, rfl⟩
  · rw [h.value, h.slope, product_eq_nil hds]
    exact ⟨rfl, rfl⟩

theorem sumOver_eq {rule : List Value → Except Error (Operand Exact)} {domains : List Value}
    {ds : List (List Value)} {term : List Value → Expr Exact}
    (hd : domains.mapM Value.elements = .ok ds)
    (hr : ∀ i ∈ product ds, (do (← rule i).toExpr) = .ok (term i)) :
    sumOver rule domains = .ok (.sum ((product ds).map term)) := by
  rw [sumOver, hd]
  change (do return Expr.sum (← (product ds).mapM fun i => do (← rule i).toExpr)) = _
  rw [mapM_eq_map hr]
  rfl

/-! ## Linear combinations -/

/-- A coefficient as it is given, and the number that it stands for. -/
def Stands (c : Value) (r : ℝ) : Prop :=
  ∃ x, c.toDouble = .ok x ∧ (Scalar.ofFloat x : Exact) = .real r

/-- An expression has the value `∑ r * x`, with the slopes and the variables of that. -/
structure Combines (e : Expr Exact) (cs : List Value) (rs : List ℝ) (keys : List Key) : Prop where
  value : ∀ (b : Binding Exact) (x : Key → ℝ), (∀ k ∈ keys, b k = .ok (.real (x k))) →
    e.evaluate b = .ok (.real ((rs.zip keys).map fun p => p.1 * x p.2).sum)
  slope : ∀ (b : Binding Exact) (x : Key → ℝ), (∀ k ∈ keys, b k = .ok (.real (x k))) → ∀ k,
    e.derivative k b = .ok (.real ((rs.zip keys).map fun p => if p.2 == k then p.1 else 0).sum)
  vars : ∀ k, e.vars.contains k = true ↔
    ∃ p ∈ cs.zip keys, p.1.isZero = false ∧ (p.2 == k) = true

noncomputable def multiple (r : ℝ) (k : Key) : Expr Exact :=
  .binary .mul (.const (.real r)) (.ref k)

theorem mentions_multiple (r : ℝ) (k' k : Key) : (multiple r k').mentions k = (k' == k) := by
  rw [multiple, mentions_binary, BEq.comm]
  simp [mentions, reads]

theorem evaluate_multiple {b : Binding Exact} (r : ℝ) {k : Key} {x : ℝ} (h : b k = .ok (.real x)) :
    (multiple r k).evaluate b = .ok (.real (r * x)) := by
  rw [multiple, evaluate, evaluate, evaluate, h]
  rfl

theorem derivative_multiple {b : Binding Exact} (r : ℝ) {k' : Key} {x : ℝ}
    (h : b k' = .ok (.real x)) (k : Key) :
    (multiple r k').derivative k b = .ok (.real (if k' == k then r else 0)) := by
  have hmentions := mentions_multiple r k' k
  cases hk : k' == k with
  | false =>
    rw [derivative_of_not_mentions rfl (hmentions.trans hk), Exact.zero_eq]
    rfl
  | true =>
    have href : (ref k' : Expr Exact).mentions k = true := by
      rw [mentions, reads, List.contains_cons, BEq.comm, hk]
      rfl
    have hconst : (const (.real r) : Expr Exact).derivative k b = .ok 0 :=
      derivative_of_not_mentions rfl rfl
    have hone : (ref k' : Expr Exact).derivative k b = .ok 1 := by
      rw [derivative, href]
      rfl
    have hx : (ref k').evaluate b = .ok (.real x) := h
    rw [multiple, derivative_binary rfl hx hconst hone, ← multiple, hmentions, hk]
    simp [BinaryOp.slope, Exact.one_eq]

section

variable {cs : List Value} {rs : List ℝ} {keys : List Key}

noncomputable def multiples (cs : List Value) (rs : List ℝ) (keys : List Key) : List (Expr Exact) :=
  (((cs.zip rs).zip keys).filter fun p => !p.1.1.isZero).map fun p => multiple p.1.2 p.2

theorem scaled_eq {c : Value} {r : ℝ} (h : Stands c r) (k : Key) :
    scaled c (.expr (.ref k)) = .ok (multiple r k) := by
  obtain ⟨x, hx, hr⟩ := h
  rw [scaled, hx, multiple, ← hr]
  rfl

theorem dot_eq (h : List.Forall₂ Stands cs rs) (hl : cs.length = keys.length) :
    dot cs (keys.map fun k => .expr (.ref k)) = .ok (.sum (multiples cs rs keys)) := by
  obtain ⟨hlength, hstands⟩ := List.forall₂_iff_zip.1 h
  have hcount :
      (cs.length != (keys.map fun k => (.expr (.ref k) : Operand Exact)).length) = false := by
    simp [hl]
  have hzip : cs.zip (keys.map fun k => (.expr (.ref k) : Operand Exact)) =
      ((cs.zip rs).zip keys).map fun p => (p.1.1, .expr (.ref p.2)) := by
    conv_lhs => rw [← List.map_fst_zip (Nat.le_of_eq hlength)]
    rw [List.zip_map]
    rfl
  have hterms : ∀ p ∈ ((cs.zip rs).zip keys).filter (fun p => !p.1.1.isZero),
      scaled p.1.1 (.expr (.ref p.2)) = .ok (multiple p.1.2 p.2) := by
    intro p hp
    exact scaled_eq (hstands (List.of_mem_zip (List.mem_of_mem_filter hp)).1) p.2
  rw [dot, hcount, if_neg Bool.false_ne_true, hzip, List.filter_map]
  change (do return Expr.sum (← (List.map _ _).mapM fun t : Value × Operand Exact =>
    scaled t.1 t.2)) = _
  rw [List.mapM_map]
  exact congrArg (fun x => (do return Expr.sum (← x) : Except Error (Expr Exact)))
    (mapM_eq_map hterms)

theorem total_multiples (h : List.Forall₂ Stands cs rs) {f : Expr Exact → Except Error Exact}
    {g : ℝ × Key → ℝ} (hf : ∀ p ∈ rs.zip keys, f (multiple p.1 p.2) = .ok (.real (g p)))
    (hg : ∀ k, g (0, k) = 0) :
    Exact.total ((multiples cs rs keys).map f) = .ok (.real ((rs.zip keys).map g).sum) := by
  obtain ⟨hlength, hstands⟩ := List.forall₂_iff_zip.1 h
  have hpairs : rs.zip keys = ((cs.zip rs).zip keys).map fun p => (p.1.2, p.2) := by
    conv_lhs => rw [← List.map_snd_zip (Nat.le_of_eq hlength.symm)]
    rw [List.zip_map_left]
    rfl
  have hzero : ∀ p ∈ (cs.zip rs).zip keys, (!p.1.1.isZero) = false → g (p.1.2, p.2) = 0 := by
    intro p hp hz
    obtain ⟨x, hx, hr⟩ := hstands (List.of_mem_zip hp).1
    obtain ⟨y, hy, h0⟩ := Value.double_of_isZero (by simpa using hz)
    cases hx.symm.trans hy
    rw [Exact.real.inj (hr.symm.trans h0), hg]
  have hterms : ∀ p ∈ (cs.zip rs).zip keys,
      f (multiple p.1.2 p.2) = .ok (.real (g (p.1.2, p.2))) := by
    intro p hp
    refine hf (p.1.2, p.2) ?_
    rw [hpairs]
    exact List.mem_map_of_mem hp
  rw [multiples, List.map_map, hpairs, List.map_map]
  exact Exact.total_filter hterms hzero

theorem combines_multiples (h : List.Forall₂ Stands cs rs) :
    (sum (multiples cs rs keys)).Combines cs rs keys := by
  have hforeign : ∀ t ∈ multiples cs rs keys, t.isForeign = false := by
    intro t ht
    obtain ⟨p, -, rfl⟩ := List.mem_map.1 ht
    rfl
  have hsums := sums_sum hforeign
  refine ⟨fun b x hb => ?_, fun b x hb k => ?_, fun k => ?_⟩
  · rw [hsums.value]
    refine total_multiples h (fun p hp => ?_) fun k => zero_mul _
    exact evaluate_multiple p.1 (hb p.2 (List.of_mem_zip hp).2)
  · rw [hsums.slope]
    refine total_multiples h (fun p hp => ?_) fun k' => ite_self 0
    exact derivative_multiple p.1 (hb p.2 (List.of_mem_zip hp).2) k
  · have hpairs : cs.zip keys = ((cs.zip rs).zip keys).map fun p => (p.1.1, p.2) := by
      conv_lhs => rw [← List.map_fst_zip (Nat.le_of_eq h.length_eq)]
      rw [List.zip_map_left]
      rfl
    rw [vars, contains_distinct, ← mentions, mentions_sum, hpairs]
    simp only [multiples, List.any_map, List.any_filter, List.any_eq_true, Function.comp_apply,
      mentions_multiple, Bool.and_eq_true, Bool.not_eq_true']
    constructor
    · rintro ⟨p, hp, hk⟩
      exact ⟨_, List.mem_map_of_mem hp, hk⟩
    · rintro ⟨_, hq, hk⟩
      obtain ⟨p, hp, rfl⟩ := List.mem_map.1 hq
      exact ⟨p, hp, hk⟩

end

end Expr

/-! ## Builders -/

/-- In exact arithmetic sums of terms and linear combinations have the values and slopes of what
they stand for. Only plain numbers in front can be rounded. -/
theorem sums_of_terms :
    (∀ (t : Operand Exact) (rest : List (Operand Exact)) (exprs : List (Expr Exact)),
      (t :: rest).mapM Operand.toExpr = .ok exprs → (∀ e ∈ exprs, e.isForeign = false) →
      Operand.Unrounded (.plain (.int 0)) (t :: rest) → Operand.Unrounded t rest →
        (∃ s, Operand.total (t :: rest) = .ok s ∧ s.Denotes exprs) ∧
        (∃ c, Operand.chain t rest = .ok c ∧ c.Denotes exprs) ∧
        ∃ q, Expr.quickSum (t :: rest) = .ok q ∧ q.Sums exprs) ∧
    (∀ (rule : List Value → Except Error (Operand Exact)) (domains : List Value)
      (ds : List (List Value)) (term : List Value → Expr Exact),
      domains.mapM Value.elements = .ok ds →
      (∀ i ∈ product ds, (do (← rule i).toExpr) = .ok (term i)) →
      (∀ i ∈ product ds, (term i).isForeign = false) →
        ∃ e, Expr.sumOver rule domains = .ok e ∧ e.SumsOver ds term) ∧
    (∀ (cs : List Value) (rs : List ℝ) (keys : List Key), List.Forall₂ Expr.Stands cs rs →
      cs.length = keys.length →
        ∃ e, Expr.dot cs (keys.map fun k => .expr (.ref k)) = .ok e ∧ e.Combines cs rs keys) ∧
    (∀ (cs : List Value) (vars : List (Operand Exact)), cs.length ≠ vars.length →
      ∃ e, Expr.dot cs vars = .error e ∧ e.kind = "ValueError") ∧
    (∀ (v s : Value) (vs : List Value) (x : Exact) (rest : List (Operand Exact))
      (exprs : List (Expr Exact)), vs.foldlM (Value.arithmetic .add) v = .ok s →
      (Operand.plain s).toExpr = .ok (.const x) → (∀ w, rest.head? ≠ some (.plain w)) →
      rest.mapM Operand.toExpr = .ok exprs → (∀ e ∈ exprs, e.isForeign = false) →
        (∃ c, Operand.chain (.plain v) (vs.map .plain ++ rest) = .ok c ∧
          c.Denotes (.const x :: exprs)) ∧
        (v = .int 0 → ∃ c, Operand.total (vs.map .plain ++ rest) = .ok c ∧
          c.Denotes (.const x :: exprs))) ∧
    ∀ (terms : List (Operand Exact)) (exprs : List (Expr Exact)),
      terms.mapM Operand.toExpr = .ok exprs → (∀ e ∈ exprs, e.isForeign = false) →
        ∃ q, Expr.quickSum terms = .ok q ∧ q.Sums exprs := by
  refine ⟨fun t rest exprs hexprs hforeign htotal hchain => ?_,
    fun rule domains ds term hd hr hforeign => ?_, fun cs rs keys h hl => ?_, fun cs vars h => ?_,
    fun v s vs x rest exprs hs hx hhead hexprs hforeign => ?_,
    fun terms exprs hexprs hforeign => Expr.quickSum_sums hexprs hforeign⟩
  · refine ⟨Operand.denotes_zero.all hexprs hforeign htotal, ?_, ?_⟩
    · obtain ⟨u, us, hu, hus, rfl⟩ := mapM_cons_eq_ok.1 hexprs
      have ht : t.Denotes [u] := ⟨u, hu, hforeign u List.mem_cons_self, Expr.sums_self u⟩
      exact ht.all hus (fun e he => hforeign e (List.mem_cons_of_mem _ he)) hchain
    · exact Expr.quickSum_sums hexprs hforeign
  · refine ⟨_, Expr.sumOver_eq hd hr, (Expr.sums_sum fun e he => ?_).over⟩
    obtain ⟨i, hi, rfl⟩ := List.mem_map.1 he
    exact hforeign i hi
  · exact ⟨_, Expr.dot_eq h hl, Expr.combines_multiples h⟩
  · have hcount : (cs.length != vars.length) = true := by simpa using h
    exact ⟨_, by rw [Expr.dot, if_pos hcount], rfl⟩
  · have hchain := Operand.denotes_chain hs hx hhead hexprs hforeign
    refine ⟨hchain, ?_⟩
    rintro rfl
    exact hchain

theorem Expr.stands_zero : Expr.Stands (.int 0) 0 := Value.double_of_isZero rfl

theorem Expr.stands_of_binary {n : Int} {r : ℝ} {m : Nat} {e : Int}
    (h : Decimal.Binary.ofFloat (Float.ofInt n) = .finite false m e)
    (hn : (Value.int n).toDouble = .ok (Float.ofInt n)) (hr : (m : ℝ) * 2 ^ e = r) :
    Stands (.int n) r := by
  refine ⟨Float.ofInt n, hn, ?_⟩
  rw [Exact.ofFloat_eq, h]
  simpa [Exact.ofBinary] using hr

theorem Expr.stands_two : Expr.Stands (.int 2) 2 :=
  stands_of_binary (m := 2 ^ 52) (e := -51) (by decide +kernel) rfl (by norm_num)

theorem Expr.stands_four : Expr.Stands (.int 4) 4 :=
  stands_of_binary (m := 2 ^ 52) (e := -50) (by decide +kernel) rfl (by norm_num)

theorem Operand.toExpr_of_stands {n : Int} {r : ℝ} (h : Expr.Stands (.int n) r) :
    (plain (.int n) : Operand Exact).toExpr = .ok (.const (.real r)) := by
  obtain ⟨d, hd, hr⟩ := h
  rw [toExpr, hd, ← hr]
  rfl

/-- Numbers around a variable, a family over two domains, and a combination with a zero. -/
theorem sums_of_twoKeys : let x : Key := ⟨"x", []⟩; let y : Key := ⟨"y", []⟩
    let two : Operand Exact := .plain (.int 2)
    let tenths : List Value := [.float 0.1, .float 0.2]
    (∃ s, Operand.total [two, two, .expr (.ref x), two] = .ok s ∧
      s.Denotes [.const (.real 2), .const (.real 2), .ref x, .const (.real 2)]) ∧
    (∃ e : Expr Exact, Expr.sumOver (fun i => .ok (.expr (.ref ⟨"x", i⟩)))
        [.range 0 2 1, .list [.text "a", .text "b"]] = .ok e ∧
      e.SumsOver [[.int 0, .int 1], [.text "a", .text "b"]] fun i => .ref ⟨"x", i⟩) ∧
    (∃ e, Expr.dot [.int 2, .int 0, .int 2] ([x, y, x].map fun k => .expr (.ref k)) = .ok e ∧
      e.Combines [.int 2, .int 0, .int 2] [2, 0, 2] [x, y, x]) ∧
    (∃ e, Expr.dot [.int 2] ([] : List (Operand Exact)) = .error e ∧ e.kind = "ValueError") ∧
    (∃ s, Operand.total (tenths.map .plain ++ [.expr (.ref x), two]) = .ok s ∧
      s.Denotes [.const (Scalar.ofFloat (0 + 0.1 + 0.2)), .ref x, .const (.real 2)]) ∧
    ∃ q, Expr.quickSum [two, two, .expr (.ref x)] = .ok q ∧
      q.Sums [.const (.real 2), .const (.real 2), .ref x] := by
  intro x y two tenths
  obtain ⟨hterms, hover, hdot, hcount, hfront, hnode⟩ := sums_of_terms
  have htwo : two.toExpr = .ok (.const (.real 2)) := Operand.toExpr_of_stands Expr.stands_two
  have hfour := Operand.toExpr_of_stands Expr.stands_four
  have htail : [.expr (.ref x), two].mapM Operand.toExpr =
      .ok [.ref x, .const (.real 2)] :=
    mapM_cons_eq_ok.2 ⟨_, _, rfl, mapM_cons_eq_ok.2 ⟨_, _, htwo, rfl, rfl⟩, rfl⟩
  have hexprs : [two, two, .expr (.ref x), two].mapM Operand.toExpr =
      .ok [.const (.real 2), .const (.real 2), .ref x, .const (.real 2)] :=
    mapM_cons_eq_ok.2 ⟨_, _, htwo, mapM_cons_eq_ok.2 ⟨_, _, htwo, htail, rfl⟩, rfl⟩
  have hstart : Operand.AddsExactly (.int 0) (.int 2) (.int 2) :=
    ⟨rfl, 0, .real 2, Operand.toExpr_of_isZero rfl rfl, htwo, by rw [Exact.zero_add_eq]; exact htwo⟩
  have hadds : Operand.AddsExactly (.int 2) (.int 2) (.int 4) :=
    ⟨rfl, .real 2, .real 2, htwo, htwo, by rw [hfour]; norm_num [Exact.add_real]⟩
  refine ⟨(hterms _ _ _ hexprs (by simp [Expr.isForeign]) ⟨_, hstart, _, hadds, trivial⟩
      ⟨_, hadds, trivial⟩).1,
    hover _ _ _ _ rfl (fun _ _ => rfl) (fun _ _ => rfl),
    hdot _ _ _ ?_ rfl, hcount _ _ (by decide), ?_, ?_⟩
  · exact .cons Expr.stands_two (.cons Expr.stands_zero (.cons Expr.stands_two .nil))
  · exact (hfront (.int 0) (.float (0 + 0.1 + 0.2)) tenths _ _ _ rfl rfl (by simp) htail
      (by simp [Expr.isForeign])).2 rfl
  · exact hnode _ _ (mapM_cons_eq_ok.2 ⟨_, _, htwo, mapM_cons_eq_ok.2 ⟨_, _, htwo, rfl, rfl⟩, rfl⟩)
      (by simp [Expr.isForeign])

end Equilibria
