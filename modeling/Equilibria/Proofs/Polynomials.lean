import Equilibria.Proofs.Building
import Equilibria.Proofs.Conditions
import Equilibria.Proofs.Iterations
import Equilibria.Proofs.Solves

/-!
# Conditions of polynomials

Every polynomial in the variables of a problem has a formula, and the formula is a number just if
the polynomial reads no variable. So the pair of a polynomial and a variable has a condition with
something to say on both sides, unless a number is compared with zero: then only the truth of the
comparison is left, and the problem is refused.
-/

namespace Equilibria

open Calls Fallible

variable {α : Type}

/-! ## Formulas -/

variable [Scalar α]

namespace Formula

def isNumber : Formula α → Bool
  | .number _ => true
  | _ => false

def isComplex : Formula α → Bool
  | .complex => true
  | _ => false

variable {f g : Formula α}

omit [Scalar α] in
theorem isNumber_eq_false (h : ∀ x, f = .number x → False) : f.isNumber = false := by
  cases f with
  | number x => exact (h x rfl).elim
  | _ => rfl

theorem isNumber_add (f g : Formula α) : (add f g).isNumber = (f.isNumber && g.isNumber) := by
  fun_cases add f g <;> simp [isNumber, *]

theorem isComplex_add (hf : f.isComplex = false) (hg : g.isComplex = false) :
    (add f g).isComplex = false := by
  fun_cases add f g <;> first | assumption | rfl

theorem isNumber_negate (f : Formula α) : (negate f).isNumber = f.isNumber := by
  fun_cases negate f <;> simp [isNumber, *]

theorem isComplex_negate (f : Formula α) : (negate f).isComplex = false := by
  fun_cases negate f <;> rfl

theorem isNumber_sub (f g : Formula α) : (sub f g).isNumber = (f.isNumber && g.isNumber) := by
  fun_cases sub f g
  · rfl
  · rw [isNumber_add, isNumber_negate]

theorem isComplex_sub (hf : f.isComplex = false) (g : Formula α) : (sub f g).isComplex = false := by
  fun_cases sub f g
  · rfl
  · exact isComplex_add hf (isComplex_negate g)

theorem isNumber_times (x : α) (hf : f.isNumber = false) : (times x f).isNumber = false := by
  fun_cases times x f <;> first | exact hf | rfl

theorem isComplex_times (x : α) (hf : f.isComplex = false) : (times x f).isComplex = false := by
  fun_cases times x f <;> first | exact hf | rfl

theorem isNumber_mul (f g : Formula α) : (mul f g).isNumber = (f.isNumber && g.isNumber) := by
  fun_cases mul f g with
  | case1 x y => rfl
  | case2 x g hg =>
    have hg : g.isNumber = false := isNumber_eq_false hg
    rw [isNumber_times x hg, hg, Bool.and_false]
  | case3 f y hf =>
    have hf : f.isNumber = false := isNumber_eq_false hf
    rw [isNumber_times y hf, hf, Bool.false_and]
  | case4 f g _ hf hg =>
    rw [isNumber_eq_false hf]
    rfl

theorem isComplex_mul (hf : f.isComplex = false) (hg : g.isComplex = false) :
    (mul f g).isComplex = false := by
  fun_cases mul f g <;> first | exact isComplex_times _ ‹_› | rfl

/-- A formula of something that reads these keys. It is a number just if there are none. -/
structure Reads (f : Formula α) (keys : List Key) : Prop where
  real : f.isComplex = false
  number : f.isNumber = true ↔ keys = []

namespace Reads

variable {ks ls : List Key}

omit [Scalar α] in
theorem of_number (x : α) : (Formula.number x).Reads [] := ⟨rfl, iff_of_true rfl rfl⟩

omit [Scalar α] in
theorem of_variable (i : Nat) (k : Key) : (Formula.variable i : Formula α).Reads [k] :=
  ⟨rfl, iff_of_false Bool.false_ne_true (List.cons_ne_nil k [])⟩

theorem add (hf : f.Reads ks) (hg : g.Reads ls) : (f.add g).Reads (ks ++ ls) where
  real := isComplex_add hf.real hg.real
  number := by rw [isNumber_add, Bool.and_eq_true, hf.number, hg.number, List.append_eq_nil_iff]

theorem sub (hf : f.Reads ks) (hg : g.Reads ls) : (f.sub g).Reads (ks ++ ls) where
  real := isComplex_sub hf.real g
  number := by rw [isNumber_sub, Bool.and_eq_true, hf.number, hg.number, List.append_eq_nil_iff]

theorem mul (hf : f.Reads ks) (hg : g.Reads ls) : (f.mul g).Reads (ks ++ ls) where
  real := isComplex_mul hf.real hg.real
  number := by rw [isNumber_mul, Bool.and_eq_true, hf.number, hg.number, List.append_eq_nil_iff]

theorem negate (hf : f.Reads ks) : f.negate.Reads ks where
  real := isComplex_negate f
  number := by rw [isNumber_negate, hf.number]

end Reads

end Formula

/-! ## Formulas of polynomials -/

namespace Expr

def isPolynomial : Expr α → Bool
  | .const _ | .ref _ | .sum _ => true
  | .binary op _ _ => op == .add || op == .sub || op == .mul
  | .unary op _ => op == .neg
  | .blackBox .. | .custom _ => false

theorem combine_of_isPolynomial {op : BinaryOp} {l r : Expr α}
    (h : (binary op l r).isPolynomial = true) {f g : Formula α} {ks ls : List Key}
    (hf : f.Reads ks) (hg : g.Reads ls) :
    ∃ c, Formula.combine op f g = .ok c ∧ c.Reads (ks ++ ls) := by
  cases op with
  | add => exact ⟨_, rfl, hf.add hg⟩
  | sub => exact ⟨_, rfl, hf.sub hg⟩
  | mul => exact ⟨_, rfl, hf.mul hg⟩
  | div | pow => cases h

theorem apply_of_isPolynomial {op : UnaryOp} {a : Expr α}
    (h : (unary op a).isPolynomial = true) {f : Formula α} {ks : List Key} (hf : f.Reads ks) :
    ∃ c, Formula.apply op f = .ok c ∧ c.Reads ks := by
  cases op with
  | neg =>
    refine ⟨f.negate, ?_, hf.negate⟩
    cases f <;> rfl
  | log | exp | sqrt | sin | cos => cases h

variable {position : Key → Except Error Nat}

mutual

-- By induction on the expression. For sums the induction carries the keys of the terms that have
-- been added so far.
theorem toFormula_of_polynomial : ∀ {e : Expr α}, (∀ x ∈ e.nodes, x.isPolynomial = true) →
    (∀ k ∈ e.reads, ∃ i, position k = .ok i) →
    ∃ f, e.toFormula position = .ok f ∧ f.Reads e.reads
  | .const x, _, _ => ⟨.number x, rfl, .of_number x⟩
  | .ref k, _, hk => by
    obtain ⟨i, hi⟩ := hk k List.mem_cons_self
    exact ⟨.variable i, bind_eq_ok.2 ⟨i, hi, rfl⟩, .of_variable i k⟩
  | .binary op l r, hp, hk => by
    simp only [nodes, List.forall_mem_append, List.forall_mem_singleton] at hp
    obtain ⟨hl, hr, hop⟩ := hp
    obtain ⟨hkl, hkr⟩ := List.forall_mem_append.1 hk
    obtain ⟨f, hf, hfreads⟩ := toFormula_of_polynomial hl hkl
    obtain ⟨g, hg, hgreads⟩ := toFormula_of_polynomial hr hkr
    obtain ⟨c, hc, hreads⟩ := combine_of_isPolynomial hop hfreads hgreads
    exact ⟨c, bind_eq_ok.2 ⟨f, hf, bind_eq_ok.2 ⟨g, hg, hc⟩⟩, hreads⟩
  | .unary op a, hp, hk => by
    simp only [nodes, List.forall_mem_append, List.forall_mem_singleton] at hp
    obtain ⟨ha, hop⟩ := hp
    obtain ⟨f, hf, hfreads⟩ := toFormula_of_polynomial ha hk
    obtain ⟨c, hc, hreads⟩ := apply_of_isPolynomial hop hfreads
    exact ⟨c, bind_eq_ok.2 ⟨f, hf, hc⟩, hreads⟩
  | .sum terms, hp, hk => by
    simp only [nodes, List.forall_mem_append, List.forall_mem_singleton] at hp
    exact sumFormula_of_polynomials (.of_number 0) hp.1 hk
  | .blackBox f args, hp, _ => by cases hp _ (mem_nodes _)
  | .custom e, hp, _ => by cases hp _ (mem_nodes _)

theorem sumFormula_of_polynomials : ∀ {terms : List (Expr α)} {acc : Formula α} {ks : List Key},
    acc.Reads ks → (∀ x ∈ nodesAll terms, x.isPolynomial = true) →
    (∀ k ∈ readsAll terms, ∃ i, position k = .ok i) →
    ∃ f, sumFormula position acc terms = .ok f ∧ f.Reads (ks ++ readsAll terms)
  | [], acc, ks, ha, _, _ => by
    rw [readsAll, List.append_nil]
    exact ⟨acc, rfl, ha⟩
  | t :: r, acc, ks, ha, hp, hk => by
    simp only [nodesAll, List.forall_mem_append] at hp
    simp only [readsAll, List.forall_mem_append] at hk
    obtain ⟨f, hf, hfreads⟩ := toFormula_of_polynomial hp.1 hk.1
    obtain ⟨s, hs, hsreads⟩ := sumFormula_of_polynomials (ha.add hfreads) hp.2 hk.2
    rw [readsAll, ← List.append_assoc]
    exact ⟨s, bind_eq_ok.2 ⟨f, hf, hs⟩, hsreads⟩

end

end Expr

namespace Path

/-! ## The condition of a pair -/

/-- The truth of a comparison, which says nothing about a variable. -/
def Relation.isTruth : Relation α → Bool
  | .truth _ => true
  | _ => false

namespace Condition

def hasTruth (c : Condition α) : Bool := c.first.isTruth || c.second.isTruth

/-- The condition that relates a variable and a formula, by the finite bounds of the variable. -/
def related (place : Nat) (l u : α) (f : Formula α) : Condition α :=
  match Side.of l u with
  | .boxed => ⟨.ranged l place u, .plain f⟩
  | .lowerOnly => ⟨.atMost (.number l) (.variable place), .atMost (.number 0) f⟩
  | .upperOnly => ⟨.atMost (.variable place) (.number u), .atMost f (.number 0)⟩
  | .free => ⟨.equal f (.number 0), .plain (.variable place)⟩

variable {place : Nat} {l u : α} {f : Formula α}

theorem hasTruth_related : (related place l u f).hasTruth = false := by
  unfold related
  split <;> rfl

theorem isAccepted_related : (related place l u f).isAccepted = true := by
  unfold related
  split <;> rfl

theorem ofPair_related (hf : f.isComplex = false)
    (h : f.isNumber = false ∨ Side.of l u = .boxed) :
    ofPair place l u f = .ok (related place l u f) := by
  unfold ofPair related
  cases hs : Side.of l u with
  | boxed => rfl
  | free | lowerOnly | upperOnly =>
    have hn : f.isNumber = false := by simpa [hs] using h
    cases f with
    | number x => cases hn
    | complex => cases hf
    | _ => rfl

theorem ofPair_number (place : Nat) (x : α) (h : Side.of l u ≠ .boxed) :
    ∃ c, ofPair place l u (.number x) = .ok c ∧ c.hasTruth = true ∧ c.isAccepted = false := by
  unfold ofPair
  cases hs : Side.of l u with
  | boxed => exact absurd hs h
  | free | lowerOnly | upperOnly => exact ⟨_, rfl, rfl, rfl⟩

/-- What is stated for a pair of a variable and an expression. -/
structure Covers (place : Nat) (l u : α) (e : Expr α) (f : Formula α) (c : Condition α) :
    Prop where
  related : e.reads ≠ [] ∨ Side.of l u = .boxed → c = related place l u f
  truth : c.hasTruth = true ↔ e.reads = [] ∧ Side.of l u ≠ .boxed
  accepted : c.isAccepted = !c.hasTruth

theorem covers_of_reads {e : Expr α} (place : Nat) (l u : α) (h : f.Reads e.reads) :
    ∃ c, ofPair place l u f = .ok c ∧ Covers place l u e f c := by
  by_cases hn : e.reads = [] ∧ Side.of l u ≠ .boxed
  · have hf : f.isNumber = true := h.number.2 hn.1
    cases f with
    | number x =>
      obtain ⟨c, hc, ht, ha⟩ := ofPair_number place x hn.2
      refine ⟨c, hc, fun hr => ?_, iff_of_true ht hn, by rw [ha, ht]; rfl⟩
      rcases hr with hr | hr
      · exact absurd hn.1 hr
      · exact absurd hr hn.2
    | _ => cases hf
  · have hside : f.isNumber = false ∨ Side.of l u = .boxed := by
      by_cases hs : Side.of l u = .boxed
      · exact .inr hs
      · exact .inl (Bool.eq_false_iff.2 fun hf => hn ⟨h.number.1 hf, hs⟩)
    refine ⟨_, ofPair_related h.real hside, fun _ => rfl, iff_of_false ?_ hn, ?_⟩
    · rw [hasTruth_related]
      exact Bool.false_ne_true
    · rw [hasTruth_related, isAccepted_related]
      rfl

end Condition

/-! ## The conditions of a problem -/

def lastPlace (vars : List Key) (k : Key) : Except Error Nat :=
  if !k.isFixed then .error .wrongType
  else
    match vars.zipIdx.reverse.find? (·.1 == k) with
    | some e => .ok e.2
    | none => .error (.unbound k)

theorem lastPlace_of_contains {vars : List Key} {k : Key} (hf : k.isFixed = true)
    (h : vars.contains k = true) :
    ∃ i a, lastPlace vars k = .ok i ∧ vars[i]? = some a ∧ (a == k) = true := by
  obtain ⟨b, hb, hk⟩ := Key.contains_iff.1 h
  obtain ⟨j, hj⟩ := List.getElem?_of_mem hb
  have hmem : (b, j) ∈ vars.zipIdx.reverse :=
    List.mem_reverse.2 (List.mem_zipIdx_iff_getElem?.2 hj)
  have hsome : (vars.zipIdx.reverse.find? (·.1 == k)).isSome = true :=
    List.find?_isSome.2 ⟨(b, j), hmem, hk⟩
  obtain ⟨⟨a, i⟩, he⟩ := Option.isSome_iff_exists.1 hsome
  have hai : vars[i]? = some a :=
    List.mem_zipIdx_iff_getElem?.1 (List.mem_reverse.1 (List.mem_of_find?_eq_some he))
  have hak := List.find?_some he
  refine ⟨i, a, ?_, hai, hak⟩
  rw [lastPlace, hf, he]
  rfl

section

variable {σ : Type} {p : Problem σ α}

/-- The residuals are polynomials, and everything that they read is among the variables. -/
structure Closed (p : Problem σ α) : Prop where
  lower : p.lower.length = p.size
  upper : p.upper.length = p.size
  vars : p.vars.length = p.size
  residuals : p.residuals.length = p.size
  polynomial : ∀ e ∈ p.residuals, ∀ x ∈ e.nodes, x.isPolynomial = true
  placed : ∀ e ∈ p.residuals, ∀ k ∈ e.reads, ∃ i, lastPlace p.vars k = .ok i

theorem conditions_of_sizes (hv : p.vars.length = p.size) (hr : p.residuals.length = p.size) :
    conditions p = (p.residuals.mapM fun e => e.toFormula (lastPlace p.vars)) >>= fun formulas =>
      (formulas.zip (p.lower.zip p.upper)).zipIdx.mapM fun ((f, l, u), i) =>
        Condition.ofPair i l u f := by
  have hsizes : (p.vars.length != p.size || p.residuals.length != p.size) = false := by
    simp [hv, hr]
  unfold conditions
  rw [hsizes]
  rfl

theorem Closed.covers (h : Closed p) {e : Expr α} {f : Formula α} (he : e ∈ p.residuals)
    (hf : e.toFormula (lastPlace p.vars) = .ok f) (i : Nat) (l u : α) :
    ∃ c, Condition.ofPair i l u f = .ok c ∧ Condition.Covers i l u e f c := by
  obtain ⟨g, hg, hreads⟩ := Expr.toFormula_of_polynomial (h.polynomial e he) (h.placed e he)
  cases hf.symm.trans hg
  exact Condition.covers_of_reads i l u hreads

theorem Closed.conditions_ok (h : Closed p) :
    ∃ cs, conditions p = .ok cs ∧ cs.length = p.size ∧
      ∀ i e l u, p.residuals[i]? = some e → p.lower[i]? = some l → p.upper[i]? = some u →
        ∃ f c, e.toFormula (lastPlace p.vars) = .ok f ∧ cs[i]? = some c ∧
          Condition.Covers i l u e f c := by
  obtain ⟨formulas, hm⟩ := mapM_ok_of_forall fun e he =>
    (Expr.toFormula_of_polynomial (h.polynomial e he) (h.placed e he)).imp fun f hf => hf.1
  have hpair : ∀ x ∈ (formulas.zip (p.lower.zip p.upper)).zipIdx,
      ∃ c, Condition.ofPair x.2 x.1.2.1 x.1.2.2 x.1.1 = .ok c := by
    rintro ⟨⟨f, l, u⟩, i⟩ hmem
    have hz : (f, l, u) ∈ formulas.zip (p.lower.zip p.upper) := List.fst_mem_of_mem_zipIdx hmem
    obtain ⟨e, he, hf⟩ := mem_of_mapM hm (List.of_mem_zip hz).1
    exact (h.covers he hf i l u).imp fun c hc => hc.1
  obtain ⟨cs, hcs⟩ := mapM_ok_of_forall hpair
  refine ⟨cs, ?_, ?_, ?_⟩
  · rw [conditions_of_sizes h.vars h.residuals, hm]
    exact hcs
  · simp [length_of_mapM hcs, length_of_mapM hm, h.lower, h.upper, h.residuals]
  · intro i e l u he hl hu
    obtain ⟨f, hfi, hf⟩ := getElem?_of_mapM hm he
    have hz : (formulas.zip (p.lower.zip p.upper))[i]? = some (f, l, u) :=
      List.getElem?_zip_eq_some.2 ⟨hfi, List.getElem?_zip_eq_some.2 ⟨hl, hu⟩⟩
    have hzi : (formulas.zip (p.lower.zip p.upper)).zipIdx[i]? = some ((f, l, u), i) := by
      rw [List.getElem?_zipIdx, hz, Option.map_some, Nat.zero_add]
    obtain ⟨c, hci, hc⟩ := getElem?_of_mapM hcs hzi
    obtain ⟨d, hd, hcovers⟩ := h.covers (List.mem_of_getElem? he) hf i l u
    cases hc.symm.trans hd
    exact ⟨f, c, hf, hci, hcovers⟩

end

end Path

/-! ## Models -/

omit [Scalar α] in
theorem Registry.Tied.key_of_get {r : Registry α} (ht : r.Tied) {k : Key} {v : Variable α}
    (hk : r.keys.contains k = true) (h : r.get k = .ok v) : (v.key == k) = true := by
  obtain ⟨e, he, hek, hget⟩ := r.get_of_contains hk
  cases hget.symm.trans h
  rw [Tied, vars, keys, List.map_map, List.map_inj_left] at ht
  rwa [← ht e he] at hek

namespace Model

variable {m : Model α} {vars : List (Variable α)}

theorem Valid.key_of_paired (hv : m.Valid) (ht : m.registry.Tied)
    (hvars : Problem.paired m.registry m.pairing = .ok vars) {i : Nat} {k : Key}
    (hk : m.pairing.vars[i]? = some k) :
    ∃ a, (vars.map (·.key))[i]? = some a ∧ (a == k) = true := by
  obtain ⟨v, hvi, hget⟩ := getElem?_of_mapM hvars hk
  have hknown : m.registry.keys.contains k = true := hv.known k (List.mem_of_getElem? hk)
  exact ⟨v.key, by rw [List.getElem?_map, hvi]; rfl, ht.key_of_get hknown hget⟩

theorem Valid.lastPlace_ok (hv : m.Valid) (ht : m.registry.Tied)
    (hvars : Problem.paired m.registry m.pairing = .ok vars) {k : Key}
    (hk : m.pairing.vars.contains k = true) :
    ∃ i, Path.lastPlace (vars.map (·.key)) k = .ok i ∧
      ∃ b, m.pairing.vars[i]? = some b ∧ (b == k) = true := by
  obtain ⟨b, hb, hbk⟩ := Key.contains_iff.1 hk
  obtain ⟨j, hj⟩ := List.getElem?_of_mem hb
  obtain ⟨a, ha, hab⟩ := hv.key_of_paired ht hvars hj
  have hcontains : (vars.map (·.key)).contains k = true :=
    Key.contains_iff.2 ⟨a, List.mem_of_getElem? ha, Key.beq_trans hab hbk⟩
  obtain ⟨i, c, hi, hc, hck⟩ :=
    Path.lastPlace_of_contains (m.pairing.proper_vars.fixed_of_contains hk) hcontains
  have hlt : i < m.pairing.vars.length := by
    rw [← length_of_mapM hvars, ← List.length_map (·.key)]
    exact (List.getElem?_eq_some_iff.1 hc).1
  have hd := List.getElem?_eq_getElem hlt
  obtain ⟨c', hc', hcd⟩ := hv.key_of_paired ht hvars hd
  cases hc.symm.trans hc'
  exact ⟨i, hi, _, hd, Key.beq_trans (BEq.symm hcd) hck⟩

theorem Valid.lastPlace_eq (hv : m.Valid) (ht : m.registry.Tied)
    (hvars : Problem.paired m.registry m.pairing = .ok vars) {i : Nat} {k : Key}
    (hk : m.pairing.vars[i]? = some k) : Path.lastPlace (vars.map (·.key)) k = .ok i := by
  obtain ⟨j, hj, b, hb, hbk⟩ :=
    hv.lastPlace_ok ht hvars (Key.contains_of_mem (List.mem_of_getElem? hk))
  have hi := m.pairing.proper_vars.findIdx?_eq hk BEq.rfl
  rw [m.pairing.proper_vars.findIdx?_eq hb hbk] at hi
  cases hi
  exact hj

theorem Valid.closed_of_polynomials (hv : m.Valid) (ht : m.registry.Tied)
    (hp : ∀ f ∈ m.residuals.items, ∀ x ∈ f.expr.nodes, x.isPolynomial = true)
    (hvars : Problem.paired m.registry m.pairing = .ok vars) {flat : Flat α}
    (hflat : Flat.ofPairs m.residuals m.pairing = .ok flat) (kind : MatrixFormat) :
    Path.Closed (Problem.ofFlat vars flat kind) where
  lower := by simp [Problem.ofFlat, Problem.size]
  upper := by simp [Problem.ofFlat, Problem.size]
  vars := by simp [Problem.ofFlat, Problem.size]
  residuals := by
    have hl := length_of_mapM hvars
    rw [Pairing.length_vars, ← (sizes_of_flat hflat).1] at hl
    simp [Problem.ofFlat, Problem.size, hl]
  polynomial e he := by
    obtain ⟨f, hf, rfl⟩ := mem_of_flat hflat hv.residualsKnown he
    exact hp f hf
  placed e he k hk := by
    obtain ⟨f, hf, rfl⟩ := mem_of_flat hflat hv.residualsKnown he
    obtain ⟨i, hi, -⟩ := hv.lastPlace_ok ht hvars (hv.reads hf k hk)
    exact ⟨i, hi⟩

/-- The pair is one of a residual that reads a variable, or of a variable with both bounds. -/
def Relates (m : Model α) (pair : Pair) : Prop :=
  ∀ v f, m.registry.get pair.var = .ok v → m.residuals.get pair.res = .ok f →
    f.expr.reads ≠ [] ∨ Side.of v.lower v.upper = .boxed

structure States (m : Model α) (position : Key → Except Error Nat) (i : Nat) (pair : Pair)
    (c : Path.Condition α) : Prop where
  place : position pair.var = .ok i
  covers : ∃ v f g, m.registry.get pair.var = .ok v ∧ m.residuals.get pair.res = .ok f ∧
    f.expr.toFormula position = .ok g ∧ Path.Condition.Covers i v.lower v.upper f.expr g c

theorem States.isAccepted_iff {position : Key → Except Error Nat} {i : Nat} {pair : Pair}
    {c : Path.Condition α} (h : m.States position i pair c) :
    c.isAccepted = true ↔ m.Relates pair := by
  obtain ⟨v, f, g, hget, hres, -, hc⟩ := h.covers
  rw [hc.accepted, Bool.not_eq_true', ← Bool.not_eq_true, hc.truth]
  constructor
  · intro hn w f' hw hf'
    cases hget.symm.trans hw
    cases hres.symm.trans hf'
    by_cases hr : f.expr.reads = []
    · exact .inr (by_contra fun hs => hn ⟨hr, hs⟩)
    · exact .inl hr
  · rintro hr ⟨hreads, hside⟩
    rcases hr v f hget hres with h | h
    · exact h hreads
    · exact hside h

theorem Valid.states_of_polynomials (hv : m.Valid) (ht : m.registry.Tied)
    (hp : ∀ f ∈ m.residuals.items, ∀ x ∈ f.expr.nodes, x.isPolynomial = true) {format : String}
    {kind : MatrixFormat} (hk : MatrixFormat.ofText format = .ok kind) :
    ∃ p cs, m.problem format = .ok p ∧ Path.conditions p = .ok cs ∧
      cs.length = m.pairing.size ∧ ∀ i pair, m.pairing.pairs[i]? = some pair →
        ∃ c, cs[i]? = some c ∧ m.States (Path.lastPlace p.vars) i pair c := by
  obtain ⟨vars, hvars⟩ := hv.paired_ok
  obtain ⟨flat, hflat⟩ := hv.flat_ok
  have hproblem : m.problem format = .ok (.ofFlat vars flat kind) := by
    rw [problem, Problem.ofPairs, hvars, hflat, hk]
    rfl
  have hclosed := hv.closed_of_polynomials ht hp hvars hflat kind
  obtain ⟨cs, hcs, hlength, hcovers⟩ := hclosed.conditions_ok
  refine ⟨_, cs, hproblem, hcs, ?_, fun i pair hi => ?_⟩
  · rw [hlength, ← hclosed.residuals]
    exact (sizes_of_flat hflat).1
  · obtain ⟨-, ⟨v, hget, hvi⟩, f, hres, hfi⟩ := place_of_pair hvars hflat hi
    obtain ⟨g, c, hg, hci, hc⟩ := hcovers i f.expr v.lower v.upper hfi
      (by simp [Problem.ofFlat, hvi]) (by simp [Problem.ofFlat, hvi])
    exact ⟨c, hci, hv.lastPlace_eq ht hvars (var_of_pair hi), v, f, g, hget, hres, hg, hc⟩

end Model

/-- The pairs of a valid model with polynomial residuals have conditions. Each relates a variable
and a residual, unless it compares a number. -/
theorem conditions_of_polynomials {m : Model α} (hm : m.validate = .ok ())
    (ht : m.registry.Tied)
    (hp : ∀ f ∈ m.residuals.items, ∀ x ∈ f.expr.nodes, x.isPolynomial = true) {format : String}
    {kind : MatrixFormat} (hk : MatrixFormat.ofText format = .ok kind) :
    ∃ p cs, m.problem format = .ok p ∧ Path.conditions p = .ok cs ∧
      cs.length = m.pairing.size ∧
      (∀ i pair, m.pairing.pairs[i]? = some pair →
        ∃ c, cs[i]? = some c ∧ m.States (Path.lastPlace p.vars) i pair c) ∧
      (cs.all Path.Condition.isAccepted = true ↔ ∀ pair ∈ m.pairing.pairs, m.Relates pair) := by
  obtain ⟨p, cs, hproblem, hcs, hlength, hstates⟩ :=
    (Model.valid_of_validate hm).states_of_polynomials ht hp hk
  refine ⟨p, cs, hproblem, hcs, hlength, hstates, ?_⟩
  rw [List.all_eq_true]
  constructor
  · intro hall pair hpair
    obtain ⟨i, hi⟩ := List.getElem?_of_mem hpair
    obtain ⟨c, hc, hs⟩ := hstates i pair hi
    exact hs.isAccepted_iff.1 (hall c (List.mem_of_getElem? hc))
  · intro hall c hc
    obtain ⟨i, hi⟩ := List.getElem?_of_mem hc
    have hlt : i < m.pairing.pairs.length := by
      have hlt := (List.getElem?_eq_some_iff.1 hi).1
      rwa [hlength] at hlt
    obtain ⟨d, hd, hs⟩ := hstates i _ (List.getElem?_eq_getElem hlt)
    cases hi.symm.trans hd
    exact hs.isAccepted_iff.2 (hall _ (List.getElem_mem hlt))

def oneAgainst (upper : Value) : List (Operation Float) :=
  [.addVariable (.text "x") none { upper := upper },
    .addExpression (.text "F") (.expr (.const 1)) none (.text ""),
    .correspond (.key ⟨"F", []⟩) (.key ⟨"x", []⟩)]

theorem polynomial_of_one {m : Model Float}
    (h : m.residuals.items = [⟨⟨"F", []⟩, .const 1, ""⟩]) :
    ∀ f ∈ m.residuals.items, ∀ x ∈ f.expr.nodes, x.isPolynomial = true := by
  rw [h, List.forall_mem_singleton]
  exact List.forall_mem_singleton.2 rfl

/-- The number against a variable with both bounds. -/
theorem conditions_of_boxedOne :
    let m := Operation.runAll (.empty "m" "" .empty .unsolved) (oneAgainst (.float 2))
    ∃ p cs, m.problem "dense" = .ok p ∧ Path.conditions p = .ok cs ∧ cs.length = 1 ∧
      cs.all Path.Condition.isAccepted = true := by
  intro m
  have hm : m.validate = .ok () := eq_ok_of_isOk (by decide +kernel)
  obtain ⟨p, cs, hproblem, hcs, hlength, -, hall⟩ :=
    conditions_of_polynomials hm rfl (polynomial_of_one rfl)
      (rfl : MatrixFormat.ofText "dense" = .ok .dense)
  refine ⟨p, cs, hproblem, hcs, hlength, hall.2 ?_⟩
  have hside : Side.of (0 : Float) 2 = .boxed := by decide +kernel
  intro pair hpair v f hv hf
  have hpairs : m.pairing.pairs = [⟨⟨"F", []⟩, ⟨"x", []⟩⟩] := rfl
  rw [hpairs, List.mem_singleton] at hpair
  subst hpair
  have hget : m.registry.get ⟨"x", []⟩ = .ok ⟨⟨"x", []⟩, 0, 2, 0, "", none⟩ := rfl
  cases hget.symm.trans hv
  exact .inr hside

/-- The truth of one being at least zero is no condition, so the program never gets to see the
problem. -/
theorem truth_of_one :
    let m := Operation.runAll (.empty "m" "" .empty .unsolved) (oneAgainst .null)
    ∃ p, m.validate = .ok () ∧ m.registry.Tied ∧
      (∀ f ∈ m.residuals.items, ∀ x ∈ f.expr.nodes, x.isPolynomial = true) ∧
      m.problem "dense" = .ok p ∧
      Path.conditions p = .ok [⟨.atMost (.number 0) (.variable 0), .truth true⟩] ∧
      (∀ e o t, Path.solve e p o t = (.error .openCondition, t)) ∧
      ∃ s, (Model.solve (.newton .standard Newton.plainSetting) .empty m).1 = .ok s ∧
        s.outcome.isOptimal = true := by
  intro m
  have hm : m.validate = .ok () := eq_ok_of_isOk (by decide +kernel)
  have htruth : decide ((0 : Float) ≤ 1) = true := by decide +kernel
  obtain ⟨p, hp⟩ : ∃ p, m.problem "dense" = .ok p := ⟨_, rfl⟩
  have hsize : p.size = 1 := by
    cases hp
    rfl
  have hcs : Path.conditions p =
      .ok [⟨.atMost (.number 0) (.variable 0), .truth (decide ((0 : Float) ≤ 1))⟩] := by
    cases hp
    rfl
  rw [htruth] at hcs
  have hsolved : ((Model.solve (.newton .standard Newton.plainSetting) .empty m).1.toOption.any
      fun s => s.outcome.isOptimal) = true := by
    decide +kernel
  refine ⟨p, hm, rfl, polynomial_of_one rfl, hp, hcs, ?_, ?_⟩
  · exact Path.solve_refused (by rw [hsize]; decide) hcs List.mem_cons_self rfl
  · revert hsolved
    generalize (Model.solve (.newton .standard Newton.plainSetting) .empty m).1 = r
    intro hsolved
    cases r with
    | error e => cases hsolved
    | ok s => exact ⟨s, rfl, hsolved⟩

end Equilibria
