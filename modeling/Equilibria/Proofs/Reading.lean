import Equilibria.Proofs.Formulas
import Equilibria.Proofs.Reordering

/-!
# What expressions read

An expression reads its variables and nothing else, and an algebraic one has a value just where all
of them are bound. So a row of a model, its value and its slopes, stays as it is when an entry of
the point changes that is not in the pattern of the row.
-/

namespace Equilibria

open Calls Fallible

variable {α : Type}

/-! ## Bindings -/

namespace Binding

/-- Two bindings give the same to every key that is among some keys, however it is written. -/
def SameOn (b b' : Binding α) (keys : List Key) : Prop :=
  ∀ k, keys.contains k = true → b k = b' k

theorem SameOn.agree {b b' : Binding α} {keys : List Key} (h : b.SameOn b' (Expr.distinct keys)) :
    b.Agree b' keys := by
  intro k hk
  refine h k ?_
  rw [Expr.contains_distinct]
  exact Key.contains_of_mem hk

theorem find?_congr (pairs : List (Key × α)) {k l : Key} (h : (k == l) = true) :
    pairs.find? (·.1 == k) = pairs.find? (·.1 == l) := by
  congr 1
  exact funext fun p => BEq.congr_right h

theorem sameOn_ofList {pairs pairs' : List (Key × α)} {keys : List Key}
    (h : (ofList pairs).Agree (ofList pairs') keys) :
    (ofList pairs).SameOn (ofList pairs') keys := by
  intro l hl
  obtain ⟨k, hk, hkl⟩ := Key.contains_iff.1 hl
  have hsame := h k hk
  simp only [ofList, Key.fixed_of_beq hkl, find?_congr pairs hkl, find?_congr pairs' hkl]
    at hsame ⊢
  split
  · rfl
  · rename_i hfixed
    rw [if_neg hfixed, if_neg hfixed] at hsame
    cases hp : pairs.find? (·.1 == l) <;> cases hp' : pairs'.find? (·.1 == l) <;>
      simp_all

theorem ofList_cases (pairs : List (Key × α)) {k : Key} (h : k.isFixed = true) :
    ((pairs.map (·.1)).contains k = true ∧ ∃ x, ofList pairs k = .ok x) ∨
      (pairs.map (·.1)).contains k = false ∧ ofList pairs k = .error (.unbound k) := by
  cases hp : pairs.find? (·.1 == k) with
  | some p =>
    have hpk : (p.1 == k) = true := by simpa using List.find?_some hp
    have hmem : p.1 ∈ pairs.map (·.1) := List.mem_map_of_mem (List.mem_of_find?_eq_some hp)
    exact .inl ⟨Key.contains_iff.2 ⟨p.1, hmem, hpk⟩, p.2, ofList_eq h hp⟩
  | none =>
    refine .inr ⟨?_, by simp [ofList, h, hp]⟩
    rw [Bool.eq_false_iff]
    intro hc
    obtain ⟨a, ha, hak⟩ := Key.contains_iff.1 hc
    obtain ⟨p, hpm, rfl⟩ := List.mem_map.1 ha
    exact List.find?_eq_none.1 hp p hpm hak

end Binding

/-! ## Expressions -/

variable [Scalar α]

namespace Expr

/-- An expression answers alike for bindings that give the same to its variables. -/
structure ReadsVars (e : Expr α) : Prop where
  evaluate : ∀ {b b' : Binding α}, b.SameOn b' e.vars → e.evaluate b = e.evaluate b'
  derivative : ∀ {b b' : Binding α} (k : Key), b.SameOn b' e.vars →
    e.derivative k b = e.derivative k b'

theorem readsVars_of_local {e : Expr α} (h : e.Local) : e.ReadsVars where
  evaluate hb := e.evaluate_congr h hb.agree
  derivative k hb := e.derivative_congr k h hb.agree

mutual

theorem honest_of_algebraic : ∀ {e : Expr α}, (∀ x ∈ e.nodes, x.isAlgebraic = true) → e.Honest
  | .const _, _ | .ref _, _ => trivial
  | .binary _ l r, h => by
    simp only [nodes, List.forall_mem_append] at h
    exact ⟨honest_of_algebraic h.1, honest_of_algebraic h.2.1⟩
  | .unary _ a, h => by
    simp only [nodes, List.forall_mem_append] at h
    exact honest_of_algebraic (e := a) h.1
  | .sum terms, h => by
    simp only [nodes, List.forall_mem_append] at h
    exact (allHonest_of_algebraic h.1 : AllHonest terms)
  | .blackBox .., h | .custom _, h => by cases h _ (mem_nodes _)

theorem allHonest_of_algebraic : ∀ {terms : List (Expr α)},
    (∀ x ∈ nodesAll terms, x.isAlgebraic = true) → AllHonest terms
  | [], _ => trivial
  | t :: r, h => by
    simp only [nodesAll, List.forall_mem_append] at h
    exact ⟨honest_of_algebraic h.1, allHonest_of_algebraic h.2⟩

end

theorem bind_eq_error {β γ : Type} {x : Except Error β} {f : β → Except Error γ} {error : Error}
    (h : (x >>= f) = .error error) : x = .error error ∨ ∃ y, x = .ok y ∧ f y = .error error := by
  cases x with
  | error e =>
    cases h
    exact .inl rfl
  | ok y => exact .inr ⟨y, rfl, h⟩

mutual

-- By induction on the expression. Arithmetic answers for all numbers, so the first part that fails
-- passes its error on, and at the leaves only a reference can fail.
theorem unbound_of_error {b : Binding α} {error : Error} : ∀ {e : Expr α},
    (∀ x ∈ e.nodes, x.isAlgebraic = true) → e.evaluate b = .error error →
    ∃ k ∈ e.reads, b k = .error error
  | .const _, _, h => by cases h
  | .ref k, _, h => ⟨k, List.mem_cons_self, h⟩
  | .binary op l r, ha, h => by
    simp only [nodes, List.forall_mem_append] at ha
    simp only [reads, List.mem_append]
    rcases bind_eq_error h with hl | ⟨x, -, h⟩
    · obtain ⟨k, hk, hb⟩ := unbound_of_error ha.1 hl
      exact ⟨k, .inl hk, hb⟩
    · rcases bind_eq_error h with hr | ⟨y, -, h⟩
      · obtain ⟨k, hk, hb⟩ := unbound_of_error ha.2.1 hr
        exact ⟨k, .inr hk, hb⟩
      · cases h
  | .unary op a, ha, h => by
    simp only [nodes, List.forall_mem_append] at ha
    rcases bind_eq_error h with h | ⟨x, -, h⟩
    · exact unbound_of_error (e := a) ha.1 h
    · cases h
  | .sum terms, ha, h => by
    simp only [nodes, List.forall_mem_append] at ha
    exact unbound_of_errorSum ha.1 h
  | .blackBox .., ha, _ | .custom _, ha, _ => by cases ha _ (mem_nodes _)

theorem unbound_of_errorSum {b : Binding α} {error : Error} : ∀ {terms : List (Expr α)} {acc : α},
    (∀ x ∈ nodesAll terms, x.isAlgebraic = true) → evaluateSum b acc terms = .error error →
    ∃ k ∈ readsAll terms, b k = .error error
  | [], _, _, h => by cases h
  | t :: r, acc, ha, h => by
    simp only [nodesAll, List.forall_mem_append] at ha
    simp only [readsAll, List.mem_append]
    rcases bind_eq_error h with ht | ⟨x, -, hr⟩
    · obtain ⟨k, hk, hb⟩ := unbound_of_error ha.1 ht
      exact ⟨k, .inl hk, hb⟩
    · obtain ⟨k, hk, hb⟩ := unbound_of_errorSum ha.2 hr
      exact ⟨k, .inr hk, hb⟩

end

mutual

theorem covers_of_evaluate {b : Binding α} : ∀ {e : Expr α} {y : α},
    (∀ x ∈ e.nodes, x.isAlgebraic = true) → e.evaluate b = .ok y → b.Covers e.reads
  | .const _, _, _, _ => fun _ hk => by cases hk
  | .ref _, y, _, h => List.forall_mem_singleton.2 ⟨y, h⟩
  | .binary op l r, _, ha, h => by
    simp only [nodes, List.forall_mem_append] at ha
    obtain ⟨x, hl, h⟩ := bind_eq_ok.1 h
    obtain ⟨y, hr, -⟩ := bind_eq_ok.1 h
    simp only [reads, Binding.Covers, List.forall_mem_append]
    exact ⟨covers_of_evaluate ha.1 hl, covers_of_evaluate ha.2.1 hr⟩
  | .unary op a, _, ha, h => by
    simp only [nodes, List.forall_mem_append] at ha
    obtain ⟨x, hx, -⟩ := bind_eq_ok.1 h
    exact covers_of_evaluate (e := a) ha.1 hx
  | .sum terms, _, ha, h => by
    simp only [nodes, List.forall_mem_append] at ha
    exact covers_of_evaluateSum ha.1 h
  | .blackBox .., _, ha, _ | .custom _, _, ha, _ => by cases ha _ (mem_nodes _)

theorem covers_of_evaluateSum {b : Binding α} : ∀ {terms : List (Expr α)} {acc y : α},
    (∀ x ∈ nodesAll terms, x.isAlgebraic = true) → evaluateSum b acc terms = .ok y →
    b.Covers (readsAll terms)
  | [], _, _, _, _ => fun _ hk => by cases hk
  | t :: r, acc, y, ha, h => by
    simp only [nodesAll, List.forall_mem_append] at ha
    obtain ⟨x, ht, hr⟩ := bind_eq_ok.1 h
    simp only [readsAll, Binding.Covers, List.forall_mem_append]
    exact ⟨covers_of_evaluate ha.1 ht, covers_of_evaluateSum ha.2 hr⟩

end

/-- An expression asks in vain for a variable that is not bound, and has a value if there is none
such. -/
structure Asks (e : Expr α) (keys : List Key) (pairs : List (Key × α)) : Prop where
  fails_iff : (∃ error : Error, error.kind = "KeyError" ∧
      e.evaluate (Binding.ofList pairs) = .error error) ↔
    ∃ k ∈ keys, (pairs.map (·.1)).contains k = false
  answers_iff : (∃ y, e.evaluate (Binding.ofList pairs) = .ok y) ↔
    ∀ k ∈ keys, (pairs.map (·.1)).contains k = true

theorem asks_of_algebraic {e : Expr α} (ha : ∀ x ∈ e.nodes, x.isAlgebraic = true)
    {keys : List Key} (hkeys : e.keys = .ok keys) (pairs : List (Key × α)) :
    e.Asks keys pairs := by
  have hfixed : ∀ k ∈ e.reads, k.isFixed = true := by
    intro k hk
    by_contra hno
    have hall : e.reads.all Key.isFixed = false :=
      List.all_eq_false.2 ⟨k, hk, hno⟩
    rw [Expr.keys, hall] at hkeys
    cases hkeys
  have hvars : keys = e.vars := by
    rw [Expr.keys, List.all_eq_true.2 hfixed] at hkeys
    exact (Except.ok.inj hkeys).symm
  have hmem : ∀ k, keys.contains k = e.reads.contains k := by
    intro k
    rw [hvars, vars, contains_distinct]
  have hbound : (∀ k ∈ keys, (pairs.map (·.1)).contains k = true) ↔
      (Binding.ofList pairs).Covers e.reads := by
    constructor
    · intro h k hk
      have hc := (hmem k).trans (Key.contains_of_mem hk)
      obtain ⟨a, hak, ha⟩ := Key.contains_iff.1 hc
      have hpairs := Key.contains_of_contains (h a hak) ha
      rcases Binding.ofList_cases pairs (hfixed k hk) with ⟨-, hx⟩ | ⟨hno, -⟩
      · exact hx
      · rw [hno] at hpairs
        cases hpairs
    · intro h k hk
      obtain ⟨a, ha, hak⟩ := Key.contains_iff.1 ((hmem k).symm.trans (Key.contains_of_mem hk))
      obtain ⟨x, hx⟩ := h a ha
      rcases Binding.ofList_cases pairs (hfixed a ha) with ⟨hc, -⟩ | ⟨-, hno⟩
      · exact Key.contains_of_contains hc hak
      · cases hx.symm.trans hno
  have hanswers : (∃ y, e.evaluate (Binding.ofList pairs) = .ok y) ↔
      (Binding.ofList pairs).Covers e.reads := by
    refine ⟨?_, e.evaluate_ok (honest_of_algebraic ha)⟩
    rintro ⟨y, h⟩
    exact covers_of_evaluate ha h
  refine ⟨⟨?_, ?_⟩, hanswers.trans hbound.symm⟩
  · rintro ⟨error, -, h⟩
    by_contra hnone
    have hall : ∀ k ∈ keys, (pairs.map (·.1)).contains k = true := by
      intro k hk
      by_contra hk'
      exact hnone ⟨k, hk, by simpa using hk'⟩
    obtain ⟨y, hy⟩ := hanswers.2 (hbound.1 hall)
    cases h.symm.trans hy
  · rintro ⟨k, hk, hno⟩
    cases he : e.evaluate (Binding.ofList pairs) with
    | ok y =>
      have hall := hbound.2 (hanswers.1 ⟨y, he⟩) k hk
      rw [hno] at hall
      cases hall
    | error error =>
      obtain ⟨l, hl, hb⟩ := unbound_of_error ha he
      refine ⟨error, ?_, rfl⟩
      rcases Binding.ofList_cases pairs (hfixed l hl) with ⟨-, x, hx⟩ | ⟨-, hunbound⟩
      · cases hb.symm.trans hx
      · cases hb.symm.trans hunbound
        rfl

end Expr

/-! ## Rows -/

namespace Flat

/-- An entry of a point is read for the rows in whose pattern it is, and for no others. -/
structure RowsLocal (f : Flat α) : Prop where
  total : ∀ xs : List α, xs.length = f.size → ∀ s, ∃ ys,
    (f.value (.vector xs) s).1 = .ok ys ∧ ys.length = f.size
  value_row : ∀ {xs : List α}, xs.length = f.size → ∀ {i j : Nat}, (i, j) ∉ f.places →
    ∀ (x : α) (s s' : Scratch α), ∃ ys ys', (f.value (.vector xs) s).1 = .ok ys ∧
      (f.value (.vector (xs.set j x)) s').1 = .ok ys' ∧ ys[i]? = ys'[i]?
  slope_row : ∀ {xs : List α}, xs.length = f.size → ∀ {i j : Nat}, (i, j) ∉ f.places →
    ∀ (x : α) (s s' : Scratch α) (format : MatrixFormat), ∃ slopes slopes',
      (f.jacobian format (.vector xs) s).1 = .ok slopes ∧
      (f.jacobian format (.vector (xs.set j x)) s').1 = .ok slopes' ∧
      slopes.toRows[i]? = slopes'.toRows[i]?

omit [Scalar α] in
theorem shape_vector {f : Flat α} {xs : List α} (h : xs.length = f.size) :
    (Grid.vector xs).shape = [f.size] := congrArg (fun n => [n]) h

omit [Scalar α] in
theorem not_mentions_of_not_mem {f : Flat α} {i j : Nat} (h : (i, j) ∉ f.places) {e : Expr α}
    (he : f.exprs[i]? = some e) {k : Key} (hk : f.keys[j]? = some k) : e.mentions k = false := by
  rw [Bool.eq_false_iff]
  exact fun hment => h (mem_places.2 ⟨e, k, he, hk, hment⟩)

theorem row_of_stored {f : Flat α} (format : MatrixFormat) {items items' : List (Nat × Nat × α)}
    (h : (items.map fun e => (e.1, e.2.1)).Nodup) (h' : (items'.map fun e => (e.1, e.2.1)).Nodup)
    {i : Nat} (hi : i < f.size → ∀ j < f.size, stored items i j = stored items' i j) :
    (f.matrix format items).toRows[i]? = (f.matrix format items').toRows[i]? := by
  have hrow (g : Option α → α) : ((List.range f.size).map fun i =>
        (List.range f.size).map fun j => g (stored items i j))[i]? =
      ((List.range f.size).map fun i =>
        (List.range f.size).map fun j => g (stored items' i j))[i]? := by
    rw [List.getElem?_map, List.getElem?_map]
    by_cases hlt : i < f.size
    · have hj : (List.range f.size).map (fun j => g (stored items i j)) =
          (List.range f.size).map fun j => g (stored items' i j) :=
        List.map_congr_left fun j hj => by rw [hi hlt j (List.mem_range.1 hj)]
      rw [List.getElem?_range hlt, Option.map_some, Option.map_some, hj]
    · rw [List.getElem?_eq_none (by rw [List.length_range]; exact Nat.le_of_not_lt hlt)]
      rfl
  cases format with
  | dense =>
    simp only [matrix, Jacobian.toRows, fill_eq_table]
    exact hrow (·.elim 0 id)
  | entries =>
    simp only [matrix, entries_eq_table _ h, entries_eq_table _ h']
    exact hrow (·.elim 0 (0 + ·))

namespace Callable

variable {f : Flat α} (h : f.Callable) {xs : List α} (hx : xs.length = f.size)

include h hx

theorem agree_set {e : Expr α} (he : e ∈ f.exprs) {j : Nat}
    (hj : ∀ {k}, f.keys[j]? = some k → e.mentions k = false) (x : α) (s s' : Scratch α) :
    (Binding.ofList (s.bind f.keys xs)).Agree (Binding.ofList (s'.bind f.keys (xs.set j x)))
      e.reads := by
  intro l hl
  obtain ⟨k, hk, hkl⟩ := Key.contains_iff.1 (h.closed e he l hl)
  obtain ⟨i, hi⟩ := List.getElem?_of_mem hk
  have hij : j ≠ i := by
    rintro rfl
    have hment : e.mentions k = true := Key.contains_iff.2 ⟨l, hl, BEq.symm hkl⟩
    rw [hj hi] at hment
    cases hment
  have hlookup (s : Scratch α) {ys : List α} (hy : ys.length = f.size) {y : α}
      (hyi : ys[i]? = some y) : Binding.ofList (s.bind f.keys ys) l = .ok y := by
    have hfst : (f.keys.zip ys).map (·.1) = f.keys := List.map_fst_zip (Nat.le_of_eq hy.symm)
    have hproper : Key.Proper ((f.keys.zip ys).map (·.1)) := by
      rw [hfst]
      exact h.proper
    have hmem : (k, y) ∈ f.keys.zip ys :=
      List.mem_of_getElem? (List.getElem?_zip_eq_some.2 ⟨hi, hyi⟩)
    have hpoint := h.agree (shape_vector hy) s he l hl
    exact hpoint.trans (Binding.ofList_eq (h.proper.fixed_of_contains (h.closed e he l hl))
      (hproper.find?_eq hmem hkl))
  have hlt : i < xs.length := hx.symm ▸ (List.getElem?_eq_some_iff.1 hi).1
  have hxi : xs[i]? = some xs[i] := List.getElem?_eq_getElem hlt
  have hxi' : (xs.set j x)[i]? = some xs[i] := by rw [List.getElem?_set_ne hij, hxi]
  rw [hlookup s hx hxi, hlookup s' (by rw [List.length_set, hx]) hxi']

theorem value_ok (s : Scratch α) : ∃ ys, (f.value (.vector xs) s).1 = .ok ys ∧
    f.exprs.mapM (·.evaluate (Binding.ofList (s.bind f.keys xs))) = .ok ys := by
  obtain ⟨ys, hy⟩ := h.values_ok (shape_vector hx)
  have hbound : f.exprs.mapM (fun e => e.evaluate (Binding.ofList (s.bind f.keys xs))) =
      f.exprs.mapM (·.evaluate (f.bindingAt (.vector xs))) :=
    mapM_congr fun e he =>
      e.evaluate_congr (h.honest e he).isLocal (h.agree (shape_vector hx) s he)
  refine ⟨ys, ?_, hbound.trans hy⟩
  rw [value_apply, if_pos (shape_vector hx)]
  exact hbound.trans hy

theorem jacobian_ok (s : Scratch α) (format : MatrixFormat) : ∃ items,
    (f.jacobian format (.vector xs) s).1 = .ok (f.matrix format items) ∧
    f.places.mapM (f.entry (Binding.ofList (s.bind f.keys xs))) = .ok items := by
  obtain ⟨rows, hr⟩ := h.slopes_ok (shape_vector hx)
  obtain ⟨items, hi, -⟩ := h.entries_ok (shape_vector hx) s hr
  refine ⟨items, ?_, hi⟩
  rw [jacobian_apply, if_pos (shape_vector hx)]
  exact congrArg (Except.map (f.matrix format)) hi

end Callable

theorem Callable.rowsLocal {f : Flat α} (h : f.Callable) : f.RowsLocal where
  total xs hx s := by
    obtain ⟨ys, hy, hm⟩ := h.value_ok hx s
    exact ⟨ys, hy, (length_of_mapM hm).trans h.square⟩
  value_row {xs} hx {i j} hij x s s' := by
    have hx' : (xs.set j x).length = f.size := by rw [List.length_set, hx]
    obtain ⟨ys, hy, hm⟩ := h.value_ok hx s
    obtain ⟨ys', hy', hm'⟩ := h.value_ok hx' s'
    refine ⟨ys, ys', hy, hy', ?_⟩
    cases he : f.exprs[i]? with
    | none =>
      have hle := List.getElem?_eq_none_iff.1 he
      rw [List.getElem?_eq_none ((length_of_mapM hm).symm ▸ hle),
        List.getElem?_eq_none ((length_of_mapM hm').symm ▸ hle)]
    | some e =>
      have hmem := List.mem_of_getElem? he
      obtain ⟨y, hyi, hev⟩ := getElem?_of_mapM hm he
      obtain ⟨y', hyi', hev'⟩ := getElem?_of_mapM hm' he
      have hsame := e.evaluate_congr (h.honest e hmem).isLocal
        (h.agree_set hx hmem (not_mentions_of_not_mem hij he) x s s')
      rw [hev, hev'] at hsame
      rw [hyi, hyi', Except.ok.inj hsame]
  slope_row {xs} hx {i j} hij x s s' format := by
    have hx' : (xs.set j x).length = f.size := by rw [List.length_set, hx]
    obtain ⟨items, hitems, hm⟩ := h.jacobian_ok hx s format
    obtain ⟨items', hitems', hm'⟩ := h.jacobian_ok hx' s' format
    refine ⟨_, _, hitems, hitems', row_of_stored format (nodup_of_entries hm)
      (nodup_of_entries hm') fun hi c hc => ?_⟩
    obtain ⟨e, he⟩ : ∃ e, f.exprs[i]? = some e := ⟨_, List.getElem?_eq_getElem (h.square ▸ hi)⟩
    obtain ⟨k, hk⟩ : ∃ k, f.keys[c]? = some k := ⟨_, List.getElem?_eq_getElem hc⟩
    have hmem := List.mem_of_getElem? he
    rw [stored_of_entries hm he hk, stored_of_entries hm' he hk,
      Expr.derivative_congr k e (h.honest e hmem).isLocal
        (h.agree_set hx hmem (not_mentions_of_not_mem hij he) x s s')]

end Flat

/-- An expression reads its variables and no others, and a row of a valid model the entries in its
pattern. -/
theorem rows_of_reads :
    (∀ e : Expr α, e.Local → e.ReadsVars ∧ ∀ pairs pairs' : List (Key × α),
      (Binding.ofList pairs).Agree (Binding.ofList pairs') e.vars →
        e.evaluate (Binding.ofList pairs) = e.evaluate (Binding.ofList pairs') ∧
        ∀ k, e.derivative k (Binding.ofList pairs) = e.derivative k (Binding.ofList pairs')) ∧
    (∀ e : Expr α, (∀ x ∈ e.nodes, x.isAlgebraic = true) → ∀ keys, e.keys = .ok keys →
      ∀ pairs, e.Asks keys pairs) ∧
    ∀ m : Model α, m.validate = .ok () →
      (∀ f ∈ m.residuals.items, ∀ x ∈ f.expr.nodes, x.isAlgebraic = true) →
      ∃ flat, Flat.ofPairs m.residuals m.pairing = .ok flat ∧ flat.size = m.pairing.size ∧
        m.places = .ok flat.places ∧ flat.RowsLocal := by
  refine ⟨fun e hl => ?_, fun e ha keys hk pairs => Expr.asks_of_algebraic ha hk pairs,
    fun m hv ha => ?_⟩
  · have h := Expr.readsVars_of_local hl
    refine ⟨h, fun pairs pairs' hagree => ?_⟩
    have hsame := Binding.sameOn_ofList hagree
    exact ⟨h.evaluate hsame, fun k => h.derivative k hsame⟩
  · have hv := Model.valid_of_validate hv
    obtain ⟨flat, hflat⟩ := hv.flat_ok
    have hh : ∀ f ∈ m.residuals.items, f.expr.Honest :=
      fun f hf => Expr.honest_of_algebraic (ha f hf)
    exact ⟨flat, hflat, (Model.sizes_of_flat hflat).2, Model.places_of_flat hflat,
      (hv.callable hh hflat).rowsLocal⟩

/-- Of `x - y` and `y`, the second row does not change with `x`, and needs no `x` to be bound. -/
theorem rows_of_twoPairs :
    let m := Operation.runAll (.empty "m" "" .empty .unsolved) twoPairs
    let g : Expr Float := .ref ⟨"y", []⟩
    m.validate = .ok () ∧ (∀ f ∈ m.residuals.items, ∀ x ∈ f.expr.nodes, x.isAlgebraic = true) ∧
      g.Local ∧ g.keys = .ok [⟨"y", []⟩] ∧
      (∃ flat : Flat Float, m.places = .ok flat.places ∧ (1, 0) ∉ flat.places ∧ ∀ x y z : Float,
        ∃ ys ys', (flat.value (.vector [x, y]) []).1 = .ok ys ∧
          (flat.value (.vector [z, y]) []).1 = .ok ys' ∧ ys[1]? = ys'[1]?) ∧
      (∃ y, g.evaluate (Binding.ofList [(⟨"y", []⟩, 2)]) = .ok y) ∧
      (∃ error : Error, error.kind = "KeyError" ∧
        g.evaluate (Binding.ofList [(⟨"x", []⟩, 2)]) = .error error) ∧
      g.evaluate (Binding.ofList [(⟨"x", []⟩, 2), (⟨"y", []⟩, 1)]) =
        g.evaluate (Binding.ofList [(⟨"y", []⟩, 1)]) := by
  intro m g
  obtain ⟨hreads, hasks, hrows⟩ := rows_of_reads (α := Float)
  have hv : m.validate = .ok () := eq_ok_of_isOk (by decide +kernel)
  have hitems : m.residuals.items = [⟨⟨"F", []⟩, .binary .sub (.ref ⟨"x", []⟩) (.ref ⟨"y", []⟩), ""⟩,
    ⟨⟨"G", []⟩, .ref ⟨"y", []⟩, ""⟩] := rfl
  have ha : ∀ f ∈ m.residuals.items, ∀ x ∈ f.expr.nodes, x.isAlgebraic = true := by
    rw [hitems]
    simp [Expr.nodes, Expr.isAlgebraic]
  have hga : ∀ x ∈ g.nodes, x.isAlgebraic = true := by simp [g, Expr.nodes, Expr.isAlgebraic]
  obtain ⟨flat, hflat, hsize, hplaces, hlocal⟩ := hrows m hv ha
  have hn : flat.size = 2 := hsize
  have hno : (1, 0) ∉ flat.places := by
    have hp : m.places = .ok [(0, 0), (0, 1), (1, 1)] := rfl
    rw [Except.ok.inj (hplaces.symm.trans hp)]
    decide
  have hagree : (Binding.ofList [(⟨"x", []⟩, (2 : Float)), (⟨"y", []⟩, 1)]).Agree
      (Binding.ofList [(⟨"y", []⟩, 1)]) g.vars := List.forall_mem_singleton.2 rfl
  refine ⟨hv, ha, trivial, rfl, ⟨flat, hplaces, hno, fun x y z => ?_⟩, ?_, ?_, ?_⟩
  · have hlength : [x, y].length = flat.size := hn.symm
    exact hlocal.value_row hlength hno z [] []
  · exact (hasks g hga _ rfl _).answers_iff.2 (by decide)
  · exact (hasks g hga _ rfl _).fails_iff.2 ⟨_, List.mem_cons_self, by decide⟩
  · exact ((hreads g trivial).2 _ _ hagree).1

end Equilibria
