import Equilibria.Proofs.LinearModels

/-!
# Assembling linear models

A linear model is assembled from an empty one: the variables are added as one family over a range,
and a rule that makes a linear combination of them for each row is paired with it. What is read from
plain values are the same rows, vector and bounds.
-/

namespace Equilibria

open Calls Fallible Model

/-! ## Families over a range -/

theorem rangeItems_upTo (n : Nat) :
    rangeItems 0 n 1 = (List.range n).map fun (i : Nat) => (i : Int) := by
  have hsize : rangeSize 0 n 1 = n := by
    simp [rangeSize]
  rw [rangeItems, hsize]
  simp only [zero_add, mul_one]

theorem product_upTo (n : Nat) :
    product [(rangeItems 0 n 1).map Value.int] =
      (List.range n).map fun (i : Nat) => [.int i] := by
  rw [product_singleton, rangeItems_upTo, List.map_map, List.map_map]
  rfl

namespace Model

variable {α β : Type} [Scalar α] {n : Nat}

def entryAt (xs : List β) : List Value → Except Error β
  | [.int i] => xs[i.toNat]?.elim (.error .noItem) .ok
  | _ => .error .wrongType

theorem entryAt_eq (xs : List β) {i : Nat} (h : i < xs.length) :
    entryAt xs [.int i] = .ok xs[i] := by
  rw [entryAt, Int.toNat_natCast, List.getElem?_eq_getElem h]
  rfl

def boundRule (xs : List Float) : Rule := fun i => do return .float (← entryAt xs i)

/-- The linear combination of a family for a row, and the entry of a vector. -/
def rowRule (rows : List (List Float)) (q : List Float) (g : Family Key) : ExprRule α := fun i => do
  let e ← Expr.dot ((← entryAt rows i).map .float) (g.toList.map fun k => .expr (.ref k))
  Operand.combine .add (.expr e) (.plain (.float (← entryAt q i)))

/-- Adds variables over the places of `q` and pairs them with a rule for the rows. -/
def assemble (rows : List (List Float)) (q lower upper : List Float) : Call (Model α) Paired := do
  let places ← addVariables (.text "x") [.range 0 q.length 1]
    { lower := boundRule lower, upper := boundRule upper }
  let g ← (← get).familyAt places
  complements (.rule (rowRule rows q g)) (.vars g) (.text "F")

def rowFamily (n : Nat) : Family Key :=
  ⟨"Variable", "x", (List.range n).map fun (i : Nat) => ([.int i], rowKey "x" i)⟩

end Model

namespace Exact

noncomputable def ofFloats (xs : List Float) : List Exact := xs.map Scalar.ofFloat

@[simp]
theorem length_ofFloats (xs : List Float) : (ofFloats xs).length = xs.length := List.length_map ..

theorem beq_zero_iff {x : Exact} : (x == 0) = true ↔ x = .real 0 := by
  rw [zero_eq]
  cases x with
  | real x => rw [beq_real, decide_eq_true_eq, Exact.real.injEq]
  | infinite | nan => exact ⟨(nomatch ·), (nomatch ·)⟩

end Exact

theorem Value.isZero_float (x : Float) :
    (Value.float x).isZero = ((Scalar.ofFloat x : Exact) == 0) := by
  rw [Bool.eq_iff_iff, Exact.beq_zero_iff, ← Mark.ofFloat_eq_zero, Value.isZero, Value.beq_iff]
  simp [Value.form]

namespace Model

variable {n : Nat} {rows : List (List Float)} {q lower upper : List Float}

/-! ## Variables -/

theorem areMembers_rowVariables (hl : lower.length = n) (hu : upper.length = n) :
    AreMembers "x" { lower := boundRule lower, upper := boundRule upper }
      ((List.range n).map fun (i : Nat) => [.int i])
      (rowVariables (Exact.ofFloats lower) (Exact.ofFloats upper)) := by
  refine List.forall₂_iff_get.2 ⟨by simp [rowVariables, hl, hu], fun i hi hi' => ?_⟩
  have hin : i < n := by simpa using hi
  have hlower := entryAt_eq lower (hl ▸ hin)
  have hupper := entryAt_eq upper (hu ▸ hin)
  simp only [List.get_eq_getElem, List.getElem_map, List.getElem_range, rowVariables,
    List.getElem_zipIdx, List.getElem_zip, Nat.zero_add, Exact.ofFloats]
  refine ⟨rfl, ⟨.float lower[i], ?_, rfl⟩, ⟨.float upper[i], ?_, rfl⟩, ⟨.float 0.0, rfl, ?_⟩, rfl,
    rfl⟩
  · simp only [boundRule, hlower]
    rfl
  · simp only [boundRule, hupper]
    rfl
  · exact congrArg Reading.ok Exact.ofFloat_zero

theorem firstTaken?_rowKeys (name : String) (n : Nat) :
    Registry.firstTaken? [] ((List.range n).map (rowKey name)) = .ok none := by
  have hproper := proper_rowKeys name n
  exact Registry.firstTaken?_of_free hproper.fixed ⟨hproper.distinct, fun _ _ => List.contains_nil⟩

theorem addVariables_rowVariables {m : Model Exact} (hs : m.status = .unsolved)
    (hm : m.registry = .empty) (hl : lower.length = n) (hu : upper.length = n) :
    ∃ r places, addVariables (.text "x") [.range 0 n 1]
        { lower := boundRule lower, upper := boundRule upper } m =
          (.ok places, { m with registry := r }) ∧
      r.entries = (rowVariables (Exact.ofFloats lower) (Exact.ofFloats upper)).map
        (fun v => (v.key, v)) ∧
      { m with registry := r }.familyAt places = .ok (rowFamily n) := by
  have hkeys : (rowVariables (Exact.ofFloats lower) (Exact.ofFloats upper)).map (·.key) =
      (List.range n).map (rowKey "x") := keys_rowVariables (by simpa using hl) (by simpa using hu)
  have hbatch := areMembers_rowVariables hl hu
  rw [← product_upTo] at hbatch
  have hmembers : m.members (.text "x") [.range 0 n 1]
      { lower := boundRule lower, upper := boundRule upper } = .ok _ :=
    members_eq (by decide) rfl hbatch
  obtain ⟨r, hr⟩ := Registry.addAll_ok (r := m.registry) (by
    rw [hm, hkeys]
    exact firstTaken?_rowKeys "x" n)
  refine ⟨r, m.placesOf (.text "x") (rowVariables (Exact.ofFloats lower) (Exact.ofFloats upper)),
    ?_, ?_, ?_⟩
  · rw [addVariables_apply hs hmembers, hr]
  · rw [Registry.entries_of_addAll hr, hm]
    rfl
  · rw [familyAt_placesOf (name_of_members hmembers) hr]
    have hitems := congrArg (List.map fun k => (k.index, k)) hkeys
    rw [List.map_map, List.map_map] at hitems
    exact congrArg (fun items => Except.ok (Family.mk "Variable" "x" items)) hitems

/-! ## Residuals -/

theorem toList_rowFamily (n : Nat) : (rowFamily n).toList = (List.range n).map (rowKey "x") := by
  rw [Family.toList, rowFamily, List.map_map]
  rfl

theorem indices_rowFamily (n : Nat) :
    (rowFamily n).indices = (List.range n).map fun (i : Nat) => [.int i] := by
  rw [Family.indices, rowFamily, List.map_map]
  rfl

theorem dot_floats {row : List Float} (h : row.length = n) :
    Expr.dot (row.map .float) ((rowFamily n).toList.map fun k => .expr (.ref k)) =
      .ok (.sum (rowTerms (Exact.ofFloats row))) := by
  have hcount : ((row.map Value.float).length !=
      ((rowFamily n).toList.map fun k => (.expr (.ref k) : Operand Exact)).length) = false := by
    simp [toList_rowFamily, h]
  have hzip : (row.map Value.float).zip
      ((rowFamily n).toList.map fun k => (.expr (.ref k) : Operand Exact)) =
        row.zipIdx.map fun e => (.float e.1, .expr (.ref (rowKey "x" e.2))) := by
    refine List.ext_getElem (by simp [toList_rowFamily, h]) fun i hi hi' => ?_
    simp [toList_rowFamily]
  have hkept : (fun t : Value × Operand Exact => !t.1.isZero) ∘
      (fun e : Float × Nat => (Value.float e.1, .expr (.ref (rowKey "x" e.2)))) =
        fun e => !((Scalar.ofFloat e.1 : Exact) == 0) :=
    funext fun e => congrArg not (Value.isZero_float e.1)
  have hterms : ∀ e ∈ row.zipIdx.filter (fun e => !((Scalar.ofFloat e.1 : Exact) == 0)),
      Expr.scaled (.float e.1) (.expr (.ref (rowKey "x" e.2)) : Operand Exact) =
        .ok (.binary .mul (.const (Scalar.ofFloat e.1)) (.ref (rowKey "x" e.2))) := fun _ _ => rfl
  have hrow : rowTerms (Exact.ofFloats row) =
      (row.zipIdx.filter fun e => !((Scalar.ofFloat e.1 : Exact) == 0)).map fun e =>
        .binary .mul (.const (Scalar.ofFloat e.1)) (.ref (rowKey "x" e.2)) := by
    rw [rowTerms, Exact.ofFloats, List.zipIdx_map, List.filter_map, List.map_map]
    rfl
  rw [Expr.dot, hcount, if_neg Bool.false_ne_true, hzip, List.filter_map, hkept, hrow]
  change (do return Expr.sum (← (List.map _ _).mapM fun t : Value × Operand Exact =>
    Expr.scaled t.1 t.2)) = _
  rw [List.mapM_map]
  exact congrArg (fun x => (do return Expr.sum (← x) : Except Error (Expr Exact)))
    (mapM_eq_map hterms)

theorem rowRule_eq (hr : rows.length = n) (hw : ∀ row ∈ rows, row.length = n) (hq : q.length = n)
    {i : Nat} (hi : i < n) : rowRule rows q (rowFamily n) [.int i] =
      .ok (.expr (rowResidual i (Exact.ofFloats rows[i]) (Scalar.ofFloat q[i])).expr) := by
  have hrow := entryAt_eq rows (hr ▸ hi)
  have hentry := entryAt_eq q (hq ▸ hi)
  have hdot := dot_floats (hw rows[i] (List.getElem_mem _))
  simp only [rowRule, hrow, hentry, hdot, bind, Except.bind]
  rfl

theorem residualsOf_rowRule (hr : rows.length = n) (hw : ∀ row ∈ rows, row.length = n)
    (hq : q.length = n) :
    residualsOf (.text "F") (rowRule rows q (rowFamily n)) (.text "") (rowFamily n).indices =
      .ok (rowResiduals (rows.map Exact.ofFloats) (Exact.ofFloats q)) := by
  rw [residualsOf, indices_rowFamily]
  refine forall₂_of_mapM.2 (List.forall₂_iff_get.2
    ⟨by simp [rowResiduals, hr, hq], fun i hi hi' => ?_⟩)
  have hin : i < n := by simpa using hi
  have hrule := rowRule_eq hr hw hq hin
  simp only [List.get_eq_getElem, List.getElem_map, List.getElem_range, rowResiduals,
    List.getElem_zipIdx, List.getElem_zip, Nat.zero_add, Exact.ofFloats,
    Key.make_text (show "F" ≠ "" by decide), hrule, bind, Except.bind]
  rfl

theorem complements_rowRule {m : Model Exact} (hs : m.status = .unsolved)
    (hk : m.registry.keys = (List.range n).map (rowKey "x")) (hm : m.residuals = .empty)
    (hp : m.pairing = .empty) (hr : rows.length = n) (hw : ∀ row ∈ rows, row.length = n)
    (hq : q.length = n) :
    ∃ r residuals t, complements (.rule (rowRule rows q (rowFamily n))) (.vars (rowFamily n))
        (.text "F") m = (.ok r, { m with residuals := residuals, pairing := t }) ∧
      residuals.items = rowResiduals (rows.map Exact.ofFloats) (Exact.ofFloats q) ∧
      t.pairs = (List.range n).map fun i => ⟨rowKey "F" i, rowKey "x" i⟩ := by
  have hkeys : (rowResiduals (rows.map Exact.ofFloats) (Exact.ofFloats q)).map (·.key) =
      (List.range n).map (rowKey "F") := keys_rowResiduals (by simpa using hr) (by simpa using hq)
  obtain ⟨residuals, hadd⟩ := Residuals.addAll_ok (r := m.residuals) (by
    rw [hm, hkeys]
    exact firstTaken?_rowKeys "F" n)
  have hproper := proper_rowKeys "x" n
  rw [← toList_rowFamily] at hproper hk
  obtain ⟨t, pairs, ht⟩ := Pairing.correspond_ok (t := m.pairing) (by simp [toList_rowFamily])
    (proper_rowKeys "F" n) hproper (by simp [hp, Pairing.residuals, Pairing.empty])
    (by simp [hp, Pairing.vars, Pairing.empty])
  have hfree : ∀ k ∈ (rowFamily n).toList, m.pairing.vars.contains k = false := by
    simp [hp, Pairing.vars, Pairing.empty]
  rw [← hkeys] at ht
  obtain ⟨r, happly⟩ := complements_rule (.text "F") hs
    (fun k h => Key.contains_of_mem (hk ▸ h)) hfree (residualsOf_rowRule hr hw hq) hadd ht
  refine ⟨r, residuals, t, happly, ?_, ?_⟩
  · rw [(Residuals.of_addAll hadd).1, hm]
    rfl
  · rw [(Pairing.pairs_of_correspond ht).1, hp, hkeys, toList_rowFamily, List.zipWith_map]
    simp [Pairing.empty, List.zipWith_self]

/-! ## The model -/

theorem assemble_eq (name : String) (hr : rows.length = n) (hw : ∀ row ∈ rows, row.length = n)
    (hq : q.length = n) (hl : lower.length = n) (hu : upper.length = n) :
    ∃ r, assemble rows q lower upper (.empty name "" .empty .unsolved) =
      (.ok r, ofRows name (rows.map Exact.ofFloats) (Exact.ofFloats q) (Exact.ofFloats lower)
        (Exact.ofFloats upper)) := by
  obtain ⟨hentries, hitems, hpairs⟩ : (ofRows name (rows.map Exact.ofFloats) (Exact.ofFloats q)
      (Exact.ofFloats lower) (Exact.ofFloats upper)).HasRows n _ _ _ _ :=
    hasRows_ofRows name (by simpa using hr) (by simpa using hq) (by simpa using hl)
      (by simpa using hu)
  obtain ⟨registry, places, hadd, hregistry, hfamily⟩ := addVariables_rowVariables
    (m := .empty name "" .empty .unsolved) rfl rfl hl hu
  have hkeys : registry.keys = (List.range n).map (rowKey "x") := by
    rw [Registry.keys, hregistry, List.map_map]
    exact keys_rowVariables (by simpa using hl) (by simpa using hu)
  obtain ⟨r, residuals, t, hpair, hresiduals, ht⟩ := complements_rowRule
    (m := { Model.empty name "" .empty .unsolved with registry := registry }) rfl hkeys rfl rfl hr
    hw hq
  refine ⟨r, ?_⟩
  rw [assemble, bind_apply, hq, hadd]
  simp only
  rw [get_bind, lift_bind_ok hfamily, hpair, Registry.ext (hregistry.trans hentries.symm),
    Residuals.ext (hresiduals.trans hitems.symm), Pairing.ext (ht.trans hpairs.symm)]
  rfl

end Model

/-! ## Values -/

/-- Bounds for `n` components: one number for all, or one for each. -/
inductive Grid.Broadcasts {α : Type} (n : Nat) (g : Grid α) : List α → Prop where
  | number (x : α) (shape : g.shape = []) (data : g.data = [x]) : Broadcasts n g (.replicate n x)
  | single (x : α) (shape : g.shape = [1]) (data : g.data = [x]) : Broadcasts n g (.replicate n x)
  | each (shape : g.shape = [n]) : Broadcasts n g g.data

namespace Model

variable {α : Type} {n : Nat}

theorem spread_of_broadcasts {g : Grid α} {xs : List α} (h : g.Broadcasts n xs) :
    spread n g = .ok xs := by
  obtain ⟨shape, data, fits⟩ := g
  cases h with
  | number x hs hd =>
    cases hs
    cases hd
    rfl
  | single x hs hd =>
    cases hs
    cases hd
    rfl
  | each hs =>
    cases hs
    unfold spread
    split
    · rename_i h _
      cases h
    · rename_i h hd
      cases h
      cases hd
      rfl
    · rename_i h _
      cases h
      exact if_pos BEq.rfl
    · rename_i h _ _
      exact absurd rfl (h n)

theorem spread_eq_ok_iff {g : Grid α} {xs : List α} :
    spread n g = .ok xs ↔ g.Broadcasts n xs := by
  refine ⟨fun h => ?_, spread_of_broadcasts⟩
  unfold spread at h
  split at h
  · rename_i hs hd
    cases h
    exact .number _ hs hd
  · rename_i hs hd
    cases h
    exact .single _ hs hd
  · rename_i hs _
    split at h
    · rename_i hk
      cases h
      exact .each (by rw [hs, eq_of_beq hk])
    · cases h
  · cases h

variable [Scalar α]

/-- Values are read as a matrix, a vector and bounds. -/
structure AreRead {n : ℕ} (m q l u : Value) (M : Matrix (Fin n) (Fin n) ℝ) (c : Fin n → ℝ)
    (lower upper : List Exact) : Prop where
  matrix : ∃ g : Grid Exact, readGrid m = .ok g ∧ g.shape = [n, n] ∧
    ∀ i j : Fin n, g.data[i.1 * n + j.1]? = some (.real (M i j))
  vector : ∃ g : Grid Exact, readGrid q = .ok g ∧ g.data = Exact.vector c
  lower : ∃ g : Grid Exact, readGrid l = .ok g ∧ g.Broadcasts n lower
  upper : ∃ g : Grid Exact, readGrid u = .ok g ∧ g.Broadcasts n upper

theorem rows_eq_matrix {g : Grid Exact} (hs : g.shape = [n, n]) {M : Matrix (Fin n) (Fin n) ℝ}
    (h : ∀ i j : Fin n, g.data[i.1 * n + j.1]? = some (.real (M i j))) :
    g.rows = Exact.matrix M := by
  have hrows : g.rows = (List.range n).map fun i => (g.data.drop (i * n)).take n := by
    rw [Grid.rows, hs]
  have hlength : g.data.length = n * n := by
    rw [g.fits, hs, entryCount, entryCount, entryCount, Nat.mul_one]
  rw [hrows]
  refine List.ext_getElem (by simp) fun i hi hi' => ?_
  have hin : i < n := by simpa using hi'
  have hfit : i * n + n ≤ n * n := by
    rw [← Nat.succ_mul]
    exact Nat.mul_le_mul_right n hin
  rw [List.getElem_map, List.getElem_range]
  refine List.ext_getElem ?_ fun j hj hj' => ?_
  · rw [List.length_take, List.length_drop, hlength]
    simp [Exact.matrix]
    omega
  · have hjn : j < n := by simpa [Exact.matrix] using hj'
    have hentry := h ⟨i, hin⟩ ⟨j, hjn⟩
    rw [List.getElem_take, List.getElem_drop]
    obtain ⟨_, hentry⟩ := List.getElem?_eq_some_iff.1 hentry
    rw [hentry]
    simp [Exact.matrix, Exact.vector]

theorem ofLinear_eq (name : String) {m q l u : Value} {M : Matrix (Fin n) (Fin n) ℝ}
    {c : Fin n → ℝ} {lower upper : List Exact} (h : AreRead m q l u M c lower upper) :
    ofLinear (.text name) m q l u =
      .ok (ofRows name (Exact.matrix M) (Exact.vector c) lower upper) := by
  obtain ⟨⟨gm, hm, hs, hM⟩, ⟨gq, hq, hc⟩, ⟨gl, hl, hlower⟩, gu, hu, hupper⟩ := h
  have hn : gq.data.length = n := by rw [hc, Exact.length_vector]
  have hshape : (gm.shape != [gq.data.length, gq.data.length]) = false := by
    rw [hn, hs, bne_self_eq_false]
  simp only [ofLinear, hm, hq, hl, hu, bind, Except.bind, hshape]
  rw [hn, spread_eq_ok_iff.2 hlower, spread_eq_ok_iff.2 hupper, rows_eq_matrix hs hM, hc]
  rfl

theorem ofLinear_misshapen (name : Value) {m q l u : Value} {gm gq : Grid α}
    (hm : readGrid m = .ok gm) (hq : readGrid q = .ok gq)
    (hs : gm.shape ≠ [gq.data.length, gq.data.length]) :
    (ofLinear name m q l u : Except Error (Model α)) =
      .error (.matrixShape gm.shape gq.data.length) := by
  have hshape : (gm.shape != [gq.data.length, gq.data.length]) = true := bne_iff_ne.2 hs
  simp only [ofLinear, hm, hq, bind, Except.bind, hshape]
  rfl

end Model

/-- The model of a matrix, a vector and bounds is linear, whether it is made of doubles or read from
plain values. Other shapes are refused. -/
theorem linear_of_matrix :
    (∀ (name : String) (n : ℕ) (M : Matrix (Fin n) (Fin n) ℝ) (c : Fin n → ℝ)
      (lower upper : List Exact), lower.length = n → upper.length = n →
        (ofRows name (Exact.matrix M) (Exact.vector c) lower upper).Linear M c lower upper) ∧
    (∀ (name : String) (n : ℕ) (rows : List (List Float)) (q lower upper : List Float),
      rows.length = n → (∀ row ∈ rows, row.length = n) → q.length = n → lower.length = n →
      upper.length = n → ∃ r, assemble rows q lower upper (.empty name "" .empty .unsolved) =
        (.ok r, ofRows name (rows.map Exact.ofFloats) (Exact.ofFloats q) (Exact.ofFloats lower)
          (Exact.ofFloats upper))) ∧
    (∀ (name : String) (m q l u : Value) (n : ℕ) (M : Matrix (Fin n) (Fin n) ℝ) (c : Fin n → ℝ)
      (lower upper : List Exact), AreRead m q l u M c lower upper →
        ofLinear (.text name) m q l u =
          .ok (ofRows name (Exact.matrix M) (Exact.vector c) lower upper)) ∧
    ∀ (name m q l u : Value) (gm gq : Grid Exact), readGrid m = .ok gm → readGrid q = .ok gq →
      gm.shape ≠ [gq.data.length, gq.data.length] →
        ∃ e, (ofLinear name m q l u : Except Error (Model Exact)) = .error e ∧
          e.kind = "ValueError" := by
  refine ⟨fun name n M c lower upper hl hu => ?_, fun name n rows q lower upper hr hw hq hl hu =>
    assemble_eq name hr hw hq hl hu, fun name m q l u n M c lower upper h => ofLinear_eq name h,
    fun name m q l u gm gq hm hq hs => ⟨_, ofLinear_misshapen name hm hq hs, rfl⟩⟩
  exact linear_of_hasRows rfl
    (hasRows_ofRows name (Exact.length_matrix M) (Exact.length_vector c) hl hu) hl hu

theorem areRead_exchange :
    AreRead (.list [.list [.int 0, .int 1], .list [.int 1, .int 0]]) (.list [.int 1, .int 0])
      (.int 0) (.list [.int 1]) exchange ![1, 0] [.real 0, .real 0] [.real 1, .real 1] := by
  have hzero : (Scalar.ofFloat (Float.ofInt 0) : Exact) = .real 0 := by
    rw [Exact.ofFloat_eq,
      show Decimal.Binary.ofFloat (Float.ofInt 0) = .finite false 0 (-1074) by decide +kernel]
    simp [Exact.ofBinary]
  have hone : (Scalar.ofFloat (Float.ofInt 1) : Exact) = .real 1 := by
    rw [Exact.ofFloat_eq,
      show Decimal.Binary.ofFloat (Float.ofInt 1) = .finite false (2 ^ 52) (-52) by decide +kernel]
    norm_num [Exact.ofBinary]
  refine ⟨⟨(⟨[2, 2], [Float.ofInt 0, Float.ofInt 1, Float.ofInt 1, Float.ofInt 0], rfl⟩ :
      Grid Float).map Scalar.ofFloat, by rfl, rfl, fun i j => ?_⟩,
    ⟨(Grid.vector [Float.ofInt 1, Float.ofInt 0]).map Scalar.ofFloat, by rfl, ?_⟩,
    ⟨(⟨[], [Float.ofInt 0], rfl⟩ : Grid Float).map Scalar.ofFloat, by rfl, ?_⟩,
    ⟨(Grid.vector [Float.ofInt 1]).map Scalar.ofFloat, by rfl, ?_⟩⟩
  · fin_cases i <;> fin_cases j <;> simp [Grid.map, hzero, hone, exchange]
  · simp [Grid.map, Grid.vector, Exact.vector, hzero, hone]
  · exact .number _ rfl (congrArg (fun x => [x]) hzero)
  · exact .single _ rfl (congrArg (fun x => [x]) hone)

/-- The matrix that exchanges two variables, and a list in the place of a matrix. -/
theorem linear_of_exchange :
    let bounds : List Exact := [.real 0, .real 0]
    let model :=
      ofRows "lcp" (Exact.matrix exchange) (Exact.vector ![1, 0]) bounds [.real 1, .real 1]
    model.Linear exchange ![1, 0] bounds [.real 1, .real 1] ∧
      (∃ r m, assemble [[0.0, 1.0], [1.0, 0.0]] [1.0, 0.0] [0.0, 0.0] [1.0, 1.0]
        (.empty "lcp" "" .empty .unsolved : Model Exact) = (.ok r, m)) ∧
      ofLinear (.text "lcp") (.list [.list [.int 0, .int 1], .list [.int 1, .int 0]])
        (.list [.int 1, .int 0]) (.int 0) (.list [.int 1]) = .ok model ∧
      ∃ e, (ofLinear (.text "lcp") (.list [.int 0, .int 1]) (.list [.int 1, .int 0]) (.int 0)
        (.list [.int 1]) : Except Error (Model Exact)) = .error e ∧ e.kind = "ValueError" := by
  intro bounds model
  obtain ⟨hlinear, hassembled, hread, hmisshapen⟩ := linear_of_matrix
  obtain ⟨r, hr⟩ := hassembled "lcp" 2 [[0.0, 1.0], [1.0, 0.0]] [1.0, 0.0] [0.0, 0.0] [1.0, 1.0] rfl
    (by simp) rfl rfl rfl
  refine ⟨hlinear "lcp" 2 exchange ![1, 0] bounds _ rfl rfl, ⟨r, _, hr⟩,
    hread _ _ _ _ _ 2 exchange ![1, 0] bounds _ areRead_exchange, ?_⟩
  exact hmisshapen _ _ _ _ _ ((Grid.vector [Float.ofInt 0, Float.ofInt 1]).map Scalar.ofFloat)
    ((Grid.vector [Float.ofInt 1, Float.ofInt 0]).map Scalar.ofFloat) (by rfl) (by rfl)
    (by simp [Grid.map, Grid.vector])

end Equilibria
