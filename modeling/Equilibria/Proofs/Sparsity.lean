import Equilibria.Model.Report
import Equilibria.Proofs.Equations
import Equilibria.Proofs.Exact
import Equilibria.Proofs.Histories
import Equilibria.Proofs.Pairs
import Equilibria.Proofs.Quotients
import Equilibria.Proofs.Zeros

/-!
# The pattern of the Jacobian

The places that can hold anything but zero are listed once each, row by row. So it makes no
difference whether the entries are written over each other or added up, but for the sign of a zero,
and both formats give the same matrix at every point.
-/

namespace Equilibria

open Calls Fallible

variable {α : Type}

namespace Flat

/-! ## The places -/

theorem lt_of_mem_places {f : Flat α} {place : Nat × Nat} (h : place ∈ f.places) :
    place.1 < f.exprs.length ∧ place.2 < f.size := by
  obtain ⟨e, k, he, hk, -⟩ := mem_places.1 (show (place.1, place.2) ∈ f.places from h)
  exact ⟨(List.getElem?_eq_some_iff.1 he).1, (List.getElem?_eq_some_iff.1 hk).1⟩

theorem length_places_le (f : Flat α) : f.places.length ≤ f.exprs.length * f.size := by
  have hsub : f.places ⊆ List.range f.exprs.length ×ˢ List.range f.size := by
    intro place h
    obtain ⟨hi, hj⟩ := lt_of_mem_places h
    exact List.mem_product.2 ⟨List.mem_range.2 hi, List.mem_range.2 hj⟩
  have h := (List.subperm_of_subset f.nodup_places hsub).length_le
  rwa [List.length_product, List.length_range, List.length_range] at h

/-! ## Two ways to make a matrix -/

/-- The entry of a matrix at a place. -/
def cell (rows : List (List α)) (i j : Nat) : Option α := rows[i]?.bind (·[j]?)

/-- A matrix of `n` rows and columns. -/
structure Square (n : Nat) (matrix : List (List α)) : Prop where
  height : matrix.length = n
  width : ∀ row ∈ matrix, row.length = n

theorem Square.ext {n : Nat} {rows rows' : List (List α)} (h : Square n rows) (h' : Square n rows')
    (hcell : ∀ i j, i < n → j < n → cell rows i j = cell rows' i j) : rows = rows' := by
  refine List.ext_getElem (h.height.trans h'.height.symm) fun i hi hi' => ?_
  have hl := h.width _ (List.getElem_mem hi)
  have hl' := h'.width _ (List.getElem_mem hi')
  refine List.ext_getElem (hl.trans hl'.symm) fun j hj hj' => ?_
  have hc := hcell i j (h.height ▸ hi) (hl ▸ hj)
  rw [cell, cell, List.getElem?_eq_getElem hi, List.getElem?_eq_getElem hi', Option.bind_some,
    Option.bind_some, List.getElem?_eq_getElem hj, List.getElem?_eq_getElem hj'] at hc
  exact Option.some.inj hc

theorem Square.table {n : Nat} (x : Nat → Nat → α) :
    Square n ((List.range n).map fun i => (List.range n).map (x i)) := by
  refine ⟨by rw [List.length_map, List.length_range], fun row h => ?_⟩
  obtain ⟨i, -, rfl⟩ := List.mem_map.1 h
  rw [List.length_map, List.length_range]

theorem cell_table {n : Nat} (x : Nat → Nat → α) {i j : Nat} (hi : i < n) (hj : j < n) :
    cell ((List.range n).map fun i => (List.range n).map (x i)) i j = some (x i j) := by
  rw [cell, List.getElem?_map, List.getElem?_range hi, Option.map_some, Option.bind_some,
    List.getElem?_map, List.getElem?_range hj, Option.map_some]

def isAt (i j : Nat) (e : Nat × Nat × α) : Bool := e.1 == i && e.2.1 == j

theorem isAt_iff {i j : Nat} {e : Nat × Nat × α} : isAt i j e = true ↔ (e.1, e.2.1) = (i, j) := by
  simp [isAt]

theorem find?_rest {i j : Nat} {e : Nat × Nat × α} {items : List (Nat × Nat × α)}
    (h : ((e :: items).map fun e => (e.1, e.2.1)).Nodup) (he : isAt i j e = true) :
    items.find? (isAt i j) = none := by
  rw [List.map_cons, List.nodup_cons] at h
  rw [List.find?_eq_none]
  intro d hd hat
  rw [isAt_iff] at he hat
  exact h.1 (by rw [he, ← hat]; exact List.mem_map_of_mem hd)

def stored (items : List (Nat × Nat × α)) (i j : Nat) : Option α :=
  (items.find? (isAt i j)).map (·.2.2)

/-- Puts an entry in its place, in place of what stands there. -/
def overwrite (rows : List (List α)) (e : Nat × Nat × α) : List (List α) :=
  rows.modify e.1 fun row => row.set e.2.1 e.2.2

theorem Square.overwrite {n : Nat} {rows : List (List α)} (h : Square n rows)
    (e : Nat × Nat × α) : Square n (overwrite rows e) := by
  refine ⟨by rw [Flat.overwrite, List.length_modify, h.height], fun row hr => ?_⟩
  obtain ⟨i, hi⟩ := List.getElem?_of_mem hr
  rw [Flat.overwrite, List.getElem?_modify] at hi
  obtain ⟨old, hold, rfl⟩ := Option.map_eq_some_iff.1 hi
  have hlen := h.width old (List.mem_of_getElem? hold)
  split
  · rw [List.length_set, hlen]
  · exact hlen

theorem cell_overwrite (rows : List (List α)) (e : Nat × Nat × α) (i j : Nat) :
    cell (overwrite rows e) i j =
      if isAt i j e then (cell rows i j).map fun _ => e.2.2 else cell rows i j := by
  rw [cell, cell, overwrite, List.getElem?_modify, isAt]
  cases rows[i]? with
  | none => simp
  | some row =>
    by_cases hi : e.1 = i
    · by_cases hj : e.2.1 = j
      · simp only [hi, hj, if_true, Option.map_eq_map, Option.map_some, Option.bind_some,
          BEq.rfl, Bool.and_self, List.getElem?_set_self']
        rfl
      · simp [hi, hj]
    · simp [hi]

theorem cell_overwrites {items : List (Nat × Nat × α)}
    (h : (items.map fun e => (e.1, e.2.1)).Nodup) (rows : List (List α)) (i j : Nat) :
    cell (items.foldl overwrite rows) i j =
      (cell rows i j).map fun d => (stored items i j).elim d id := by
  induction items generalizing rows with
  | nil => simp [stored]
  | cons e rest ih =>
    rw [List.foldl_cons, ih (List.nodup_cons.1 h).2, cell_overwrite, stored, stored,
      List.find?_cons]
    cases he : isAt i j e with
    | true =>
      rw [find?_rest h he, if_pos rfl, Option.map_map]
      rfl
    | false => rfl

variable [Scalar α]

theorem sum_eq {i j : Nat} {items : List (Nat × Nat × α)}
    (h : (items.map fun e => (e.1, e.2.1)).Nodup) (acc : α) :
    items.foldl (fun acc e => if isAt i j e then acc + e.2.2 else acc) acc =
      (stored items i j).elim acc (acc + ·) := by
  induction items generalizing acc with
  | nil => rfl
  | cons e rest ih =>
    rw [List.foldl_cons, ih (List.nodup_cons.1 h).2, stored, stored, List.find?_cons]
    cases he : isAt i j e with
    | true =>
      rw [find?_rest h he]
      rfl
    | false => rfl

def zeros (n : Nat) : List (List α) := (List.range n).map fun _ => (List.range n).map fun _ => 0

omit [Scalar α] in
theorem find?_row {i j : Nat} {items : List (Nat × Nat × α)} :
    (items.filter (·.1 == i)).find? (·.2.1 == j) = items.find? (isAt i j) := by
  rw [List.find?_filter]
  congr 1
  funext e
  simp only [isAt, Bool.decide_and, Bool.decide_eq_true]

theorem fill_eq_table (n : Nat) (items : List (Nat × Nat × α)) : fill n items =
    (List.range n).map fun i => (List.range n).map fun j => (stored items i j).elim 0 id := by
  simp only [fill, find?_row, stored, Option.elim_map]
  rfl

theorem overwrites_eq_fill {n : Nat} {items : List (Nat × Nat × α)}
    (h : (items.map fun e => (e.1, e.2.1)).Nodup) :
    items.foldl overwrite (zeros n) = fill n items := by
  have hsquare : ∀ (items : List (Nat × Nat × α)) (rows : List (List α)), Square n rows →
      Square n (items.foldl overwrite rows) := by
    intro items
    induction items with
    | nil => exact fun rows hr => hr
    | cons e rest ih => exact fun rows hr => ih _ (hr.overwrite e)
  rw [fill_eq_table]
  refine (hsquare items _ (.table _)).ext (.table _) fun i j hi hj => ?_
  rw [cell_overwrites h, cell_table _ hi hj, cell_table _ hi hj]
  rfl

theorem entries_eq_table (n : Nat) {items : List (Nat × Nat × α)}
    (h : (items.map fun e => (e.1, e.2.1)).Nodup) : (Jacobian.entries n items).toRows =
      (List.range n).map fun i => (List.range n).map fun j =>
        (stored items i j).elim 0 (0 + ·) := by
  have hentry (i j : Nat) : Jacobian.entryAt (items.filter fun e => e.1 == i) i j =
      (stored items i j).elim 0 (0 + ·) := by
    have hrow : ((items.filter fun e => e.1 == i).map fun e => (e.1, e.2.1)).Nodup :=
      (List.filter_sublist.map _).nodup h
    have hsum : Jacobian.entryAt (items.filter fun e => e.1 == i) i j = _ := sum_eq hrow 0
    have hfind : (items.filter fun e => e.1 == i).find? (isAt i j) = items.find? (isAt i j) := by
      rw [List.find?_filter]
      congr 1
      funext e
      rw [Bool.eq_iff_iff]
      simp [isAt]
    rw [hsum, stored, hfind, stored]
  simp only [← hentry]
  rfl

/-! ## Both formats -/

/-- The partial derivatives that fill the matrix exist. -/
def Differentiable (f : Flat α) (b : Binding α) : Prop :=
  ∀ {i j : Nat} {e : Expr α} {k : Key}, f.exprs[i]? = some e → f.keys[j]? = some k →
    e.mentions k = true → ∃ d, e.derivative k b = .ok d

theorem Differentiable.entries_ok {f : Flat α} {b : Binding α} (h : f.Differentiable b) :
    ∃ items, f.places.mapM (f.entry b) = .ok items := by
  refine mapM_ok_of_forall fun place hm => ?_
  obtain ⟨e, k, he, hk, hment⟩ := mem_places.1 (show (place.1, place.2) ∈ f.places from hm)
  obtain ⟨d, hd⟩ := h he hk hment
  exact ⟨(place.1, place.2, d), by rw [entry, he, hk]; simp only [hd]; rfl⟩

theorem nodup_of_entries {f : Flat α} {b : Binding α} {items : List (Nat × Nat × α)}
    (h : f.places.mapM (f.entry b) = .ok items) : (items.map fun e => (e.1, e.2.1)).Nodup := by
  rw [places_of_entries h]
  exact f.nodup_places

theorem derivative_of_entries {f : Flat α} {b : Binding α} {items : List (Nat × Nat × α)}
    (h : f.places.mapM (f.entry b) = .ok items) {y : Nat × Nat × α} (hy : y ∈ items)
    {e : Expr α} {k : Key} (he : f.exprs[y.1]? = some e) (hk : f.keys[y.2.1]? = some k) :
    e.derivative k b = .ok y.2.2 := by
  obtain ⟨place, -, hentry⟩ := mem_of_mapM h hy
  unfold entry at hentry
  split at hentry
  · rename_i e' k' he' hk'
    obtain ⟨d, hd, hy'⟩ := bind_eq_ok.1 hentry
    cases hy'
    cases he.symm.trans he'
    cases hk.symm.trans hk'
    exact hd
  · cases hentry

theorem differentiable_of_entries {f : Flat α} {b : Binding α} {items : List (Nat × Nat × α)}
    (h : f.places.mapM (f.entry b) = .ok items) : f.Differentiable b := by
  intro i j e k he hk hment
  have hplace : (i, j) ∈ f.places := mem_places.2 ⟨e, k, he, hk, hment⟩
  rw [← places_of_entries h] at hplace
  obtain ⟨y, hy, hat⟩ := List.mem_map.1 hplace
  obtain ⟨rfl, rfl⟩ := Prod.mk.inj hat
  exact ⟨_, derivative_of_entries h hy he hk⟩

theorem stored_of_entries {f : Flat α} {b : Binding α} {items : List (Nat × Nat × α)}
    (h : f.places.mapM (f.entry b) = .ok items) {i j : Nat} {e : Expr α} {k : Key}
    (he : f.exprs[i]? = some e) (hk : f.keys[j]? = some k) :
    stored items i j = if e.mentions k then (e.derivative k b).toOption else none := by
  rw [stored]
  cases hfind : items.find? (isAt i j) with
  | some y =>
    have hy := List.mem_of_find?_eq_some hfind
    obtain ⟨rfl, rfl⟩ := Prod.mk.inj (isAt_iff.1 (List.find?_some hfind))
    have hplace : (y.1, y.2.1) ∈ f.places := by
      rw [← places_of_entries h]
      exact List.mem_map_of_mem hy
    obtain ⟨e', k', he', hk', hment⟩ := mem_places.1 hplace
    cases he.symm.trans he'
    cases hk.symm.trans hk'
    rw [if_pos hment, derivative_of_entries h hy he hk]
    rfl
  | none =>
    have hment : ¬ e.mentions k = true := by
      intro hment
      have hplace : (i, j) ∈ f.places := mem_places.2 ⟨e, k, he, hk, hment⟩
      rw [← places_of_entries h] at hplace
      obtain ⟨y, hy, hat⟩ := List.mem_map.1 hplace
      exact List.find?_eq_none.1 hfind y hy (isAt_iff.2 hat)
    rw [if_neg hment]
    rfl

/-- Rows hold the derivatives where an expression mentions a variable, and zeros elsewhere. -/
def Holds (f : Flat α) (b : Binding α) (rows : List (List α)) : Prop :=
  ∀ {i j : Nat} {e : Expr α} {k : Key}, f.exprs[i]? = some e → f.keys[j]? = some k →
    ∃ d, cell rows i j = some d ∧ if e.mentions k then e.derivative k b = .ok d else d = 0

theorem holds_fill {f : Flat α} (hn : f.exprs.length = f.size) {b : Binding α}
    {items : List (Nat × Nat × α)} (h : f.places.mapM (f.entry b) = .ok items) :
    f.Holds b (fill f.size items) := by
  intro i j e k he hk
  have hi : i < f.size := hn ▸ (List.getElem?_eq_some_iff.1 he).1
  have hj : j < f.size := (List.getElem?_eq_some_iff.1 hk).1
  rw [fill_eq_table, cell_table _ hi hj, stored_of_entries h he hk]
  refine ⟨_, rfl, ?_⟩
  cases hment : e.mentions k with
  | true =>
    obtain ⟨d, hd⟩ := differentiable_of_entries h he hk hment
    rw [hd]
    rfl
  | false => rfl

/-- The same error, or matrices with the same entries. -/
inductive SameMatrix (same : α → α → Prop) :
    Except Error (List (List α)) → Except Error (List (List α)) → Prop
  | error (e : Error) : SameMatrix same (.error e) (.error e)
  | ok {rows rows' : List (List α)} (entries : List.Forall₂ (List.Forall₂ same) rows rows') :
    SameMatrix same (.ok rows) (.ok rows')

/-- Both formats answer alike at a point. -/
structure FormatsAgree (same : α → α → Prop) (f : Flat α) (point : Grid α) (s : Scratch α) :
    Prop where
  scratch : (f.jacobian .dense point s).2 = (f.jacobian .entries point s).2
  matrix : SameMatrix same ((f.jacobian .entries point s).1.map Jacobian.toRows)
    ((f.jacobian .dense point s).1.map Jacobian.toRows)
  box : ∀ equations, SameMatrix same
    ((f.jacobian .entries point s).1 >>= Jacobian.ofBox equations)
    ((f.jacobian .dense point s).1 >>= Jacobian.ofBox equations)
  filled : point.shape = [f.size] →
    f.Differentiable (Binding.ofList (s.bind f.keys point.data)) →
    ∃ rows items, (f.jacobian .dense point s).1 = .ok (.dense rows) ∧
      (f.jacobian .entries point s).1 = .ok (.entries f.size items) ∧
      List.Forall₂ (List.Forall₂ fun x d => x = 0 + d ∨ x = d)
        (Jacobian.entries f.size items).toRows rows ∧
      items.foldl overwrite (zeros f.size) = rows ∧
      Square f.size rows ∧ f.Holds (Binding.ofList (s.bind f.keys point.data)) rows

omit [Scalar α] in
theorem forall₂_table {same : α → α → Prop} {n : Nat} {x y : Nat → Nat → α}
    (h : ∀ i j, same (x i j) (y i j)) :
    List.Forall₂ (List.Forall₂ same) ((List.range n).map fun i => (List.range n).map (x i))
      ((List.range n).map fun i => (List.range n).map (y i)) := by
  simp only [List.forall₂_map_left_iff, List.forall₂_map_right_iff]
  exact List.forall₂_same.2 fun i _ => List.forall₂_same.2 fun j _ => h i j

variable {same : α → α → Prop}

/-- A sum from zero has one summand at each place, or none. -/
theorem summed_entries (n : Nat) {items : List (Nat × Nat × α)}
    (h : (items.map fun e => (e.1, e.2.1)).Nodup) :
    List.Forall₂ (List.Forall₂ fun x d => x = 0 + d ∨ x = d) (Jacobian.entries n items).toRows
      (fill n items) := by
  rw [entries_eq_table n h, fill_eq_table]
  refine forall₂_table fun i j => ?_
  cases stored items i j with
  | none => exact .inr rfl
  | some d => exact .inl rfl

theorem same_of_summed (hsame : Scalar.Sameness same) {rows rows' : List (List α)}
    (h : List.Forall₂ (List.Forall₂ fun x d => x = 0 + d ∨ x = d) rows rows') :
    List.Forall₂ (List.Forall₂ same) rows rows' := by
  refine h.imp fun _ _ => List.Forall₂.imp fun x d hx => ?_
  rcases hx with rfl | rfl
  · exact hsame.zero_add d
  · exact hsame.refl x

theorem same_getD {β : Type} {related : β → β → Prop} {xs ys : List β}
    (h : List.Forall₂ related xs ys) {d : β} (hd : related d d) (i : Nat) :
    related (xs.getD i d) (ys.getD i d) := by
  induction h generalizing i with
  | nil => exact hd
  | cons hxy _ ih =>
    cases i with
    | zero => exact hxy
    | succ i => exact ih i

theorem sameMatrix_ofBox (hsame : Scalar.Sameness same) {j l : Jacobian α} {k : Nat}
    (hj : Square k j.toRows) (hj' : Square k l.toRows)
    (h : List.Forall₂ (List.Forall₂ same) j.toRows l.toRows) (equations : List (Row α)) :
    SameMatrix same (Jacobian.ofBox equations j) (Jacobian.ofBox equations l) := by
  unfold Jacobian.ofBox
  simp only [Jacobian.fits_eq hj.height hj.width, Jacobian.fits_eq hj'.height hj'.width]
  split
  · refine .ok ?_
    rw [hj.height, hj'.height, List.forall₂_map_left_iff, List.forall₂_map_right_iff]
    refine List.forall₂_same.2 fun (e, i) _ => ?_
    have hrow := same_getD h (d := []) .nil (if k == 1 then 0 else i)
    rw [List.forall₂_map_left_iff, List.forall₂_map_right_iff]
    refine List.forall₂_same.2 fun c _ => hsame.add _ (hsame.mul _ ?_)
    rw [hrow.length_eq]
    exact same_getD hrow (hsame.refl 0) _
  · exact .error _

theorem formatsAgree {f : Flat α} (hn : f.exprs.length = f.size) (hsame : Scalar.Sameness same)
    (point : Grid α) (s : Scratch α) : f.FormatsAgree same point s := by
  by_cases hp : point.shape = [f.size]
  · have happly (format : MatrixFormat) : f.jacobian format point s = _ :=
      (f.jacobian_apply format point s).trans (if_pos hp)
    cases hi : f.places.mapM (f.entry (Binding.ofList (s.bind f.keys point.data))) with
    | error e =>
      simp only [hi] at happly
      refine ⟨by rw [happly, happly], ?_, fun _ => ?_, fun _ h => ?_⟩
      · rw [happly, happly]
        exact .error e
      · rw [happly, happly]
        exact .error e
      · obtain ⟨items, hok⟩ := h.entries_ok
        cases hi.symm.trans hok
    | ok items =>
      have honce := nodup_of_entries hi
      have hrows := same_of_summed hsame (summed_entries f.size honce)
      have hsquare : Square f.size (fill f.size items) := by
        rw [fill_eq_table]
        exact .table _
      have hsquare' : Square f.size (Jacobian.entries f.size items).toRows := by
        rw [entries_eq_table f.size honce]
        exact .table _
      simp only [hi] at happly
      refine ⟨by rw [happly, happly], ?_, fun equations => ?_, fun _ _ => ?_⟩
      · rw [happly, happly]
        exact .ok hrows
      · rw [happly, happly]
        exact sameMatrix_ofBox (l := .dense _) hsame hsquare' hsquare hrows equations
      · exact ⟨fill f.size items, items, by rw [happly]; rfl, by rw [happly]; rfl,
          summed_entries f.size honce, overwrites_eq_fill honce, hsquare, holds_fill hn hi⟩
  · have happly (format : MatrixFormat) : f.jacobian format point s = _ :=
      (f.jacobian_apply format point s).trans (if_neg hp)
    refine ⟨by rw [happly, happly], ?_, fun _ => ?_, fun h => absurd h hp⟩
    · rw [happly, happly]
      exact .error _
    · rw [happly, happly]
      exact .error _

end Flat

/-! ## Models -/

namespace Model

theorem places_of_flat {m : Model α} {flat : Flat α}
    (hflat : Flat.ofPairs m.residuals m.pairing = .ok flat) : m.places = .ok flat.places := by
  rw [places, hflat]
  rfl

/-- The places of a model are listed once each, where a residual mentions a variable. -/
structure Pattern (m : Model α) (places : List (Nat × Nat)) : Prop where
  increasing : places.Pairwise Precedes
  once : places.Nodup
  mem_iff : ∀ i j, (i, j) ∈ places ↔ ∃ p q f, m.pairing.pairs[i]? = some p ∧
    m.pairing.pairs[j]? = some q ∧ m.residuals.get p.res = .ok f ∧ f.expr.mentions q.var = true
  bounded : places.length ≤ m.pairing.size * m.pairing.size

theorem pattern_of_flat {m : Model α} {flat : Flat α}
    (hflat : Flat.ofPairs m.residuals m.pairing = .ok flat) : m.Pattern flat.places where
  increasing := flat.increasing_places
  once := flat.nodup_places
  mem_iff i j := by
    rw [Flat.mem_places]
    simp only [exprs_iff hflat, keys_iff hflat]
    constructor
    · rintro ⟨_, _, ⟨p, f, hp, hf, rfl⟩, ⟨q, hq, rfl⟩, hment⟩
      exact ⟨p, q, f, hp, hq, hf, hment⟩
    · rintro ⟨p, q, f, hp, hq, hf, hment⟩
      exact ⟨_, _, ⟨p, f, hp, hf, rfl⟩, ⟨q, hq, rfl⟩, hment⟩
  bounded := by
    obtain ⟨hexprs, hsize⟩ := sizes_of_flat hflat
    have h := flat.length_places_le
    rwa [hexprs, hsize] at h

end Model

variable [Scalar α]

theorem Model.density_of_flat {m : Model α} {flat : Flat α}
    (hflat : Flat.ofPairs m.residuals m.pairing = .ok flat) :
    ∃ s, m.statistics = .ok s ∧ s.nonzeros = flat.places.length ∧ 0 ≤ s.density ∧
      s.density ≤ 1 := by
  rw [statistics, places_of_flat hflat]
  refine ⟨_, rfl, rfl, ?_⟩
  by_cases hn : m.pairing.size = 0
  · simp only [hn, BEq.rfl, if_true]
    exact ⟨by decide +kernel, by decide +kernel⟩
  · have hsize : ¬ (m.pairing.size == 0) = true := by simpa using hn
    have hpos : 0 < m.pairing.size * m.pairing.size :=
      Nat.mul_pos (Nat.pos_of_ne_zero hn) (Nat.pos_of_ne_zero hn)
    simp only [if_neg hsize]
    exact Double.quotient_range hpos (pattern_of_flat hflat).bounded

/-- The places of the Jacobian of a model, and what both formats make of them. -/
structure Model.Formats (same : α → α → Prop) (m : Model α) (flat : Flat α) : Prop where
  pairs : Flat.ofPairs m.residuals m.pairing = .ok flat
  places : m.places = .ok flat.places
  pattern : m.Pattern flat.places
  density : ∃ s, m.statistics = .ok s ∧ s.nonzeros = flat.places.length ∧ 0 ≤ s.density ∧
    s.density ≤ 1
  agree : ∀ point scratch, flat.FormatsAgree same point scratch

theorem Operation.formats_runAll {same : α → α → Prop} (hsame : Scalar.Sameness same)
    (name description : String) (options : Options) (status : Status) (ops : List (Operation α)) :
    ∃ flat, Model.Formats same (runAll (.empty name description options status) ops) flat := by
  obtain ⟨flat, hflat⟩ := Model.flat_ok
    (linked_runAll (Model.linked_empty name description options status) ops)
  obtain ⟨hexprs, hsize⟩ := Model.sizes_of_flat hflat
  exact ⟨flat, {
    pairs := hflat
    places := Model.places_of_flat hflat
    pattern := Model.pattern_of_flat hflat
    density := Model.density_of_flat hflat
    agree := Flat.formatsAgree (hexprs.trans hsize.symm) hsame }⟩

theorem Exact.sameness_eq : Scalar.Sameness (Eq : Exact → Exact → Prop) where
  refl _ := rfl
  zero_add := zero_add_eq
  add c x y h := by rw [h]
  mul c x y h := by rw [h]

/-- In every run the places of the Jacobian are listed once each, and at every point both formats
give the same matrix. -/
theorem formats_of_run (name description : String) (options : Options) (status : Status) :
    (∀ ops : List (Operation Float), ∃ flat, Model.Formats Double.Same
      (Operation.runAll (.empty name description options status) ops) flat) ∧
    (∀ ops : List (Operation Exact), ∃ flat, Model.Formats Eq
      (Operation.runAll (.empty name description options status) ops) flat) ∧
    ∀ (α : Type) [Scalar α] (same : α → α → Prop), Scalar.Sameness same →
      ∀ ops : List (Operation α), ∃ flat, Model.Formats same
        (Operation.runAll (.empty name description options status) ops) flat :=
  ⟨Operation.formats_runAll Double.sameness_same name description options status,
    Operation.formats_runAll Exact.sameness_eq name description options status,
    fun _ _ _ hsame => Operation.formats_runAll hsame name description options status⟩

end Equilibria
