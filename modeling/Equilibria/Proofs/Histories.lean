import Equilibria.Proofs.Callbacks
import Equilibria.Proofs.Changes
import Equilibria.Proofs.Expressions
import Equilibria.Proofs.Solves

/-!
# Callbacks through a history

The callbacks of a valid model compute the values and the derivatives of its residuals, whatever
has happened since they were built: other calls, calls that failed, and changes of the model.
-/

namespace Equilibria

open Calls Fallible

variable {α : Type}

/-! ## Places -/

/-- One place comes before another one, row by row. -/
def Precedes (p q : Nat × Nat) : Prop := p.1 < q.1 ∨ p.1 = q.1 ∧ p.2 < q.2

theorem Precedes.ne {p q : Nat × Nat} (h : Precedes p q) : p ≠ q := by
  rintro rfl
  rcases h with h | h
  · exact Nat.lt_irrefl _ h
  · exact Nat.lt_irrefl _ h.2

namespace Flat

theorem mem_columns {keys : List Key} {e : Expr α} {j : Nat} :
    j ∈ columns keys e ↔ ∃ k, keys[j]? = some k ∧ e.mentions k = true := by
  simp only [columns, List.mem_map, List.mem_filter, List.mem_zipIdx_iff_getElem?]
  constructor
  · rintro ⟨⟨k, j⟩, ⟨hk, hm⟩, rfl⟩
    exact ⟨k, hk, hm⟩
  · rintro ⟨k, hk, hm⟩
    exact ⟨(k, j), ⟨hk, hm⟩, rfl⟩

theorem mem_places {f : Flat α} {i j : Nat} :
    (i, j) ∈ f.places ↔
      ∃ e k, f.exprs[i]? = some e ∧ f.keys[j]? = some k ∧ e.mentions k = true := by
  simp only [places, List.mem_flatMap, List.mem_map, Prod.mk.injEq]
  constructor
  · rintro ⟨⟨e, i⟩, he, j, hj, rfl, rfl⟩
    obtain ⟨k, hk, hm⟩ := mem_columns.1 hj
    exact ⟨e, k, List.mem_zipIdx_iff_getElem?.1 he, hk, hm⟩
  · rintro ⟨e, k, he, hk, hm⟩
    exact ⟨(e, i), List.mem_zipIdx_iff_getElem?.2 he, j, mem_columns.2 ⟨k, hk, hm⟩, rfl, rfl⟩

theorem increasing_columns (keys : List Key) (e : Expr α) : (columns keys e).Pairwise (· < ·) := by
  have hs : ((keys.zipIdx.filter fun p => e.mentions p.1).map (·.2)).Sublist
      (List.range' 0 keys.length) := by
    rw [← List.zipIdx_map_snd 0 keys]
    exact List.filter_sublist.map _
  exact List.Pairwise.sublist hs List.pairwise_lt_range'

theorem increasing_places (f : Flat α) : f.places.Pairwise Precedes := by
  rw [places, List.pairwise_flatMap]
  constructor
  · intro p _
    refine List.pairwise_map.2 ((increasing_columns f.keys p.1).imp ?_)
    exact fun hj => .inr ⟨rfl, hj⟩
  · have hi : (f.exprs.zipIdx.map (·.2)).Pairwise (· < ·) := by
      rw [List.zipIdx_map_snd]
      exact List.pairwise_lt_range'
    refine (List.pairwise_map.1 hi).imp ?_
    intro p q hpq x hx y hy
    obtain ⟨_, -, rfl⟩ := List.mem_map.1 hx
    obtain ⟨_, -, rfl⟩ := List.mem_map.1 hy
    exact .inl hpq

theorem nodup_places (f : Flat α) : f.places.Nodup := f.increasing_places.imp Precedes.ne

end Flat

/-! ## Entries of matrices -/

variable [Scalar α]

/-- Items list a matrix: no place twice, and nothing but zeros elsewhere. -/
structure Lists (items : List (Nat × Nat × α)) (rows : List (List α)) : Prop where
  once : (items.map fun e => (e.1, e.2.1)).Nodup
  entry : ∀ e ∈ items, ∃ row, rows[e.1]? = some row ∧ row[e.2.1]? = some e.2.2
  rest : ∀ {i j : Nat} {row : List α} {d : α}, rows[i]? = some row → row[j]? = some d →
    (∀ e ∈ items, ¬(e.1 = i ∧ e.2.1 = j)) → d = 0

namespace Flat

theorem fill_eq {n : Nat} {items : List (Nat × Nat × α)} {rows : List (List α)}
    (h : Lists items rows) (hr : rows.length = n) (hc : ∀ row ∈ rows, row.length = n) :
    fill n items = rows := by
  refine List.ext_getElem (by simp [fill, hr]) fun i hi hi' => ?_
  have hrow : rows[i]? = some rows[i] := List.getElem?_eq_getElem hi'
  have hlen : rows[i].length = n := hc _ (List.getElem_mem hi')
  refine List.ext_getElem (by simp [fill, hlen]) fun j hj hj' => ?_
  have hd : rows[i][j]? = some rows[i][j] := List.getElem?_eq_getElem hj'
  simp only [fill, List.getElem_map, List.getElem_range]
  cases hf : (items.filter (·.1 == i)).find? (·.2.1 == j) with
  | none =>
    refine (h.rest hrow hd ?_).symm
    intro e he hij
    have hm : e ∈ items.filter (·.1 == i) := List.mem_filter.2 ⟨he, by simp [hij.1]⟩
    have := List.find?_eq_none.1 hf e hm
    simp [hij.2] at this
  | some e =>
    have hm := List.mem_filter.1 (List.mem_of_find?_eq_some hf)
    have hi := eq_of_beq hm.2
    have hj : e.2.1 = j := by simpa using List.find?_some hf
    obtain ⟨row, hrow', he⟩ := h.entry e hm.1
    rw [hi, hrow] at hrow'
    cases hrow'
    rw [hj, hd] at he
    exact (Option.some.inj he).symm

theorem places_of_entries {f : Flat α} {b : Binding α} {items : List (Nat × Nat × α)}
    (h : f.places.mapM (f.entry b) = .ok items) : items.map (fun e => (e.1, e.2.1)) = f.places := by
  refine map_of_mapM h fun place y hy => ?_
  unfold entry at hy
  split at hy
  · obtain ⟨d, -, hd⟩ := bind_eq_ok.1 hy
    cases hd
    rfl
  · cases hy

/-! ## What the callbacks compute -/

/-- The variables of the pairs bound to the entries of a point. -/
def bindingAt (f : Flat α) (point : Grid α) : Binding α := Binding.ofList (f.keys.zip point.data)

/-- The keys can be bound, and the expressions are honest and read no others. -/
structure Callable (f : Flat α) : Prop where
  proper : Key.Proper f.keys
  square : f.exprs.length = f.size
  honest : ∀ e ∈ f.exprs, e.Honest
  closed : ∀ e ∈ f.exprs, ∀ k ∈ e.reads, f.keys.contains k = true

namespace Callable

variable {f : Flat α} (h : f.Callable) {point : Grid α} (hp : point.shape = [f.size])
  (s : Scratch α)

include h hp

theorem covers {e : Expr α} (he : e ∈ f.exprs) : (f.bindingAt point).Covers e.reads := by
  intro k hk
  obtain ⟨x, -, hx⟩ := Binding.ofList_zip h.proper (Grid.length_of_shape hp) [] (h.closed e he k hk)
  exact ⟨x, hx⟩

theorem agree {e : Expr α} (he : e ∈ f.exprs) :
    (Binding.ofList (s.bind f.keys point.data)).Agree (f.bindingAt point) e.reads := by
  intro k hk
  obtain ⟨x, hx, hx'⟩ := Binding.ofList_zip h.proper (Grid.length_of_shape hp)
    (s.outside f.keys) (h.closed e he k hk)
  rw [Scratch.bind_eq, hx, bindingAt, hx']

theorem values_ok : ∃ ys, f.exprs.mapM (·.evaluate (f.bindingAt point)) = .ok ys :=
  mapM_ok_of_forall fun e he => e.evaluate_ok (h.honest e he) (h.covers hp he)

theorem slopes_ok :
    ∃ rows, f.exprs.mapM (fun e => f.keys.mapM fun k => e.derivative k (f.bindingAt point)) =
      .ok rows :=
  mapM_ok_of_forall fun e he =>
    mapM_ok_of_forall fun k _ => e.derivative_ok k (h.honest e he) (h.covers hp he)

theorem entries_ok {rows : List (List α)}
    (hr : f.exprs.mapM (fun e => f.keys.mapM fun k => e.derivative k (f.bindingAt point)) =
      .ok rows) :
    ∃ items, f.places.mapM (f.entry (Binding.ofList (s.bind f.keys point.data))) = .ok items ∧
      Lists items rows := by
  -- What stands in the matrix, by the expression of the row and the key of the column.
  have hd {i j : Nat} {e : Expr α} {k : Key} (he : f.exprs[i]? = some e)
      (hk : f.keys[j]? = some k) : ∃ row d, rows[i]? = some row ∧ row[j]? = some d ∧
        e.derivative k (f.bindingAt point) = .ok d := by
    obtain ⟨row, hrow, hm⟩ := getElem?_of_mapM hr he
    obtain ⟨d, hdj, hd⟩ := getElem?_of_mapM hm hk
    exact ⟨row, d, hrow, hdj, hd⟩
  have hentry {i j : Nat} {e : Expr α} {k : Key} (he : f.exprs[i]? = some e)
      (hk : f.keys[j]? = some k) :
      ∃ row d, rows[i]? = some row ∧ row[j]? = some d ∧
        f.entry (Binding.ofList (s.bind f.keys point.data)) (i, j) = .ok (i, j, d) := by
    obtain ⟨row, d, hrow, hdj, hdd⟩ := hd he hk
    have hm := List.mem_of_getElem? he
    refine ⟨row, d, hrow, hdj, ?_⟩
    simp only [entry, he, hk]
    rw [Expr.derivative_congr k e (h.honest e hm).isLocal (h.agree hp s hm), hdd]
    rfl
  have hall : ∀ place ∈ f.places, ∃ item,
      f.entry (Binding.ofList (s.bind f.keys point.data)) place = .ok item := by
    intro place hm
    obtain ⟨e, k, he, hk, -⟩ := mem_places.1 (show (place.1, place.2) ∈ f.places from hm)
    obtain ⟨_, d, -, -, hd⟩ := hentry he hk
    exact ⟨_, hd⟩
  obtain ⟨items, hi⟩ := mapM_ok_of_forall hall
  refine ⟨items, hi, ?_, ?_, ?_⟩
  · rw [places_of_entries hi]
    exact f.nodup_places
  · intro y hy
    obtain ⟨⟨i, j⟩, hm, hf⟩ := mem_of_mapM hi hy
    obtain ⟨e, k, he, hk, -⟩ := mem_places.1 hm
    obtain ⟨row, d, hrow, hdj, hd⟩ := hentry he hk
    cases hf.symm.trans hd
    exact ⟨row, hrow, hdj⟩
  · intro i j row d hrow hdj hno
    obtain ⟨e, he, hrow'⟩ := getElem?_of_mapM_right hr hrow
    obtain ⟨k, hk, hdk⟩ := getElem?_of_mapM_right hrow' hdj
    have hmem := List.mem_of_getElem? he
    cases hment : e.mentions k with
    | false =>
      rw [Expr.derivative_eq_zero (h.honest e hmem) (h.covers hp hmem) hment] at hdk
      exact (Except.ok.inj hdk).symm
    | true =>
      obtain ⟨n, hn⟩ := List.getElem?_of_mem (mem_places.2 ⟨e, k, he, hk, hment⟩)
      obtain ⟨y, hy, hf⟩ := getElem?_of_mapM hi hn
      obtain ⟨_, d', -, -, hd'⟩ := hentry he hk
      cases hf.symm.trans hd'
      exact absurd ⟨rfl, rfl⟩ (hno _ (List.mem_of_getElem? hy))

end Callable

/-- The callbacks on a model compute the values and the derivatives of the expressions, and change
nothing but what is bound. -/
structure Computes (f : Flat α) (m : Model α) : Prop where
  values : ∀ point : Grid α, point.shape = [f.size] →
    ∃ ys scratch, f.exprs.mapM (·.evaluate (f.bindingAt point)) = .ok ys ∧
      Model.scratched (f.value point) m = (.ok ys, { m with scratch := scratch })
  slopes : ∀ point : Grid α, point.shape = [f.size] →
    ∃ rows items scratch,
      f.exprs.mapM (fun e => f.keys.mapM fun k => e.derivative k (f.bindingAt point)) =
        .ok rows ∧
      Model.scratched (f.jacobian .dense point) m =
        (.ok (.dense rows), { m with scratch := scratch }) ∧
      Model.scratched (f.jacobian .entries point) m =
        (.ok (.entries f.size items), { m with scratch := scratch }) ∧
      Lists items rows
  misshapen : ∀ point : Grid α, point.shape ≠ [f.size] →
    ∃ e : Error, e.kind = "ValueError" ∧ Model.scratched (f.value point) m = (.error e, m) ∧
      ∀ format, Model.scratched (f.jacobian format point) m = (.error e, m)

omit [Scalar α] in
theorem scratched_apply {β : Type} (c : Call (Scratch α) β) (m : Model α) :
    Model.scratched c m = ((c m.scratch).1, { m with scratch := (c m.scratch).2 }) := rfl

theorem Callable.computes {f : Flat α} (h : f.Callable) (m : Model α) : f.Computes m where
  values point hp := by
    obtain ⟨ys, hy⟩ := h.values_ok hp
    refine ⟨ys, m.scratch.bind f.keys point.data, hy, ?_⟩
    rw [scratched_apply, value_apply, if_pos hp]
    have : f.exprs.mapM (fun e => e.evaluate (Binding.ofList (m.scratch.bind f.keys point.data))) =
        f.exprs.mapM (·.evaluate (f.bindingAt point)) :=
      mapM_congr fun e he => e.evaluate_congr (h.honest e he).isLocal (h.agree hp m.scratch he)
    rw [this, hy]
  slopes point hp := by
    obtain ⟨rows, hr⟩ := h.slopes_ok hp
    obtain ⟨items, hi, hl⟩ := h.entries_ok hp m.scratch hr
    have hn : rows.length = f.size := by rw [length_of_mapM hr, h.square]
    have hc : ∀ row ∈ rows, row.length = f.size := by
      intro row hm
      obtain ⟨e, -, he⟩ := mem_of_mapM hr hm
      exact length_of_mapM he
    refine ⟨rows, items, m.scratch.bind f.keys point.data, hr, ?_, ?_, hl⟩
    · rw [scratched_apply, jacobian_apply, if_pos hp, hi]
      simp only [Except.map, matrix, fill_eq hl hn hc]
    · rw [scratched_apply, jacobian_apply, if_pos hp, hi]
      rfl
  misshapen point hp := by
    refine ⟨.pointShape f.size point.shape, rfl, ?_, fun format => ?_⟩
    · rw [scratched_apply, value_apply, if_neg hp]
    · rw [scratched_apply, jacobian_apply, if_neg hp]

end Flat

/-! ## Valid models -/

namespace Model

theorem Valid.closed {m : Model α} (h : m.Valid) {flat : Flat α}
    (hflat : Flat.ofPairs m.residuals m.pairing = .ok flat) :
    ∀ e ∈ flat.exprs, ∀ k ∈ e.reads, flat.keys.contains k = true := by
  intro e he
  obtain ⟨f, hf, rfl⟩ := mem_of_flat hflat h.residualsKnown he
  rw [Flat.keys_of_ofPairs hflat]
  exact h.reads hf

theorem Valid.callable {m : Model α} (h : m.Valid)
    (hh : ∀ f ∈ m.residuals.items, f.expr.Honest) {flat : Flat α}
    (hf : Flat.ofPairs m.residuals m.pairing = .ok flat) : flat.Callable := by
  obtain ⟨hexprs, hsize⟩ := sizes_of_flat hf
  refine ⟨?_, hexprs.trans hsize.symm, ?_, h.closed hf⟩
  · rw [Flat.keys_of_ofPairs hf]
    exact m.pairing.proper_vars
  · intro e he
    obtain ⟨f, hf, rfl⟩ := mem_of_flat hf h.residualsKnown he
    exact hh f hf

end Model

/-! ## Histories -/

/-- What can happen to a model with callbacks. -/
inductive Use (α : Type) where
  | value (f : Flat α) (point : Grid α)
  | jacobian (f : Flat α) (format : MatrixFormat) (point : Grid α)
  | operation (op : Operation α)

namespace Use

def step (m : Model α) : Use α → Model α
  | .value f point => (Model.scratched (f.value point) m).2
  | .jacobian f format point => (Model.scratched (f.jacobian format point) m).2
  | .operation op => op.step m

def runAll (m : Model α) (uses : List (Use α)) : Model α := uses.foldl step m

end Use

/-- The callbacks of a valid model with honest residuals compute the same, whatever happens after
they are built. -/
theorem callbacks_of_history {m : Model α} (hv : m.validate = .ok ())
    (hh : ∀ f ∈ m.residuals.items, f.expr.Honest) :
    ∃ flat, Flat.ofPairs m.residuals m.pairing = .ok flat ∧
      (∀ text format, MatrixFormat.ofText text = .ok format →
        ∃ vars, m.problem text = .ok (Problem.ofFlat vars flat format)) ∧
      flat.size = m.pairing.size ∧
      (∀ (i : Nat) (pair : Pair), m.pairing.pairs[i]? = some pair → flat.keys[i]? = some pair.var ∧
        ∃ f, m.residuals.get pair.res = .ok f ∧ flat.exprs[i]? = some f.expr) ∧
      ∀ uses : List (Use α), flat.Computes (Use.runAll m uses) := by
  have hv := Model.valid_of_validate hv
  obtain ⟨vars, flat, hvars, hflat, -⟩ := hv.posed_ok
  have hk := Flat.keys_of_ofPairs hflat
  refine ⟨flat, hflat, ?_, ?_, ?_, fun uses => (hv.callable hh hflat).computes _⟩
  · intro text format hformat
    refine ⟨vars, ?_⟩
    rw [Model.problem, Problem.ofPairs, hvars, hflat, hformat]
    rfl
  · rw [Flat.size, hk, Pairing.length_vars]
  · intro i pair hp
    obtain ⟨hkey, -, hres⟩ := Model.place_of_pair hvars hflat hp
    exact ⟨hkey, hres⟩

theorem callbacks_of_onePair :
    let m := Operation.runAll (.empty "m" "" .empty .unsolved) onePair
    m.validate = .ok () ∧ (∀ f ∈ m.residuals.items, f.expr.Honest) ∧ m.pairing.size = 1 ∧
      ∃ flat, Flat.ofPairs m.residuals m.pairing = .ok flat ∧ flat.size = m.pairing.size ∧
        ∀ uses : List (Use Float), flat.Computes (Use.runAll m uses) := by
  intro m
  have hv : m.validate = .ok () := by
    have h : m.validate.isOk = true := by decide +kernel
    cases hm : m.validate with
    | ok u => rfl
    | error e => rw [hm] at h; cases h
  have hi : m.residuals.items = [⟨⟨"F", []⟩, .ref ⟨"x", []⟩, ""⟩] := rfl
  have hh : ∀ f ∈ m.residuals.items, f.expr.Honest := by
    intro f hf
    rw [hi, List.mem_singleton] at hf
    rw [hf]
    exact trivial
  obtain ⟨flat, hflat, -, hsize, -, hc⟩ := callbacks_of_history hv hh
  exact ⟨hv, hh, by decide +kernel, flat, hflat, hsize, hc⟩

end Equilibria
