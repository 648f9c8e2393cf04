import Equilibria.Model.Operation
import Equilibria.Proofs.Solves

/-!
# Storing a point and reading it back

A point with an entry for each pair is stored entry by entry, in the order of the pairs. Reading the
stored values gives the point again, variables without a pair stay as they are, and a second point
leaves nothing of the first one. A point of any other length is refused.
-/

namespace Equilibria

open Calls Fallible

variable {α : Type}

/-! ## Registries -/

namespace Registry

theorem contains_of_get {r : Registry α} {k : Key} {v : Variable α} (h : r.get k = .ok v) :
    r.keys.contains k = true := by
  cases hk : r.keys.contains k with
  | true => rfl
  | false =>
    obtain ⟨e, he⟩ := r.get_error hk
    cases he.symm.trans h

theorem settle_of_free {xs : List (Key × α)} {e : Key × Variable α}
    (h : (xs.map (·.1)).contains e.1 = false) : settle xs e = e := by
  have hnone : xs.find? (·.1 == e.1) = none := by
    rw [List.find?_eq_none]
    intro x hx hxe
    rw [Key.contains_iff.2 ⟨x.1, List.mem_map_of_mem hx, hxe⟩] at h
    cases h
  rw [settle, hnone]

theorem get_settled_of_free {r : Registry α} {xs : List (Key × α)} {k : Key} {v : Variable α}
    (hv : r.get k = .ok v) (h : (xs.map (·.1)).contains k = false) :
    (r.settled xs).get k = .ok v := by
  obtain ⟨e, he, hek, hget⟩ := r.get_of_contains (contains_of_get hv)
  cases hget.symm.trans hv
  have hfree : (xs.map (·.1)).contains e.1 = false := by
    cases hc : (xs.map (·.1)).contains e.1 with
    | false => rfl
    | true => rw [Key.contains_of_contains hc hek] at h; cases h
  have hmem : settle xs e ∈ (r.settled xs).entries := List.mem_map_of_mem he
  rw [settle_of_free hfree] at hmem
  exact (r.settled xs).get_eq hmem hek

theorem settle_of_find? {xs : List (Key × α)} {e : Key × Variable α} {x : Key × α}
    (h : xs.find? (·.1 == e.1) = some x) :
    settle xs e = (e.1, { e.2 with value := some x.2 }) := by
  rw [settle, h]

theorem settle_settle {xs ys : List (Key × α)} (h : xs.map (·.1) = ys.map (·.1))
    (e : Key × Variable α) : settle ys (settle xs e) = settle ys e := by
  cases hx : xs.find? (·.1 == e.1) with
  | none =>
    have hfree : (xs.map (·.1)).contains e.1 = false := by
      simpa [List.contains_iff_exists_mem_beq, BEq.comm] using hx
    rw [settle_of_free hfree]
  | some x =>
    have hxe : (x.1 == e.1) = true := by simpa using List.find?_some hx
    have hkey : (ys.map (·.1)).contains e.1 = true := by
      rw [← h]
      exact Key.contains_iff.2 ⟨x.1, List.mem_map_of_mem (List.mem_of_find?_eq_some hx), hxe⟩
    obtain ⟨a, ha, hae⟩ := Key.contains_iff.1 hkey
    obtain ⟨y, hy, rfl⟩ := List.mem_map.1 ha
    cases hy' : ys.find? (·.1 == e.1) with
    | none => exact absurd hae (List.find?_eq_none.1 hy' y hy)
    | some z =>
      have hagain : settle ys (e.1, { e.2 with value := some x.2 }) =
          (e.1, { e.2 with value := some z.2 }) := settle_of_find? hy'
      rw [settle_of_find? hx, hagain, settle_of_find? hy']

theorem settled_settled (r : Registry α) {xs ys : List (Key × α)}
    (h : xs.map (·.1) = ys.map (·.1)) : (r.settled xs).settled ys = r.settled ys := by
  apply ext
  simp only [settled, List.map_map]
  exact List.map_congr_left fun e _ => settle_settle h e

end Registry

/-! ## Models -/

namespace Model

/-- Each pair has its entry in its variable, and all else is as it was. -/
structure Stores (m : Model α) (xs : List α) (m' : Model α) : Prop where
  flat : m'.flatten = .ok (xs.map some)
  paired : ∀ {i : Nat} {p : Pair} {x : α}, m.pairing.pairs[i]? = some p → xs[i]? = some x →
    ∃ v, m.registry.get p.var = .ok v ∧ m'.registry.get p.var = .ok { v with value := some x }
  unpaired : ∀ {k : Key} {v : Variable α}, m.registry.get k = .ok v →
    m.pairing.vars.contains k = false → m'.registry.get k = .ok v
  keys : m'.registry.keys = m.registry.keys
  rest : { m' with registry := m.registry } = m

section

variable {m : Model α} (h : ∀ k ∈ m.pairing.vars, m.registry.keys.contains k = true)
  {xs : List α} (hx : xs.length = m.pairing.size)

include hx in
theorem fst_zip_vars : (m.pairing.vars.zip xs).map (·.1) = m.pairing.vars :=
  List.map_fst_zip (Nat.le_of_eq (m.pairing.length_vars.trans hx.symm))

include h hx

theorem get_stored {i : Nat} {k : Key} {x : α} (hk : m.pairing.vars[i]? = some k)
    (hi : xs[i]? = some x) : ∃ v, m.registry.get k = .ok v ∧
      (m.registry.settled (m.pairing.vars.zip xs)).get k = .ok { v with value := some x } := by
  have hc := h k (List.mem_of_getElem? hk)
  obtain ⟨e, -, -, hget⟩ := m.registry.get_of_contains hc
  have hproper : Key.Proper ((m.pairing.vars.zip xs).map (·.1)) := by
    rw [fst_zip_vars hx]
    exact m.pairing.proper_vars
  have hmem : (k, x) ∈ m.pairing.vars.zip xs :=
    List.mem_of_getElem? (List.getElem?_zip_eq_some.2 ⟨hk, hi⟩)
  exact ⟨e.2, hget, m.registry.get_settled hget hc (hproper.find?_eq hmem BEq.rfl)⟩

theorem flatten_stored :
    { m with registry := m.registry.settled (m.pairing.vars.zip xs) }.flatten =
      .ok (xs.map some) := by
  have hlength : m.pairing.vars.length = xs.length := by rw [hx, Pairing.length_vars]
  have hall : ∀ k ∈ m.pairing.vars,
      ∃ v, (m.registry.settled (m.pairing.vars.zip xs)).get k = .ok v := by
    intro k hk
    obtain ⟨i, hi⟩ := List.getElem?_of_mem hk
    have hlt : i < xs.length := hlength ▸ (List.getElem?_eq_some_iff.1 hi).1
    obtain ⟨v, -, hv⟩ := get_stored h hx hi (List.getElem?_eq_getElem hlt)
    exact ⟨_, hv⟩
  obtain ⟨vs, hvs⟩ := mapM_ok_of_forall hall
  have hflat : vs.map (·.value) = xs.map some := by
    refine List.ext_getElem (by simp [length_of_mapM hvs, hlength]) fun i hi hi' => ?_
    have hi : i < xs.length := by simpa using hi'
    obtain ⟨k, hk⟩ : ∃ k, m.pairing.vars[i]? = some k :=
      ⟨_, List.getElem?_eq_getElem (hlength.symm ▸ hi)⟩
    obtain ⟨v, hv, hget⟩ := getElem?_of_mapM hvs hk
    obtain ⟨w, -, hw⟩ := get_stored h hx hk (List.getElem?_eq_getElem hi)
    cases hget.symm.trans hw
    obtain ⟨hlt, hvi⟩ := List.getElem?_eq_some_iff.1 hv
    rw [List.getElem_map, List.getElem_map, hvi]
  rw [flatten, Problem.paired, hvs]
  exact congrArg Except.ok hflat

theorem stores_settled :
    m.Stores xs { m with registry := m.registry.settled (m.pairing.vars.zip xs) } where
  flat := flatten_stored h hx
  paired hp hi := get_stored h hx (var_of_pair hp) hi
  unpaired hv hk := Registry.get_settled_of_free hv (by rw [fst_zip_vars hx]; exact hk)
  keys := Registry.keys_settled ..
  rest := rfl

end

theorem unflatten_of_length_ne {m : Model α} {xs : List α} (hx : xs.length ≠ m.pairing.size) :
    unflatten xs m = (.error (.resultLength xs.length m.pairing.size), m) := by
  have hn : (xs.length != m.pairing.size) = true := by simpa using hx
  rw [unflatten, bind_apply, get_apply]
  simp only [hn]
  rfl

/-- A result with an entry for each pair is stored and read back, and any other is refused. -/
theorem stores_of_unflatten {m : Model α}
    (h : ∀ k ∈ m.pairing.vars, m.registry.keys.contains k = true) (result : Grid α) :
    (result.data.length = m.pairing.size → ∃ m', unflatten result.data m = (.ok (), m') ∧
      m.Stores result.data m' ∧ ∀ next : Grid α, next.data.length = m.pairing.size →
        unflatten next.data m' = unflatten next.data m) ∧
    (result.data.length ≠ m.pairing.size →
      ∃ e : Error, e.kind = "ValueError" ∧ unflatten result.data m = (.error e, m)) := by
  refine ⟨fun hx => ?_, fun hx => ⟨_, rfl, unflatten_of_length_ne hx⟩⟩
  refine ⟨_, unflatten_eq h hx, stores_settled h hx, fun next hnext => ?_⟩
  have hkeys : (m.pairing.vars.zip result.data).map (·.1) =
      (m.pairing.vars.zip next.data).map (·.1) := by
    rw [fst_zip_vars hx, fst_zip_vars hnext]
  have hknown : ∀ k ∈ m.pairing.vars,
      (m.registry.settled (m.pairing.vars.zip result.data)).keys.contains k = true := by
    intro k hk
    rw [Registry.keys_settled]
    exact h k hk
  have hagain := unflatten_eq
    (m := { m with registry := m.registry.settled (m.pairing.vars.zip result.data) }) hknown hnext
  rw [hagain, unflatten_eq h hnext, Registry.settled_settled _ hkeys]

end Model

def lastFirst : List (Operation Float) :=
  [.addVariable (.text "x") none {}, .addVariable (.text "y") none {},
    .addVariable (.text "z") none {},
    .addExpression (.text "F") (.expr (.ref ⟨"y", []⟩)) none (.text ""),
    .addExpression (.text "G") (.expr (.ref ⟨"z", []⟩)) none (.text ""),
    .correspond (.list [.key ⟨"G", []⟩, .key ⟨"F", []⟩]) (.list [.key ⟨"z", []⟩, .key ⟨"y", []⟩])]

/-- A column of two numbers goes to `z` and `y`, and `x` has no value after it. -/
theorem stores_of_lastFirst :
    let m := Operation.runAll (.empty "m" "" .empty .unsolved) lastFirst
    (∀ k ∈ m.pairing.vars, m.registry.keys.contains k = true) ∧
      ∃ m' x y z, Model.unflatten [2, -1] m = (.ok (), m') ∧ m'.flatten = .ok [some 2, some (-1)] ∧
        m'.registry.get ⟨"x", []⟩ = .ok x ∧ x.value = none ∧
        m'.registry.get ⟨"y", []⟩ = .ok y ∧ y.value = some (-1) ∧
        m'.registry.get ⟨"z", []⟩ = .ok z ∧ z.value = some 2 := by
  intro m
  have hknown : ∀ k ∈ m.pairing.vars, m.registry.keys.contains k = true := by decide +kernel
  have hpairs : m.pairing.pairs = [⟨⟨"G", []⟩, ⟨"z", []⟩⟩, ⟨⟨"F", []⟩, ⟨"y", []⟩⟩] := rfl
  obtain ⟨hfits, -⟩ := Model.stores_of_unflatten hknown ⟨[2, 1], [2, -1], rfl⟩
  obtain ⟨m', hm', hstores, -⟩ := hfits rfl
  obtain ⟨z, -, hz⟩ := hstores.paired (i := 0) (by rw [hpairs]; rfl) rfl
  obtain ⟨y, -, hy⟩ := hstores.paired (i := 1) (by rw [hpairs]; rfl) rfl
  obtain ⟨x, hx, hvalue⟩ : ∃ v, m.registry.get ⟨"x", []⟩ = .ok v ∧ v.value = none :=
    ⟨_, rfl, rfl⟩
  exact ⟨hknown, m', x, _, _, hm', hstores.flat, hstores.unpaired hx (by decide +kernel), hvalue,
    hy, rfl, hz, rfl⟩

end Equilibria
