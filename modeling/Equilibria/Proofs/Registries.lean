import Equilibria.Model.Solve
import Equilibria.Proofs.Keys

/-!
# What registries find and store

Each component is found under the key that it was registered with. Storing a point changes the
values of its variables and nothing else.
-/

namespace Equilibria

open Fallible

namespace Registry

variable {α : Type}

theorem ext {r s : Registry α} (h : r.entries = s.entries) : r = s := by
  cases r
  cases s
  cases h
  rfl

/-! ## Looking up -/

theorem position_eq (r : Registry α) {i : Nat} {a k : Key} (hi : r.keys[i]? = some a)
    (hk : (a == k) = true) : r.position k = .ok i := by
  have hf : k.isFixed = true :=
    r.proper_keys.fixed_of_contains (Key.contains_iff.2 ⟨a, List.mem_of_getElem? hi, hk⟩)
  have hp : r.position? k = .ok (some i) := by
    rw [position?, if_pos hf]
    exact congrArg Except.ok (r.proper_keys.findIdx?_eq hi hk)
  rw [position, hp]
  rfl

theorem position_of_contains (r : Registry α) {k : Key} (h : r.keys.contains k = true) :
    ∃ i e, r.entries[i]? = some e ∧ (e.1 == k) = true ∧ r.position k = .ok i := by
  obtain ⟨a, ha, hk⟩ := Key.contains_iff.1 h
  obtain ⟨e, he, rfl⟩ := List.mem_map.1 ha
  obtain ⟨i, hi⟩ := List.getElem?_of_mem he
  refine ⟨i, e, hi, hk, r.position_eq ?_ hk⟩
  rw [keys, List.getElem?_map, hi]
  rfl

theorem get_eq (r : Registry α) {e : Key × Variable α} {k : Key} (he : e ∈ r.entries)
    (hk : (e.1 == k) = true) : r.get k = .ok e.2 := by
  obtain ⟨i, hi⟩ := List.getElem?_of_mem he
  have hp : r.position k = .ok i := r.position_eq (by rw [keys, List.getElem?_map, hi]; rfl) hk
  have hv : r.at? i = some e.2 := by rw [at?, vars, List.getElem?_map, hi]; rfl
  simp only [get, hp, bind, Except.bind, hv, pure, Except.pure]

theorem get_of_contains (r : Registry α) {k : Key} (h : r.keys.contains k = true) :
    ∃ e ∈ r.entries, (e.1 == k) = true ∧ r.get k = .ok e.2 := by
  obtain ⟨i, e, hi, hk, -⟩ := r.position_of_contains h
  exact ⟨e, List.mem_of_getElem? hi, hk, r.get_eq (List.mem_of_getElem? hi) hk⟩

theorem mapM_get_keys (r : Registry α) : r.keys.mapM r.get = .ok r.vars := by
  have hget : ∀ e ∈ r.entries, r.get e.1 = .ok e.2 := fun e he => r.get_eq he BEq.rfl
  rw [keys, List.mapM_map]
  exact mapM_eq_map hget

theorem get_error (r : Registry α) {k : Key} (h : r.keys.contains k = false) :
    ∃ e, r.get k = .error e := by
  have hn : r.keys.findIdx? (· == k) = none := by
    rw [List.findIdx?_eq_none_iff]
    intro a ha
    cases hk : a == k with
    | false => rfl
    | true => rw [Key.contains_iff.2 ⟨a, ha, hk⟩] at h; cases h
  unfold get position position?
  split
  · rw [hn]
    exact ⟨_, rfl⟩
  · exact ⟨_, rfl⟩

/-! ## Storing -/

/-- A variable with the value that is stored under its key, if there is one. -/
def settle (xs : List (Key × α)) (e : Key × Variable α) : Key × Variable α :=
  match xs.find? (·.1 == e.1) with
  | some x => (e.1, { e.2 with value := some x.2 })
  | none => e

theorem settle_fst (xs : List (Key × α)) (e : Key × Variable α) : (settle xs e).1 = e.1 := by
  unfold settle
  split <;> rfl

def settled (r : Registry α) (xs : List (Key × α)) : Registry α where
  entries := r.entries.map (settle xs)
  proper := by
    have h : (fun e => (settle xs e).1) = fun e => e.1 := funext (settle_fst xs)
    rw [List.map_map]
    change Key.Proper (r.entries.map fun e => (settle xs e).1)
    rw [h]
    exact r.proper

theorem get_settled (r : Registry α) {xs : List (Key × α)} {k : Key} {v : Variable α}
    {x : Key × α} (hv : r.get k = .ok v) (hk : r.keys.contains k = true)
    (hx : xs.find? (·.1 == k) = some x) :
    (r.settled xs).get k = .ok { v with value := some x.2 } := by
  obtain ⟨e, he, hek, hg⟩ := r.get_of_contains hk
  cases hg.symm.trans hv
  have hxe : xs.find? (·.1 == e.1) = some x := by
    rw [← hx]
    congr 1
    exact funext fun y => BEq.congr_right hek
  have hs : settle xs e = (e.1, { e.2 with value := some x.2 }) := by rw [settle, hxe]
  have hmem : settle xs e ∈ (r.settled xs).entries := List.mem_map_of_mem he
  rw [hs] at hmem
  exact (r.settled xs).get_eq hmem hek

@[simp] theorem keys_settled (r : Registry α) (xs : List (Key × α)) :
    (r.settled xs).keys = r.keys := by
  simp only [keys, settled, List.map_map]
  exact List.map_congr_left fun e _ => settle_fst xs e

@[simp] theorem keys_modify (r : Registry α) (i : Nat) (f : Variable α → Variable α) :
    (r.modify i f).keys = r.keys := by
  apply List.ext_getElem?
  intro j
  simp only [keys, modify, List.getElem?_map, List.getElem?_modify]
  cases r.entries[j]? <;> simp [apply_ite]

theorem settled_modify (r : Registry α) {xs : List (Key × α)} {i : Nat} {e : Key × Variable α}
    {k : Key} {x : α} (hi : r.entries[i]? = some e) (hk : (e.1 == k) = true)
    (hx : ∀ y ∈ xs, (k == y.1) = false) :
    (r.modify i fun v => { v with value := some x }).settled xs = r.settled ((k, x) :: xs) := by
  apply ext
  apply List.ext_getElem?
  intro j
  simp only [settled, modify, List.getElem?_map, List.getElem?_modify]
  by_cases hij : i = j
  · subst hij
    have hnone : xs.find? (·.1 == e.1) = none := by
      rw [List.find?_eq_none]
      intro y hy hye
      have := Key.beq_trans (BEq.symm hk) (BEq.symm hye)
      rw [hx y hy] at this
      cases this
    simp [hi, settle, hnone, BEq.symm hk]
  · cases hj : r.entries[j]? with
    | none => rfl
    | some d =>
      have hd : (k == d.1) = false := by
        cases hkd : k == d.1 with
        | false => rfl
        | true =>
          have := r.proper_keys.findIdx?_eq (k := k) (i := i) (a := e.1) (by simp [keys, hi]) hk
          rw [r.proper_keys.findIdx?_eq (i := j) (a := d.1) (by simp [keys, hj]) (BEq.symm hkd)] at this
          exact absurd (Option.some.inj this).symm hij
      simp [hij, settle, hd]

theorem store_eq (r : Registry α) (xs : List (Key × α)) (hx : Key.Proper (xs.map (·.1)))
    (hr : ∀ x ∈ xs, r.keys.contains x.1 = true) : Model.store r xs = (.ok (), r.settled xs) := by
  induction xs generalizing r with
  | nil =>
    have : r.settled [] = r := ext (List.map_id' r.entries)
    rw [Model.store, this]
  | cons y rest ih =>
    obtain ⟨k, x⟩ := y
    obtain ⟨hk, hrest⟩ := List.pairwise_cons.1 hx.distinct
    obtain ⟨i, e, hi, hek, hp⟩ := r.position_of_contains (hr (k, x) List.mem_cons_self)
    have hs : r.setValue k x = .ok (r.modify i fun v => { v with value := some x }) := by
      rw [setValue, hp]
      rfl
    rw [Model.store, hs]
    simp only
    rw [ih _ ⟨fun a ha => hx.fixed a (List.mem_cons_of_mem _ ha), hrest⟩, settled_modify r hi hek]
    · intro y hy
      exact hk _ (List.mem_map_of_mem hy)
    · intro y hy
      rw [keys_modify]
      exact hr y (List.mem_cons_of_mem _ hy)

end Registry

/-! ## Residuals -/

theorem Residuals.ext {α : Type} {r s : Residuals α} (h : r.items = s.items) : r = s := by
  cases r
  cases s
  cases h
  rfl

theorem Residuals.get_eq {α : Type} (r : Residuals α) {f : Residual α} {k : Key}
    (hf : f ∈ r.items) (hk : (f.key == k) = true) : r.get k = .ok f := by
  have hfixed : k.isFixed = true :=
    r.proper_keys.fixed_of_contains (Key.contains_iff.2 ⟨_, List.mem_map_of_mem hf, hk⟩)
  have hfind : r.find? k = .ok (some f) := by
    rw [find?, if_pos hfixed, r.proper.find?_eq hf hk]
  rw [get, hfind]
  rfl

theorem Residuals.get_of_contains {α : Type} (r : Residuals α) {k : Key}
    (h : r.keys.contains k = true) : ∃ f ∈ r.items, (f.key == k) = true ∧ r.get k = .ok f := by
  obtain ⟨a, ha, hk⟩ := Key.contains_iff.1 h
  obtain ⟨f, hf, rfl⟩ := List.mem_map.1 ha
  exact ⟨f, hf, hk, r.get_eq hf hk⟩

theorem Residuals.mapM_get_keys {α : Type} (r : Residuals α) : r.keys.mapM r.get = .ok r.items := by
  have hget : ∀ f ∈ r.items, r.get f.key = .ok f := fun f hf => r.get_eq hf BEq.rfl
  rw [keys, List.mapM_map]
  refine (mapM_eq_map hget).trans ?_
  rw [List.map_id']

end Equilibria
