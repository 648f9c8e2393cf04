import Equilibria.Model.Operation
import Equilibria.Proofs.Calls
import Equilibria.Proofs.Registries

/-!
# Registries that are built

What new variables and edits of old ones make of a registry. Neither changes the values of the
variables that are there, and the new ones have none.
-/

namespace Equilibria

open Calls Fallible

/-! ## Readings -/

namespace Reading

variable {β γ : Type}

theorem of_get {r : Reading β} {x : β} (h : r.get = .ok x) : r = .ok x := by
  cases r with
  | error p => cases h
  | ok y =>
    cases h
    rfl

theorem of_seq {f : Reading (β → γ)} {x : Reading β} {y : γ} (h : (f <*> x) = .ok y) :
    ∃ g a, f = .ok g ∧ x = .ok a ∧ g a = y := by
  cases f with
  | error p => cases x <;> cases h
  | ok g =>
    cases x with
    | error p => cases h
    | ok a =>
      cases h
      exact ⟨g, a, rfl, rfl, rfl⟩

theorem of_map {f : β → γ} {x : Reading β} {y : γ} (h : (f <$> x) = .ok y) :
    ∃ a, x = .ok a ∧ f a = y := by
  obtain ⟨g, a, hg, hx, hy⟩ := of_seq (f := .ok f) h
  cases hg
  exact ⟨a, hx, hy⟩

end Reading

variable {α : Type}

/-! ## Variables -/

namespace Variable

variable [Scalar α]

theorem of_make {key : Key} {f : Fields} {v : Variable α} (h : make key f = .ok v) :
    v.key = key ∧ v.value = none := by
  obtain ⟨lower, -, h⟩ := bind_eq_ok.1 h
  obtain ⟨upper, -, h⟩ := bind_eq_ok.1 h
  obtain ⟨_, d, hs, -, rfl⟩ := Reading.of_seq (Reading.of_get h)
  obtain ⟨_, s, hu, -, rfl⟩ := Reading.of_seq hs
  obtain ⟨_, u, hl, -, rfl⟩ := Reading.of_seq hu
  obtain ⟨l, -, rfl⟩ := Reading.of_map hl
  exact ⟨rfl, rfl⟩

theorem value_of_edit {v v' : Variable α} {e : Edit} (h : v.edit e = .ok v') :
    v'.value = v.value := by
  cases e with
  | bound field value =>
    obtain ⟨x, -, hx⟩ := bind_eq_ok.1 h
    cases hx
    cases field <;> rfl
  | toStart field =>
    cases h
    cases field <;> rfl
  | description value =>
    obtain ⟨d, -, hd⟩ := bind_eq_ok.1 h
    cases hd
    rfl
  | key value =>
    obtain ⟨k, -, hk⟩ := bind_eq_ok.1 h
    cases hk
    rfl
  | derived | unknown => cases h

def Edit.renames : Edit → Bool
  | .key _ => true
  | _ => false

theorem key_of_edit {v v' : Variable α} {e : Edit} (h : v.edit e = .ok v')
    (he : e.renames = false) : v'.key = v.key := by
  cases e with
  | bound field value =>
    obtain ⟨x, -, hx⟩ := bind_eq_ok.1 h
    cases hx
    cases field <;> rfl
  | toStart field =>
    cases h
    cases field <;> rfl
  | description value =>
    obtain ⟨d, -, hd⟩ := bind_eq_ok.1 h
    cases hd
    rfl
  | key value => cases he
  | derived | unknown => cases h

def bounds (v : Variable α) : α × α × α := (v.lower, v.upper, v.start)

theorem bounds_of_edit {v v' : Variable α} {e : Edit} (h : v.edit e = .ok v')
    (he : e.bound? = none) : v'.bounds = v.bounds := by
  cases e with
  | bound | toStart => cases he
  | description value =>
    obtain ⟨d, -, hd⟩ := bind_eq_ok.1 h
    cases hd
    rfl
  | key value =>
    obtain ⟨k, -, hk⟩ := bind_eq_ok.1 h
    cases hk
    rfl
  | derived | unknown => cases h

end Variable

/-! ## Registries -/

namespace Registry

def values (r : Registry α) : List (Option α) := r.vars.map (·.value)

def bounds (r : Registry α) : List (α × α × α) := r.vars.map (·.bounds)

theorem entries_of_addAll {r r' : Registry α} {batch : List (Variable α)}
    (h : r.addAll batch = .ok r') : r'.entries = r.entries ++ batch.map fun v => (v.key, v) := by
  unfold addAll at h
  split at h
  · cases h
    rfl
  · cases h
  · cases h

theorem values_of_addAll {r r' : Registry α} {batch : List (Variable α)}
    (h : r.addAll batch = .ok r') (hb : ∀ v ∈ batch, v.value = none) :
    r'.values = r.values ++ List.replicate batch.length none := by
  have hn : batch.map (·.value) = List.replicate batch.length none :=
    List.eq_replicate_iff.2 ⟨by simp, by simpa using hb⟩
  rw [← hn, values, values, vars, vars, entries_of_addAll h]
  simp

theorem vars_modify (r : Registry α) (i : Nat) (f : Variable α → Variable α) :
    (r.modify i f).vars = r.vars.modify i f := by
  apply List.ext_getElem?
  intro j
  simp only [vars, modify, List.getElem?_map, List.getElem?_modify]
  by_cases hij : i = j
  · cases r.entries[j]? <;> simp [hij]
  · simp [hij]

theorem at?_put {r : Registry α} {i : Nat} {v : Variable α} (hv : r.at? i = some v)
    (w : Variable α) : (r.put i w).at? i = some w := by
  rw [at?] at hv
  rw [at?, put, vars_modify, List.getElem?_modify_eq, hv]
  rfl

theorem map_vars_put {β : Type} {part : Variable α → β} {r : Registry α} {i : Nat}
    {v v' : Variable α} (hv : r.at? i = some v) (h : part v' = part v) :
    (r.put i v').vars.map part = r.vars.map part := by
  rw [put, vars_modify]
  apply List.ext_getElem?
  intro j
  rw [List.getElem?_map, List.getElem?_modify, List.getElem?_map]
  by_cases hij : i = j
  · subst hij
    rw [at?] at hv
    simp [hv, h]
  · simp [hij]

variable [Scalar α]

theorem edit_ok {guard : String → Id (Except Error Unit)} {i : Nat} {e : Variable.Edit}
    {r r' : Registry α} (h : edit guard i e r = .ok r') :
    ∃ v v', r.at? i = some v ∧ v.edit e = .ok v' ∧ r' = r.put i v' ∧
      ∀ field, e.bound? = some field → guard (action v field) = .ok () := by
  unfold edit at h
  split at h
  · cases h
  · rename_i v hv
    change (match (e.bound?.elim (pure (.ok ())) fun field => guard (action v field) :
      Id (Except Error Unit)) with
      | .error e => Except.error e
      | .ok () => (v.edit e).map (r.put i)) = .ok r' at h
    split at h
    · cases h
    · rename_i hg
      obtain ⟨v', hv', rfl⟩ := map_eq_ok.1 h
      refine ⟨v, v', hv, hv', rfl, ?_⟩
      intro field hf
      rw [hf] at hg
      exact hg

theorem editAll_keeps {R : Registry α → Registry α → Prop} (hr : ∀ r, R r r)
    (ht : ∀ a b c, R a b → R b c → R a c) {guard : String → Id (Except Error Unit)} {i : Nat}
    {edits : List Variable.Edit} (he : ∀ e ∈ edits, ∀ r r', edit guard i e r = .ok r' → R r r')
    (r : Registry α) : R r (Id.run (editAll guard i edits r)).2 := by
  induction edits generalizing r with
  | nil => exact hr r
  | cons e rest ih =>
    have ih := ih fun e h => he e (List.mem_cons_of_mem _ h)
    have hs : editAll guard i (e :: rest) r = (match edit guard i e r with
      | .ok r => editAll guard i rest r
      | .error e => (.error e, r)) := rfl
    rw [hs]
    cases h : edit guard i e r with
    | ok r' => exact ht _ _ _ (he e List.mem_cons_self r r' h) (ih r')
    | error e => exact hr r

/-- How a registry changes while a model is built. -/
inductive Rebuilt (edits : List Variable.Edit) (r : Registry α) : Registry α → Prop where
  | same : Rebuilt edits r r
  | added (batch : List (Variable α)) (r' : Registry α) (ok : r.addAll batch = .ok r')
    (fresh : ∀ v ∈ batch, v.value = none) : Rebuilt edits r r'
  | edited (guard : String → Id (Except Error Unit)) (i : Nat) :
    Rebuilt edits r (Id.run (editAll guard i edits r)).2

theorem Rebuilt.values {edits : List Variable.Edit} {r r' : Registry α} (h : r.Rebuilt edits r') :
    ∃ n, r'.values = r.values ++ List.replicate n none := by
  cases h with
  | same => exact ⟨0, by simp⟩
  | added batch r' ok fresh => exact ⟨batch.length, values_of_addAll ok fresh⟩
  | edited guard i =>
    refine ⟨0, ?_⟩
    rw [List.replicate_zero, List.append_nil]
    refine editAll_keeps (R := fun a b => b.values = a.values) (fun _ => rfl)
      (fun _ _ _ h h' => h'.trans h) ?_ r
    intro e _ a b he
    obtain ⟨v, v', hv, hv', rfl, -⟩ := edit_ok he
    exact map_vars_put hv (Variable.value_of_edit hv')

/-- Each variable has the key that it is registered under. -/
def Tied (r : Registry α) : Prop := r.vars.map (·.key) = r.keys

theorem Rebuilt.tied {edits : List Variable.Edit} {r r' : Registry α} (h : r.Rebuilt edits r')
    (he : ∀ e ∈ edits, e.renames = false) (ht : r.Tied) : r'.Tied := by
  cases h with
  | same => exact ht
  | added batch r' ok fresh =>
    rw [Tied, vars, keys] at ht
    rw [Tied, vars, keys, entries_of_addAll ok, List.map_append, List.map_append, List.map_append,
      ht]
    simp
  | edited guard i =>
    refine editAll_keeps (R := fun a b => a.Tied → b.Tied) (fun _ h => h)
      (fun _ _ _ h h' ha => h' (h ha)) ?_ r ht
    intro e hm a b hedit ha
    obtain ⟨v, v', hv, hv', rfl, -⟩ := edit_ok hedit
    have hkeys : (a.put i v').keys = a.keys := keys_modify a i _
    rw [Tied, hkeys, ← ha]
    exact map_vars_put hv (Variable.key_of_edit hv' (he e hm))

end Registry

end Equilibria
