import Equilibria.Proofs.Building

/-!
# Families

The members of a family share a name, so they have different keys just if they have different
indices. A family that has been declared as a whole has each of its members once.
-/

namespace Equilibria

open Calls Fallible

/-! ## Indices -/

namespace Family

variable {β : Type}

theorem items_ofItems (kind name : String) {items : List (List Value × β)}
    (h : items.Pairwise fun a b => sameIndex a.1 b.1 = false) :
    (ofItems kind name items).items = items := by
  have hfold : ∀ (rest acc : List (List Value × β)),
      (acc ++ rest).Pairwise (fun a b => sameIndex a.1 b.1 = false) →
        rest.foldl (fun acc e => insert acc e.1 e.2) acc = acc ++ rest := by
    intro rest
    induction rest with
    | nil =>
      intro acc _
      rw [List.append_nil]
      rfl
    | cons e r ih =>
      intro acc hp
      have hfree : acc.any (sameIndex ·.1 e.1) = false := by
        rw [List.any_eq_false]
        intro a ha
        rw [(List.pairwise_append.1 hp).2.2 a ha e List.mem_cons_self]
        exact Bool.false_ne_true
      have hinsert : insert acc e.1 e.2 = acc ++ [e] := by
        rw [insert, hfree]
        rfl
      change r.foldl _ (insert acc e.1 e.2) = _
      rw [hinsert, ih _ (by simpa using hp), List.append_assoc]
      rfl
  exact hfold items [] h

end Family

namespace Key

theorem sameIndex_eq {a b : Key} (h : a.name = b.name) :
    Family.sameIndex a.index b.index = (a == b) := by
  change _ = ((a.name == b.name) && (a.index.map Value.form == b.index.map Value.form))
  rw [h, beq_self_eq_true, Bool.true_and]
  rfl

theorem name_of_make {name : Value} {index : Option Value} {k : Key}
    (h : make (some name) index = .ok k) : name = .text k.name := by
  obtain ⟨s, hs, rfl⟩ := Reading.of_map (Reading.of_get h)
  cases name with
  | text t =>
    rw [requiredText] at hs
    split at hs
    · cases hs
    · cases hs
      rfl
  | _ => cases hs

end Key

theorem Family.items_ofKeys {β γ : Type} (kind name : String) (key : β → Key) (value : β → γ)
    {xs : List β} {text : Value} (hn : ∀ x ∈ xs, text = .text (key x).name)
    (hp : Key.Proper (xs.map key)) :
    (ofItems kind name (xs.map fun x => ((key x).index, value x))).items =
      xs.map fun x => ((key x).index, value x) := by
  refine items_ofItems kind name (List.pairwise_map.2 ?_)
  refine (List.pairwise_map.1 hp.distinct).imp_of_mem fun {a b} ha hb hne => ?_
  have hname : (key a).name = (key b).name := Value.text.inj ((hn a ha).symm.trans (hn b hb))
  rw [Key.sameIndex_eq hname, hne]

variable {α : Type}

/-! ## Places of a batch -/

theorem Registry.proper_of_addAll {r r' : Registry α} {batch : List (Variable α)}
    (h : r.addAll batch = .ok r') : Key.Proper (batch.map (·.key)) := by
  unfold addAll at h
  split at h
  · rename_i hfree
    exact (proper_of_firstTaken? hfree).1
  · cases h
  · cases h

namespace Model

theorem toList_familyOf {name : Value} {batch : List (Residual α)}
    (hn : ∀ f ∈ batch, name = .text f.key.name) (hp : Key.Proper (batch.map (·.key))) :
    (familyOf name batch).toList = batch.map (·.key) := by
  rw [familyOf, Family.toList, Family.items_ofKeys _ _ _ _ hn hp, List.map_map]
  rfl

/-- The family of the keys that the variables at these places have. -/
def familyAt (m : Model α) (places : Family Nat) : Except Error (Family Key) := do
  let items ← places.items.mapM fun (i, p) => do return (i, (← Yield.variableAt m p).key)
  return ⟨places.kind, places.name, items⟩

def placesOf (m : Model α) (name : Value) (batch : List (Variable α)) : Family Nat :=
  .ofItems "Variable" name.toText ((batch.zipIdx m.registry.size).map fun p => (p.1.key.index, p.2))

theorem at?_added {m : Model α} {registry : Registry α} {batch : List (Variable α)}
    (h : m.registry.addAll batch = .ok registry) {v : Variable α} {p : Nat}
    (hp : (v, p) ∈ batch.zipIdx m.registry.size) : registry.at? p = some v := by
  obtain ⟨hle, hv⟩ := List.mk_mem_zipIdx_iff_le_and_getElem?_sub.1 hp
  have hvars : registry.vars = m.registry.vars ++ batch := by
    rw [Registry.vars, Registry.entries_of_addAll h, List.map_append, List.map_map]
    exact congrArg _ (List.map_id batch)
  have hsize : m.registry.vars.length = m.registry.size := List.length_map ..
  rw [Registry.at?, hvars, List.getElem?_append_right (by rw [hsize]; exact hle), hsize, hv]

theorem variableAt_added {m : Model α} {registry : Registry α} {batch : List (Variable α)}
    (h : m.registry.addAll batch = .ok registry) {v : Variable α} {p : Nat}
    (hp : (v, p) ∈ batch.zipIdx m.registry.size) :
    Yield.variableAt { m with registry := registry } p = .ok v := by
  rw [Yield.variableAt, at?_added h hp]

theorem map_key_zipIdx (m : Model α) (batch : List (Variable α)) :
    (batch.zipIdx m.registry.size).map (fun p => p.1.key) = batch.map (·.key) := by
  have h := congrArg (List.map Variable.key) (List.zipIdx_map_fst m.registry.size batch)
  rwa [List.map_map] at h

theorem items_placesOf (m : Model α) {name : Value} {batch : List (Variable α)}
    (hname : ∀ v ∈ batch, name = .text v.key.name) (hproper : Key.Proper (batch.map (·.key))) :
    (m.placesOf name batch).items =
      (batch.zipIdx m.registry.size).map fun p => (p.1.key.index, p.2) := by
  rw [← m.map_key_zipIdx] at hproper
  exact Family.items_ofKeys "Variable" name.toText (fun p => p.1.key) Prod.snd
    (fun p hp => hname p.1 (List.fst_mem_of_mem_zipIdx hp)) hproper

theorem familyAt_placesOf {m : Model α} {name : Value} {batch : List (Variable α)} {r : Registry α}
    (hname : ∀ v ∈ batch, name = .text v.key.name) (hr : m.registry.addAll batch = .ok r) :
    { m with registry := r }.familyAt (m.placesOf name batch) =
      .ok ⟨"Variable", name.toText, batch.map fun v => (v.key.index, v.key)⟩ := by
  have hitems := items_placesOf m hname (Registry.proper_of_addAll hr)
  have hkeys : ∀ p ∈ batch.zipIdx m.registry.size,
      (do return (p.1.key.index, (← Yield.variableAt { m with registry := r } p.2).key)) =
        Except.ok (ε := Error) (p.1.key.index, p.1.key) := by
    intro p hp
    rw [variableAt_added hr hp]
    rfl
  have hbatch := congrArg (List.map fun v => (v.key.index, v.key))
    (List.zipIdx_map_fst m.registry.size batch)
  rw [List.map_map] at hbatch
  rw [familyAt, hitems, List.mapM_map]
  refine (congrArg (· >>= _) (mapM_eq_map hkeys)).trans ?_
  exact congrArg (fun items => Except.ok (Family.mk "Variable" name.toText items)) hbatch

end Model

/-! ## Residuals -/

variable [Scalar α]

theorem Residual.of_make {key : Key} {expr : Operand α} {description : Value} {f : Residual α}
    (h : make key expr description = .ok f) :
    f.key = key ∧ exprField expr = .ok (Reading.ok f.expr) := by
  obtain ⟨e, he, h⟩ := bind_eq_ok.1 h
  obtain ⟨_, d, hd, -, rfl⟩ := Reading.of_seq (Reading.of_get h)
  obtain ⟨e, rfl, rfl⟩ := Reading.of_map hd
  exact ⟨rfl, he⟩

namespace Model

theorem name_of_residualsOf {name : Value} {rule : ExprRule α} {description : Value}
    {indices : List (List Value)} {batch : List (Residual α)}
    (h : residualsOf name rule description indices = .ok batch) :
    ∀ f ∈ batch, name = .text f.key.name := by
  intro f hf
  obtain ⟨index, -, h⟩ := mem_of_mapM h hf
  obtain ⟨key, hkey, h⟩ := bind_eq_ok.1 h
  obtain ⟨e, -, h⟩ := bind_eq_ok.1 h
  rw [(Residual.of_make h).1]
  exact Key.name_of_make hkey

/-! ## Variables -/

theorem name_of_members {m : Model α} {name : Value} {domains : List Value} {f : FamilyFields}
    {batch : List (Variable α)} (h : m.members name domains f = .ok batch) :
    ∀ v ∈ batch, name = .text v.key.name := by
  intro v hv
  obtain ⟨indices, -, h⟩ := bind_eq_ok.1 h
  obtain ⟨index, -, h⟩ := mem_of_mapM h hv
  obtain ⟨key, hkey, h⟩ := bind_eq_ok.1 h
  obtain ⟨lower, -, h⟩ := bind_eq_ok.1 h
  obtain ⟨upper, -, h⟩ := bind_eq_ok.1 h
  obtain ⟨start, -, h⟩ := bind_eq_ok.1 h
  rw [(Variable.of_make h).1]
  exact Key.name_of_make hkey

variable (α) in
/-- The family is one that a model answered with when its variables were added. -/
def Declared (g : Family Key) : Prop :=
  ∃ (m : Model α) (name : Value) (domains : List Value) (f : FamilyFields) (places : Family Nat),
    (addVariables name domains f m).1 = .ok places ∧
      (addVariables name domains f m).2.familyAt places = .ok g

theorem addVariables_eq_ok {m : Model α} {name : Value} {domains : List Value} {f : FamilyFields}
    {places : Family Nat} (h : (addVariables name domains f m).1 = .ok places) :
    ∃ batch registry, m.members name domains f = .ok batch ∧
      m.registry.addAll batch = .ok registry ∧
      (addVariables name domains f m).2 = { m with registry := registry } ∧
      places = m.placesOf name batch := by
  unfold addVariables at h ⊢
  rw [get_bind] at h ⊢
  obtain ⟨_, -, heq⟩ := ok_of_lift_bind h
  rw [heq] at h ⊢
  obtain ⟨batch, hb, heq⟩ := ok_of_lift_bind h
  rw [heq] at h ⊢
  obtain ⟨registry, hr, heq⟩ := ok_of_lift_bind h
  rw [heq] at h ⊢
  cases h
  exact ⟨batch, registry, hb, hr, rfl, rfl⟩

theorem Declared.proper {g : Family Key} (h : Declared α g) : Key.Proper g.toList := by
  obtain ⟨m, name, domains, f, places, hadd, hg⟩ := h
  obtain ⟨batch, registry, hb, hr, hm, rfl⟩ := addVariables_eq_ok hadd
  rw [hm] at hg
  cases (familyAt_placesOf (name_of_members hb) hr).symm.trans hg
  rw [Family.toList, List.map_map]
  exact Registry.proper_of_addAll hr

end Model

end Equilibria
