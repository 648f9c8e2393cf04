import Equilibria.Proofs.Batches
import Equilibria.Proofs.Enumeration

/-!
# Families paired with families

A family of variables is paired with a rule index by index. It is paired with a family of residuals
place by place, in the orders in which the two list their members, so that is index by index just if
they list the same indices in the same order.
-/

namespace Equilibria

open Calls Fallible

variable {α β : Type}

/-! ## Arrays -/

namespace Family

theorem Proper.of_indices {γ : Type} {f : Family β} {g : Family γ} (h : f.Proper)
    (hi : g.indices = f.indices) : g.Proper := by
  refine ⟨fun e he => ?_, ?_⟩
  · have hindex : e.1 ∈ f.indices := hi ▸ List.mem_map_of_mem he
    obtain ⟨d, hd, heq⟩ := List.mem_map.1 hindex
    rw [← heq]
    exact h.fixed d hd
  · have hindices : f.indices.Pairwise fun i j => sameIndex i j = false :=
      List.pairwise_map.2 h.distinct
    rw [← hi] at hindices
    exact List.pairwise_map.1 hindices

theorem getElem?_items {f : Family β} {n : Nat} {i : List Value} (h : f.indices[n]? = some i) :
    ∃ x, (i, x) ∈ f.items ∧ f.toList[n]? = some x := by
  rw [indices, List.getElem?_map, Option.map_eq_some_iff] at h
  obtain ⟨⟨_, x⟩, hx, rfl⟩ := h
  exact ⟨x, List.mem_of_getElem? hx, by rw [toList, List.getElem?_map, hx]; rfl⟩

theorem of_get {f : Family β} {i : List Value} {x : β} (h : f.get i = .ok x) :
    ∃ (n : Nat) (j : List Value), f.items[n]? = some (j, x) ∧ sameIndex j i = true := by
  rw [get] at h
  split at h
  · cases h
  · split at h
    · rename_i hfind
      cases h
      obtain ⟨e, he, rfl⟩ := Option.map_eq_some_iff.1 hfind
      obtain ⟨n, hn⟩ := List.getElem?_of_mem (List.mem_of_find?_eq_some he)
      exact ⟨n, e.1, hn, List.find?_some (p := fun e : List Value × β => sameIndex e.1 i) he⟩
    · cases h

end Family

namespace Pairing

theorem proper_of_correspond {t t' : Pairing} {residuals vars : List Key} {pairs : List Pair}
    (h : t.correspond residuals vars = .ok (t', pairs)) : Key.Proper residuals := by
  have hproper := t'.proper_residuals
  rw [of_correspond h] at hproper
  exact ⟨fun k hk => hproper.fixed k (List.mem_append_right _ hk),
    (List.pairwise_append.1 hproper.distinct).2.1⟩

theorem residualFor_eq (t : Pairing) {p : Pair} (hp : p ∈ t.pairs) :
    t.residualFor p.var = .ok p.res := by
  have hfixed : p.var.isFixed = true := t.properVars.fixed _ (List.mem_map_of_mem hp)
  have hfind : t.pairs.find? (·.var == p.var) = some p := t.properVars.find?_eq hp BEq.rfl
  rw [residualFor, hfixed, hfind]
  rfl

theorem residualFor_of_correspond {t t' : Pairing} {residuals vars : List Key} {pairs : List Pair}
    (h : t.correspond residuals vars = .ok (t', pairs)) {n : Nat} {r v : Key}
    (hr : residuals[n]? = some r) (hv : vars[n]? = some v) : t'.residualFor v = .ok r := by
  have hpair : (List.zipWith Pair.mk residuals vars)[n]? = some ⟨r, v⟩ := by
    rw [List.getElem?_zipWith, hr, hv]
  refine t'.residualFor_eq (p := ⟨r, v⟩) ?_
  rw [(pairs_of_correspond h).1]
  exact List.mem_append_right _ (List.mem_of_getElem? hpair)

end Pairing

variable [Scalar α]

theorem Key.index_of_make {name : Value} {i : List Value} {k : Key}
    (h : make (some name) (some (.tuple i)) = .ok k) : k.index = i := by
  obtain ⟨s, -, rfl⟩ := Reading.of_map (Reading.of_get h)
  rfl

namespace Model

/-! ## Families as they are made -/

theorem proper_of_addVariables {m : Model α} {name : Value} {domains : List Value}
    {f : FamilyFields} {places : Family Nat}
    (h : (addVariables name domains f m).1 = .ok places) : places.Proper := by
  obtain ⟨batch, registry, hb, hr, -, rfl⟩ := addVariables_eq_ok h
  exact proper_placesOf (name_of_members hb) (Registry.proper_of_addAll hr)

omit [Scalar α] in
theorem indices_familyAt {m : Model α} {places : Family Nat} {g : Family Key}
    (h : m.familyAt places = .ok g) : g.indices = places.indices := by
  obtain ⟨items, hitems, h⟩ := bind_eq_ok.1 h
  cases h
  refine (map_of_forall₂ ((forall₂_of_mapM.1 hitems).imp ?_)).symm
  intro e d hd
  obtain ⟨v, -, hd⟩ := bind_eq_ok.1 hd
  cases hd
  rfl

omit [Scalar α] in
theorem proper_familyOf {name : Value} {batch : List (Residual α)}
    (hn : ∀ f ∈ batch, name = .text f.key.name) (hp : Key.Proper (batch.map (·.key))) :
    (familyOf name batch).Proper :=
  Family.proper_of_keys (Family.items_ofKeys "Residual" name.toText Residual.key Residual.key hn hp)
    hn hp

theorem proper_of_addExpressions {m : Model α} {name : Value} {rule : ExprRule α}
    {domains : List Value} {description : Value} {e : Family Key}
    (h : (addExpressions name rule domains description m).1 = .ok e) : e.Proper := by
  unfold addExpressions at h
  rw [get_bind] at h
  obtain ⟨_, -, heq⟩ := ok_of_lift_bind h
  rw [heq] at h
  obtain ⟨tuples, -, heq⟩ := ok_of_lift_bind h
  rw [heq] at h
  obtain ⟨batch, hb, heq⟩ := ok_of_lift_bind h
  rw [heq] at h
  obtain ⟨residuals, hr, heq⟩ := ok_of_lift_bind h
  rw [heq] at h
  cases h
  exact proper_familyOf (name_of_residualsOf hb) (Residuals.of_addAll hr).2.1

/-! ## Pairing -/

variable {m : Model α} {source : Source α} {rule : ExprRule α} {e g : Family Key} {name : Value}
  {r : Paired}

theorem complements_family (h : (complements source (.vars g) name m).1 = .ok r) :
    complements source (.vars g) name m = complementFamily source g name m := by
  unfold complements at h ⊢
  rw [get_bind] at h ⊢
  obtain ⟨_, -, heq⟩ := ok_of_lift_bind h
  rw [heq] at h ⊢
  obtain ⟨targets, -, heq⟩ := ok_of_lift_bind h
  rw [heq] at h ⊢
  obtain ⟨keys, -, heq⟩ := ok_of_lift_bind h
  rw [heq] at h ⊢
  obtain ⟨_, -, heq⟩ := ok_of_lift_bind h
  rw [heq] at h ⊢
  obtain ⟨taken, -, heq⟩ := ok_of_lift_bind h
  rw [heq] at h ⊢
  split at h
  · rfl
  · cases h

theorem complements_rule {g : Family Key} (name : Value) {rule : ExprRule α}
    {batch : List (Residual α)} {residuals : Residuals α} {t : Pairing} {pairs : List Pair}
    (hs : m.status = .unsolved) (hknown : ∀ k ∈ g.toList, m.registry.keys.contains k = true)
    (hfree : ∀ k ∈ g.toList, m.pairing.vars.contains k = false)
    (hb : residualsOf (residualName name g.name) rule (.text "") g.indices = .ok batch)
    (hr : m.residuals.addAll batch = .ok residuals)
    (ht : m.pairing.correspond (batch.map (·.key)) g.toList = .ok (t, pairs)) :
    ∃ r, complements (.rule rule) (.vars g) name m =
      (.ok r, { m with residuals := residuals, pairing := t }) := by
  have hfixed : ∀ k ∈ g.toList, k.isFixed = true := fun k hk =>
    m.registry.proper_keys.fixed_of_contains (hknown k hk)
  have hlist := toList_familyOf (name_of_residualsOf hb) (Residuals.of_addAll hr).2.1
  have hitems : (Component.vars g).items = .ok (g.toList.map .variable) := rfl
  refine ⟨.family (familyOf (residualName name g.name) batch), ?_⟩
  unfold complements
  rw [get_bind, lift_bind_ok (requireUnsolved_ok hs _), lift_bind_ok hitems,
    lift_bind_ok (keysOf_variables g.toList),
    lift_bind_ok (requireRegistered_ok hknown), lift_bind_ok (takenTargets_ok hfixed hfree)]
  simp only
  unfold complementFamily
  rw [get_bind]
  simp only [Source.toRule]
  rw [lift_bind_ok hb, lift_bind_ok hr, set_bind, hlist, bind_apply, pair, get_bind,
    lift_bind_ok ht]
  rfl

omit [Scalar α] in
theorem pair_eq_ok {residuals vars : List Key} {pairs : List Pair}
    (h : (pair residuals vars m).1 = .ok pairs) :
    ∃ t, m.pairing.correspond residuals vars = .ok (t, pairs) ∧
      pair residuals vars m = (.ok pairs, { m with pairing := t }) := by
  unfold pair at h ⊢
  rw [get_bind] at h ⊢
  obtain ⟨⟨t, _⟩, ht, heq⟩ := ok_of_lift_bind h
  rw [heq] at h ⊢
  cases h
  exact ⟨t, ht, rfl⟩

theorem complementFamily_residuals (h : (complementFamily (.residuals e) g name m).1 = .ok r) :
    ∃ t pairs, m.pairing.correspond e.toList g.toList = .ok (t, pairs) ∧
      (complementFamily (.residuals e) g name m).2 = { m with pairing := t } := by
  unfold complementFamily at h ⊢
  rw [get_bind] at h ⊢
  simp only at h ⊢
  obtain ⟨_, -, heq⟩ := ok_of_lift_bind h
  rw [heq] at h ⊢
  obtain ⟨pairs, m', hpair, heq⟩ := ok_of_bind h
  obtain ⟨t, ht, hm⟩ := pair_eq_ok (congrArg Prod.fst hpair)
  rw [heq]
  cases hpair.symm.trans hm
  exact ⟨t, pairs, ht, rfl⟩

theorem complementFamily_rule (h : (complementFamily (.rule rule) g name m).1 = .ok r) :
    ∃ batch residuals t pairs,
      residualsOf (residualName name g.name) rule (.text "") g.indices = .ok batch ∧
      m.residuals.addAll batch = .ok residuals ∧
      m.pairing.correspond (batch.map (·.key)) g.toList = .ok (t, pairs) ∧
      (complementFamily (.rule rule) g name m).2 =
        { m with residuals := residuals, pairing := t } := by
  unfold complementFamily at h ⊢
  rw [get_bind] at h ⊢
  simp only at h ⊢
  obtain ⟨batch, hb, heq⟩ := ok_of_lift_bind h
  rw [heq] at h ⊢
  obtain ⟨residuals, hr, heq⟩ := ok_of_lift_bind h
  rw [heq] at h ⊢
  rw [set_bind] at h ⊢
  simp only [toList_familyOf (name_of_residualsOf hb) (Residuals.of_addAll hr).2.1] at h ⊢
  obtain ⟨pairs, m', hpair, heq⟩ := ok_of_bind h
  obtain ⟨t, ht, hm⟩ := pair_eq_ok (congrArg Prod.fst hpair)
  rw [heq]
  cases hpair.symm.trans hm
  exact ⟨batch, residuals, t, pairs, hb, hr, ht, rfl⟩

/-! ## What is paired with what -/

/-- Each variable is paired with the residual that the rule gives for its index. -/
def PairedByRule (m : Model α) (rule : ExprRule α) (g : Family Key) (name : Value) : Prop :=
  ∀ i ∈ g.indices, ∃ k f o, g.get i = .ok k ∧ m.pairing.residualFor k = .ok f.key ∧
    residualName name g.name = .text f.key.name ∧ f.key.index = i ∧ m.residuals.get f.key = .ok f ∧
    rule i = .ok o ∧ Residual.exprField o = .ok (Reading.ok f.expr)

/-- Each variable is paired with the residual in its place. -/
def PairedByPlace (m : Model α) (e g : Family Key) : Prop :=
  e.size = g.size ∧ ∀ (n : Nat) (r k : Key), e.toList[n]? = some r → g.toList[n]? = some k →
    m.pairing.residualFor k = .ok r

/-- Each variable is paired with the residual of its index. -/
def PairedByIndex (m : Model α) (e g : Family Key) : Prop :=
  ∀ i ∈ g.indices, ∃ k r, g.get i = .ok k ∧ e.get i = .ok r ∧ m.pairing.residualFor k = .ok r

/-- The families list the same indices in the same order. -/
def SameOrder (e g : Family Key) : Prop :=
  List.Forall₂ (fun i j => Family.sameIndex i j = true) e.indices g.indices

theorem pairedByRule_of_ok (hg : g.Proper)
    (h : (complementFamily (.rule rule) g name m).1 = .ok r) :
    (complementFamily (.rule rule) g name m).2.PairedByRule rule g name := by
  obtain ⟨batch, residuals, t, pairs, hb, hr, ht, hm⟩ := complementFamily_rule h
  rw [hm]
  intro i hi
  obtain ⟨n, hn⟩ := List.getElem?_of_mem hi
  obtain ⟨k, hitem, hk⟩ := Family.getElem?_items hn
  obtain ⟨f, hf, hmake⟩ := getElem?_of_mapM hb hn
  obtain ⟨key, hkey, hmake⟩ := bind_eq_ok.1 hmake
  obtain ⟨o, ho, hmake⟩ := bind_eq_ok.1 hmake
  obtain ⟨hfkey, hexpr⟩ := Residual.of_make hmake
  have hres : (batch.map (·.key))[n]? = some f.key := by rw [List.getElem?_map, hf]; rfl
  have hmem : f ∈ residuals.items := by
    rw [(Residuals.of_addAll hr).1]
    exact List.mem_append_right _ (List.mem_of_getElem? hf)
  refine ⟨k, f, o, hg.get_eq hitem (Family.sameIndex_refl i),
    Pairing.residualFor_of_correspond ht hres hk,
    name_of_residualsOf hb f (List.mem_of_getElem? hf), ?_, residuals.get_eq hmem BEq.rfl, ho, hexpr⟩
  rw [hfkey]
  exact Key.index_of_make hkey

theorem pairedByPlace_of_ok (h : (complementFamily (.residuals e) g name m).1 = .ok r) :
    (complementFamily (.residuals e) g name m).2.PairedByPlace e g := by
  obtain ⟨t, pairs, ht, hm⟩ := complementFamily_residuals h
  rw [hm]
  refine ⟨?_, fun n r k hr hk => Pairing.residualFor_of_correspond ht hr hk⟩
  have hlength := (Pairing.pairs_of_correspond ht).2
  rwa [Family.toList, Family.toList, List.length_map, List.length_map] at hlength

theorem pairedByIndex_iff (hg : g.Proper) (he : e.Proper)
    (h : (complementFamily (.residuals e) g name m).1 = .ok r) :
    (complementFamily (.residuals e) g name m).2.PairedByIndex e g ↔ SameOrder e g := by
  obtain ⟨hsize, hplace⟩ := pairedByPlace_of_ok h
  have hlength : e.indices.length = g.indices.length := by
    rwa [Family.indices, Family.indices, List.length_map, List.length_map]
  constructor
  · intro hpaired
    refine List.forall₂_iff_get.2 ⟨hlength, fun n hn hn' => ?_⟩
    obtain ⟨t, pairs, ht, -⟩ := complementFamily_residuals h
    obtain ⟨k, hitem, hk⟩ := Family.getElem?_items (List.getElem?_eq_getElem hn')
    obtain ⟨r, hitem', hr⟩ := Family.getElem?_items (List.getElem?_eq_getElem hn)
    obtain ⟨k', r', hk', hr', hpair⟩ := hpaired _ (List.getElem_mem hn')
    cases hk'.symm.trans (hg.get_eq hitem (Family.sameIndex_refl _))
    cases hpair.symm.trans (hplace n r k hr hk)
    obtain ⟨p, j, hp, hsame⟩ := Family.of_get hr'
    have hplaces : e.toList[p]? = some r := by rw [Family.toList, List.getElem?_map, hp]; rfl
    have hdistinct := Pairing.proper_of_correspond ht
    have hpn : some p = some n :=
      (hdistinct.findIdx?_eq hplaces BEq.rfl).symm.trans (hdistinct.findIdx?_eq hr BEq.rfl)
    cases hpn
    have hj : e.indices[n]? = some j := by rw [Family.indices, List.getElem?_map, hp]; rfl
    cases (List.getElem?_eq_getElem hn).symm.trans hj
    exact hsame
  · intro horder i hi
    obtain ⟨n, hn⟩ := List.getElem?_of_mem hi
    obtain ⟨k, hitem, hk⟩ := Family.getElem?_items hn
    obtain ⟨hlt, hget⟩ := List.getElem?_eq_some_iff.1 hn
    have hlt' : n < e.indices.length := hlength ▸ hlt
    obtain ⟨r, hitem', hr⟩ := Family.getElem?_items (List.getElem?_eq_getElem hlt')
    have hsame : Family.sameIndex e.indices[n] i = true := hget ▸ horder.get hlt' hlt
    exact ⟨k, r, hg.get_eq hitem (Family.sameIndex_refl i), he.get_eq hitem' hsame,
      hplace n r k hr hk⟩

end Model

/-- Variables are paired with what a rule gives for their indices. With a family of residuals they
are paired place by place, and index by index just if the orders agree. -/
theorem elementwise_of_complements {m₀ m : Model α} {text : Value} {domains : List Value}
    {f : Model.FamilyFields} {places : Family Nat} {g : Family Key}
    (hadd : (Model.addVariables text domains f m₀).1 = .ok places)
    (hg : m.familyAt places = .ok g) (name : Value) :
    (∀ (rule : Model.ExprRule α) (r : Model.Paired),
      (Model.complements (.rule rule) (.vars g) name m).1 = .ok r →
        (Model.complements (.rule rule) (.vars g) name m).2.PairedByRule rule g name) ∧
    ∀ (e : Family Key) (r : Model.Paired), e.Proper →
      (Model.complements (.residuals e) (.vars g) name m).1 = .ok r →
        let m' := (Model.complements (.residuals e) (.vars g) name m).2
        m'.PairedByPlace e g ∧ (m'.PairedByIndex e g ↔ Model.SameOrder e g) := by
  have hproper : g.Proper :=
    (Model.proper_of_addVariables hadd).of_indices (Model.indices_familyAt hg)
  constructor
  · intro rule r h
    have heq := Model.complements_family h
    rw [heq] at h ⊢
    exact Model.pairedByRule_of_ok hproper h
  · intro e r he h
    have heq := Model.complements_family h
    rw [heq] at h ⊢
    exact ⟨Model.pairedByPlace_of_ok h, Model.pairedByIndex_iff hproper he h⟩

/-! ## Two orders -/

def ownVariable : Model.ExprRule Float := fun i => .ok (.expr (.ref ⟨"x", i⟩))

def withResiduals (indices : List Value) : Model Float :=
  Operation.runAll (.empty "m" "" .empty .unsolved)
    (twoMembers ++ [.addExpressions (.text "F") ownVariable [.list indices] (.text "")])

def residualKeys (indices : List Value) : Family Key :=
  ⟨"Residual", "F", indices.map fun i => ([i], ⟨"F", [i]⟩)⟩

/-- A rule, and residuals in the same order, are paired index by index. -/
theorem elementwise_of_twoKeys : let m := withResiduals [.int 1, .int 2]
    let ordered := residualKeys [.int 1, .int 2]
    (Model.complements (.rule ownVariable) (.vars twoKeys) (.text "G") m).2.PairedByRule ownVariable
        twoKeys (.text "G") ∧
      (Model.complements (.residuals ordered) (.vars twoKeys) .null m).2.PairedByIndex ordered
        twoKeys := by
  intro m ordered
  have hadd : (Model.addVariables (.text "x") [.list [.int 1, .int 2]] {}
    (.empty "m" "" .empty .unsolved : Model Float)).1 =
      .ok ⟨"Variable", "x", [([.int 1], 0), ([.int 2], 1)]⟩ := by rfl
  have hg : m.familyAt ⟨"Variable", "x", [([.int 1], 0), ([.int 2], 1)]⟩ = .ok twoKeys := by rfl
  have hexpressions : (Model.addExpressions (.text "F") ownVariable [.list [.int 1, .int 2]]
    (.text "") (withResiduals [])).1 = .ok ordered := by rfl
  have hproper : ordered.Proper := Model.proper_of_addExpressions hexpressions
  refine ⟨(elementwise_of_complements hadd hg _).1 ownVariable _ (by rfl), ?_⟩
  exact ((elementwise_of_complements hadd hg _).2 ordered _ hproper (by rfl)).2.2
    (.cons (Family.sameIndex_refl _) (.cons (Family.sameIndex_refl _) .nil))

/-- Residuals in the other order have the same indices, but `x[1]` is paired with `F[2]`. -/
theorem crossed_of_reversed : let m := withResiduals [.int 2, .int 1]
    let reversed := residualKeys [.int 2, .int 1]
    let c := Model.complements (.residuals reversed) (.vars twoKeys) .null m
    Model.Declared Float twoKeys ∧
      (Model.addExpressions (.text "F") ownVariable [.list [.int 2, .int 1]] (.text "")
        (withResiduals [])).1 = .ok reversed ∧
      (∀ i ∈ twoKeys.indices, ∃ r, reversed.get i = .ok r) ∧ (∃ r, c.1 = .ok r) ∧
      c.2.pairing.residualFor ⟨"x", [.int 1]⟩ = .ok ⟨"F", [.int 2]⟩ ∧
      ¬ c.2.PairedByIndex reversed twoKeys := by
  intro m reversed c
  have hcrossed : c.2.pairing.residualFor ⟨"x", [.int 1]⟩ = .ok ⟨"F", [.int 2]⟩ := by rfl
  refine ⟨declared_twoKeys, by rfl, ?_, ⟨_, by rfl⟩, hcrossed, fun h => ?_⟩
  · intro i hi
    rcases List.mem_pair.1 hi with rfl | rfl
    · exact ⟨_, by rfl⟩
    · exact ⟨_, by rfl⟩
  · obtain ⟨k, r, hk, hr, hpair⟩ := h [.int 1] (List.mem_cons_self ..)
    cases (show twoKeys.get [.int 1] = .ok ⟨"x", [.int 1]⟩ by rfl).symm.trans hk
    cases (show reversed.get [.int 1] = .ok ⟨"F", [.int 1]⟩ by rfl).symm.trans hr
    cases hcrossed.symm.trans hpair

end Equilibria
