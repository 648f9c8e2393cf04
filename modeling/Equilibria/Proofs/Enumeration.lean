import Equilibria.Proofs.Changes
import Equilibria.Proofs.Products

/-!
# Families over domains

A family has one variable for each tuple of the product of its domains, in the order of the product.
It is added if its keys are new and different from each other, and else it is refused for the first
key that is not.
-/

namespace Equilibria

open Calls Fallible

variable {α β γ : Type}

/-! ## Item by item -/

theorem exists_forall₂ {R : β → γ → Prop} {xs : List β} (h : ∀ x ∈ xs, ∃ y, R x y) :
    ∃ ys, List.Forall₂ R xs ys := by
  induction xs with
  | nil => exact ⟨[], .nil⟩
  | cons x r ih =>
    obtain ⟨y, hy⟩ := h x List.mem_cons_self
    obtain ⟨ys, hys⟩ := ih fun a ha => h a (List.mem_cons_of_mem _ ha)
    exact ⟨y :: ys, .cons hy hys⟩

theorem forall₂_of_mapM {ε : Type} {f : β → Except ε γ} {xs : List β} {ys : List γ} :
    xs.mapM f = .ok ys ↔ List.Forall₂ (fun x y => f x = .ok y) xs ys := by
  induction xs generalizing ys with
  | nil =>
    rw [List.forall₂_nil_left_iff]
    exact ⟨fun h => (Except.ok.inj h).symm, fun h => h ▸ rfl⟩
  | cons x r ih =>
    rw [mapM_cons_eq_ok, List.forall₂_cons_left_iff]
    constructor
    · rintro ⟨y, zs, hy, hz, rfl⟩
      exact ⟨y, zs, hy, ih.1 hz, rfl⟩
    · rintro ⟨y, zs, hy, hz, rfl⟩
      exact ⟨y, zs, hy, ih.2 hz, rfl⟩

theorem map_of_forall₂ {δ : Type} {f : β → δ} {g : γ → δ} {xs : List β} {ys : List γ}
    (h : List.Forall₂ (fun x y => f x = g y) xs ys) : xs.map f = ys.map g := by
  induction h with
  | nil => rfl
  | cons hy _ ih => rw [List.map_cons, List.map_cons, hy, ih]

/-! ## The first key that is taken -/

namespace Registry

/-- None of the keys is taken, and no two of them are the same. -/
structure Free (taken keys : List Key) : Prop where
  distinct : keys.Pairwise fun a b => (a == b) = false
  fresh : ∀ k ∈ keys, taken.contains k = false

/-- The key in this place is the first that is taken or repeats an earlier one. -/
structure FirstTaken (taken keys : List Key) (n : Nat) (k : Key) : Prop where
  place : keys[n]? = some k
  isTaken : taken.contains k = true ∨ (keys.take n).contains k = true
  before : Free taken (keys.take n)

theorem Free.cons {taken keys : List Key} {k : Key} (hk : taken.contains k = false)
    (h : Free (k :: taken) keys) : Free taken (k :: keys) := by
  have hfresh : ∀ a ∈ keys, (a == k) = false ∧ taken.contains a = false := by
    simpa only [List.contains_cons, Bool.or_eq_false_iff] using h.fresh
  refine ⟨List.pairwise_cons.2 ⟨fun a ha => ?_, h.distinct⟩, fun a ha => ?_⟩
  · exact Key.beq_false_symm (hfresh a ha).1
  · rcases List.mem_cons.1 ha with rfl | ha
    · exact hk
    · exact (hfresh a ha).2

theorem FirstTaken.cons {taken keys : List Key} {n : Nat} {k a : Key}
    (hk : taken.contains k = false) (h : FirstTaken (k :: taken) keys n a) :
    FirstTaken taken (k :: keys) (n + 1) a := by
  refine ⟨h.place, ?_, h.before.cons hk⟩
  rcases h.isTaken with htaken | hbefore
  · rw [List.contains_cons, Bool.or_eq_true] at htaken
    rcases htaken with heq | htaken
    · exact .inr (by rw [List.take_succ_cons, List.contains_cons, heq]; rfl)
    · exact .inl htaken
  · exact .inr (by rw [List.take_succ_cons, List.contains_cons, hbefore, Bool.or_true])

theorem FirstTaken.not_free {taken keys : List Key} {n : Nat} {k : Key}
    (h : FirstTaken taken keys n k) : ¬ Free taken keys := by
  intro hfree
  rcases h.isTaken with htaken | hbefore
  · rw [hfree.fresh k (List.mem_of_getElem? h.place)] at htaken
    cases htaken
  · obtain ⟨a, ha, hak⟩ := Key.contains_iff.1 hbefore
    obtain ⟨i, hi⟩ := List.getElem?_of_mem ha
    rw [List.getElem?_take] at hi
    split at hi
    · obtain ⟨hin, rfl⟩ := List.getElem?_eq_some_iff.1 hi
      obtain ⟨hn, rfl⟩ := List.getElem?_eq_some_iff.1 h.place
      rw [List.pairwise_iff_getElem.1 hfree.distinct _ _ hin hn ‹_›] at hak
      cases hak
    · cases hi

theorem firstTaken?_cases {keys : List Key} (hf : ∀ k ∈ keys, k.isFixed = true)
    (taken : List Key) : firstTaken? taken keys = .ok none ∧ Free taken keys ∨
      ∃ n k, firstTaken? taken keys = .ok (some k) ∧ FirstTaken taken keys n k := by
  induction keys generalizing taken with
  | nil => exact .inl ⟨rfl, .nil, by simp⟩
  | cons k r ih =>
    have hk : (!k.isFixed) = false := by rw [hf k List.mem_cons_self]; rfl
    rw [firstTaken?, hk, if_neg Bool.false_ne_true]
    cases htaken : taken.contains k with
    | true => exact .inr ⟨0, k, rfl, rfl, .inl htaken, .nil, by simp⟩
    | false =>
      rw [if_neg Bool.false_ne_true]
      rcases ih (fun a ha => hf a (List.mem_cons_of_mem _ ha)) (k :: taken) with
        ⟨hr, hfree⟩ | ⟨n, a, hr, hfirst⟩
      · exact .inl ⟨hr, hfree.cons htaken⟩
      · exact .inr ⟨n + 1, a, hr, hfirst.cons htaken⟩

theorem firstTaken?_of_free {taken keys : List Key} (hf : ∀ k ∈ keys, k.isFixed = true)
    (h : Free taken keys) : firstTaken? taken keys = .ok none := by
  rcases firstTaken?_cases hf taken with ⟨hnone, -⟩ | ⟨n, k, -, hfirst⟩
  · exact hnone
  · exact absurd h hfirst.not_free

theorem addAll_ok {r : Registry α} {batch : List (Variable α)}
    (h : firstTaken? r.keys (batch.map (·.key)) = .ok none) : ∃ r', r.addAll batch = .ok r' := by
  unfold addAll
  split
  · exact ⟨_, rfl⟩
  · rename_i h'
    cases h.symm.trans h'
  · rename_i h'
    cases h.symm.trans h'

theorem addAll_error {r : Registry α} {batch : List (Variable α)} {k : Key}
    (h : firstTaken? r.keys (batch.map (·.key)) = .ok (some k)) :
    r.addAll batch = .error (.duplicateVariable k) := by
  unfold addAll
  split
  · rename_i h'
    cases h.symm.trans h'
  · rename_i h'
    cases h.symm.trans h'
    rfl
  · rename_i h'
    cases h.symm.trans h'

end Registry

theorem Residuals.addAll_ok {r : Residuals α} {batch : List (Residual α)}
    (h : Registry.firstTaken? r.keys (batch.map (·.key)) = .ok none) :
    ∃ r', r.addAll batch = .ok r' := by
  unfold addAll
  split
  · exact ⟨_, rfl⟩
  · rename_i h'
    cases h.symm.trans h'
  · rename_i h'
    cases h.symm.trans h'

/-! ## Members of families -/

theorem Value.allFixed_iff {vs : List Value} :
    allFixed vs = true ↔ ∀ v ∈ vs, v.isFixed = true := by
  induction vs with
  | nil => simp [allFixed]
  | cons v r ih => simp [allFixed, ih]

theorem allFixed_of_mem_product {ds : List (List Value)}
    (h : ∀ d ∈ ds, Value.allFixed d = true) {t : List Value} (ht : t ∈ product ds) :
    Value.allFixed t = true := by
  rw [mem_product] at ht
  induction ht with
  | nil => rfl
  | @cons v d t ds hv _ ih =>
    have hd := Value.allFixed_iff.1 (h d List.mem_cons_self) v hv
    rw [Value.allFixed, hd, ih fun d hd => h d (List.mem_cons_of_mem _ hd)]
    rfl

namespace Family

theorem sameIndex_iff {i j : List Value} :
    sameIndex i j = true ↔ i.map Value.form = j.map Value.form := by rw [sameIndex, beq_iff_eq]

theorem sameIndex_refl (i : List Value) : sameIndex i i = true := sameIndex_iff.2 rfl

structure Proper (f : Family β) : Prop where
  fixed : ∀ e ∈ f.items, Value.allFixed e.1 = true
  distinct : f.items.Pairwise fun a b => sameIndex a.1 b.1 = false

theorem Proper.find?_eq {f : Family β} (h : f.Proper) {e : List Value × β} (he : e ∈ f.items)
    {i : List Value} (hi : sameIndex e.1 i = true) : f.find? i = some e.2 := by
  have hfind : ∀ items : List (List Value × β), e ∈ items →
      items.Pairwise (fun a b => sameIndex a.1 b.1 = false) →
        items.find? (fun a => sameIndex a.1 i) = some e := by
    intro items
    induction items with
    | nil =>
      intro he
      cases he
    | cons a r ih =>
      intro he hd
      obtain ⟨ha, hr⟩ := List.pairwise_cons.1 hd
      rw [List.find?_cons]
      rcases List.mem_cons.1 he with rfl | he
      · rw [hi]
      · cases hai : sameIndex a.1 i with
        | true =>
          have hae : sameIndex a.1 e.1 = true :=
            sameIndex_iff.2 ((sameIndex_iff.1 hai).trans (sameIndex_iff.1 hi).symm)
          rw [ha e he] at hae
          cases hae
        | false => exact ih he hr
  exact congrArg (Option.map (·.2)) (hfind f.items he h.distinct)

theorem Proper.get_eq {f : Family β} (h : f.Proper) {e : List Value × β} (he : e ∈ f.items)
    {i : List Value} (hi : sameIndex e.1 i = true) : f.get i = .ok e.2 := by
  have hfixed : Value.allFixed i = true :=
    (Key.allFixed_of_forms (sameIndex_iff.1 hi)).symm.trans (h.fixed e he)
  rw [get, hfixed, h.find?_eq he hi]
  rfl

theorem proper_of_keys {f : Family γ} {key : β → Key} {value : β → γ} {xs : List β}
    (hf : f.items = xs.map fun x => ((key x).index, value x)) {text : Value}
    (hn : ∀ x ∈ xs, text = .text (key x).name) (hp : Key.Proper (xs.map key)) : f.Proper := by
  refine ⟨fun e he => ?_, ?_⟩
  · rw [hf] at he
    obtain ⟨x, hx, rfl⟩ := List.mem_map.1 he
    exact hp.fixed (key x) (List.mem_map_of_mem hx)
  · rw [hf]
    refine List.pairwise_map.2 ?_
    refine (List.pairwise_map.1 hp.distinct).imp_of_mem fun {a b} ha hb hne => ?_
    have hname : (key a).name = (key b).name := Value.text.inj ((hn a ha).symm.trans (hn b hb))
    rw [Key.sameIndex_eq hname, hne]

end Family

variable [Scalar α]

structure IsMember (name : String) (f : Model.FamilyFields) (t : List Value) (v : Variable α) :
    Prop where
  key : v.key = ⟨name, t⟩
  lower : ∃ l, f.lower t = .ok l ∧ Variable.lowerField l = .ok (Reading.ok v.lower)
  upper : ∃ u, f.upper t = .ok u ∧ Variable.upperField u = .ok (Reading.ok v.upper)
  start : ∃ s, f.start t = .ok s ∧ Variable.startField s = Reading.ok v.start
  description : textField "description" f.description = Reading.ok v.description
  value : v.value = none

theorem Key.make_text {name : String} (h : name ≠ "") (t : List Value) :
    Key.make (some (.text name)) (some (.tuple t)) = .ok ⟨name, t⟩ := by
  have hname : name.isEmpty = false := by simpa using h
  rw [make, read, requiredText, hname]
  rfl

def AreMembers (name : String) (f : Model.FamilyFields) (tuples : List (List Value))
    (batch : List (Variable α)) : Prop := List.Forall₂ (IsMember name f) tuples batch

namespace AreMembers

variable {name : String} {f : Model.FamilyFields} {tuples : List (List Value)}
  {batch : List (Variable α)}

theorem keys_eq (h : AreMembers name f tuples batch) :
    batch.map (·.key) = tuples.map (Key.mk name) :=
  (map_of_forall₂ (h.imp fun _ _ hv => hv.key.symm)).symm

theorem getElem? (h : AreMembers name f tuples batch) {n : Nat} {t : List Value}
    (ht : tuples[n]? = some t) : ∃ v, batch[n]? = some v ∧ IsMember name f t v := by
  obtain ⟨hn, rfl⟩ := List.getElem?_eq_some_iff.1 ht
  have hbatch : n < batch.length := h.length_eq ▸ hn
  exact ⟨batch[n], List.getElem?_eq_getElem hbatch, h.get hn hbatch⟩

end AreMembers

namespace Model

theorem memberOf_eq {name : String} (hn : name ≠ "") {f : FamilyFields} {t : List Value}
    {v : Variable α} (h : IsMember name f t v) : memberOf (.text name) f t = .ok v := by
  obtain ⟨hkey, ⟨l, hl, hlower⟩, ⟨u, hu, hupper⟩, ⟨s, hs, hstart⟩, hdescription, hvalue⟩ := h
  obtain ⟨key, lower, upper, start, description, value⟩ := v
  cases hkey
  cases hvalue
  simp only [memberOf, Key.make_text hn, hl, hu, hs, Variable.make, hlower, hupper, hstart,
    hdescription, bind, Except.bind]
  rfl

variable {m : Model α} {name : String} {domains : List Value} {ds : List (List Value)}
  {f : FamilyFields} {batch : List (Variable α)}

theorem members_eq (hn : name ≠ "") (hd : domains.mapM m.catalog.resolve = .ok ds)
    (hb : AreMembers name f (product ds) batch) :
    m.members (.text name) domains f = .ok batch := by
  have hbatch : (product ds).mapM (memberOf (.text name) f) = .ok batch :=
    forall₂_of_mapM.2 (hb.imp fun _ _ => memberOf_eq hn)
  rw [members, Catalog.product, hd]
  exact hbatch

theorem addVariables_apply (hs : m.status = .unsolved)
    (hb : m.members (.text name) domains f = .ok batch) :
    addVariables (.text name) domains f m = match m.registry.addAll batch with
      | .ok r => (.ok (m.placesOf (.text name) batch), { m with registry := r })
      | .error e => (.error e, m) := by
  unfold addVariables
  rw [get_bind, bind_apply, lift_apply, requireUnsolved_ok hs]
  simp only
  rw [bind_apply, lift_apply, hb]
  simp only
  rw [bind_apply, lift_apply]
  cases m.registry.addAll batch <;> rfl

omit [Scalar α] in
theorem proper_placesOf {name : Value} (hname : ∀ v ∈ batch, name = .text v.key.name)
    (hproper : Key.Proper (batch.map (·.key))) : (m.placesOf name batch).Proper := by
  refine Family.proper_of_keys (items_placesOf m hname hproper)
    (fun p hp => hname p.1 (List.fst_mem_of_mem_zipIdx hp)) ?_
  rwa [← m.map_key_zipIdx batch] at hproper

/-- What is left of a model when a family over these tuples has been added. -/
structure Extended (m m' : Model α) (name : String) (f : FamilyFields)
    (tuples : List (List Value)) (places : Family Nat) : Prop where
  others : m' = { m with registry := m'.registry }
  kept : m.registry.entries <+: m'.registry.entries
  keys : m'.registry.keys = m.registry.keys ++ tuples.map (Key.mk name)
  indices : places.indices = tuples
  handles : places.toList = List.range' m.registry.size tuples.length
  get : ∀ n t, tuples[n]? = some t → places.get t = .ok (m.registry.size + n) ∧
    m'.registry.position ⟨name, t⟩ = .ok (m.registry.size + n) ∧
    ∃ v, m'.registry.at? (m.registry.size + n) = some v ∧ IsMember name f t v

theorem extended_of_addAll {tuples : List (List Value)} (hb : AreMembers name f tuples batch)
    {r : Registry α} (hr : m.registry.addAll batch = .ok r) :
    m.Extended { m with registry := r } name f tuples (m.placesOf (.text name) batch) := by
  have hentries := Registry.entries_of_addAll hr
  have hkeys : r.keys = m.registry.keys ++ tuples.map (Key.mk name) := by
    rw [Registry.keys, hentries, List.map_append, List.map_map, ← hb.keys_eq]
    rfl
  have hname : ∀ v ∈ batch, Value.text name = .text v.key.name := by
    intro v hv
    obtain ⟨t, -, ht⟩ := List.mem_map.1 (hb.keys_eq ▸ List.mem_map_of_mem hv)
    rw [← ht]
  have hkeys' := Registry.proper_of_addAll hr
  have hitems := items_placesOf m hname hkeys'
  have hproper := proper_placesOf (m := m) hname hkeys'
  have hindices : (m.placesOf (.text name) batch).indices = tuples := by
    have hids : (tuples.map (Key.mk name)).map Key.index = tuples := by
      rw [List.map_map]
      exact List.map_id tuples
    rw [Family.indices, hitems, List.map_map, ← hids, ← hb.keys_eq, List.map_map,
      ← congrArg (List.map (Key.index ∘ Variable.key)) (List.zipIdx_map_fst m.registry.size batch),
      List.map_map]
    rfl
  refine ⟨rfl, ⟨_, hentries.symm⟩, hkeys, hindices, ?_, fun n t ht => ?_⟩
  · rw [Family.toList, hitems, List.map_map, hb.length_eq]
    exact List.zipIdx_map_snd m.registry.size batch
  · obtain ⟨v, hv, hmember⟩ := hb.getElem? ht
    have hplace : (v, m.registry.size + n) ∈ batch.zipIdx m.registry.size :=
      List.mk_add_mem_zipIdx_iff_getElem?.2 hv
    have hindex : Family.sameIndex v.key.index t = true := by
      rw [hmember.key]
      exact Family.sameIndex_refl t
    have hitem := List.mem_map_of_mem (f := fun p => (p.1.key.index, p.2)) hplace
    refine ⟨hproper.get_eq (hitems ▸ hitem) hindex, r.position_eq ?_ BEq.rfl, v,
      at?_added hr hplace, hmember⟩
    have hsize : m.registry.keys.length = m.registry.size := List.length_map ..
    rw [hkeys, ← hsize, List.getElem?_append_right (Nat.le_add_right ..), Nat.add_sub_cancel_left,
      List.getElem?_map, ht]
    rfl

/-- A family over these tuples is added, or refused for its first key that is not new. -/
structure Enumerates (m : Model α) (name : String) (domains : List Value) (f : FamilyFields)
    (tuples : List (List Value)) : Prop where
  added_iff : (∃ places, (addVariables (.text name) domains f m).1 = .ok places) ↔
    Registry.Free m.registry.keys (tuples.map (Key.mk name))
  added : ∀ places, (addVariables (.text name) domains f m).1 = .ok places →
    m.Extended (addVariables (.text name) domains f m).2 name f tuples places
  refused : ¬ Registry.Free m.registry.keys (tuples.map (Key.mk name)) →
    ∃ n k, Registry.FirstTaken m.registry.keys (tuples.map (Key.mk name)) n k ∧
      addVariables (.text name) domains f m = (.error (.duplicateVariable k), m)

theorem enumerates_of_members (hs : m.status = .unsolved)
    (hmembers : m.members (.text name) domains f = .ok batch) {tuples : List (List Value)}
    (hfixed : ∀ t ∈ tuples, Value.allFixed t = true) (hb : AreMembers name f tuples batch) :
    m.Enumerates name domains f tuples := by
  have happly := addVariables_apply hs hmembers
  have hkeys : ∀ k ∈ tuples.map (Key.mk name), k.isFixed = true := by
    intro k hk
    obtain ⟨t, ht, rfl⟩ := List.mem_map.1 hk
    exact hfixed t ht
  rcases Registry.firstTaken?_cases hkeys m.registry.keys with
    ⟨hnone, hfree⟩ | ⟨n, k, hsome, hfirst⟩
  · rw [← hb.keys_eq] at hnone
    obtain ⟨r, hr⟩ := Registry.addAll_ok hnone
    rw [hr] at happly
    refine ⟨by simp [happly, hfree], fun places hplaces => ?_, fun h => absurd hfree h⟩
    rw [happly] at hplaces ⊢
    cases hplaces
    exact extended_of_addAll hb hr
  · rw [← hb.keys_eq] at hsome
    rw [Registry.addAll_error hsome] at happly
    refine ⟨by simp [happly, hfirst.not_free], fun places hplaces => ?_, fun _ => ?_⟩
    · rw [happly] at hplaces
      cases hplaces
    · exact ⟨n, k, hfirst, happly⟩

end Model

/-- Domains are enumerated by the digits of the numbers below the product of their sizes, and
families are added in this order. -/
theorem enumerates_of_domains :
    (∀ ds : List (List β), Numbered ds (product ds)) ∧ product ([] : List (List β)) = [[]] ∧
      ∀ (m : Model α) (name : String) (domains : List Value) (ds : List (List Value))
        (f : Model.FamilyFields), m.status = .unsolved → name ≠ "" →
        domains.mapM m.catalog.resolve = .ok ds → (∀ d ∈ ds, Value.allFixed d = true) →
        (∀ t ∈ product ds, ∃ v : Variable α, IsMember name f t v) →
          m.Enumerates name domains f (product ds) := by
  refine ⟨numbered_product, rfl, fun m name domains ds f hs hn hd hfixed hvalid => ?_⟩
  obtain ⟨batch, hb⟩ := exists_forall₂ hvalid
  refine Model.enumerates_of_members hs (Model.members_eq hn hd hb) (fun t ht => ?_) hb
  exact allFixed_of_mem_product hfixed ht

def twoElements : Model Float :=
  { Model.empty "m" "" .empty .unsolved with catalog := ⟨[⟨"I", [.int 1, .int 2], ""⟩]⟩ }

/-- A family over a set and a list is added, and refused if the list repeats an element. -/
theorem enumerates_of_twoElements :
    let keys := (product [[Value.int 1, .int 2], [.text "a", .text "b"]]).map (Key.mk "x")
    let again := (product [[Value.int 1, .bool true]]).map (Key.mk "x")
    twoElements.Enumerates "x" [.text "I", .list [.text "a", .text "b"]] {}
        (product [[.int 1, .int 2], [.text "a", .text "b"]]) ∧
      Registry.Free [] keys ∧
      twoElements.Enumerates "x" [.list [.int 1, .bool true]] {} (product [[.int 1, .bool true]]) ∧
      Registry.FirstTaken [] again 1 ⟨"x", [.bool true]⟩ := by
  have hmember : ∀ t, ∃ v : Variable Float, IsMember "x" {} t v := fun t =>
    ⟨⟨⟨"x", t⟩, 0.0, Double.infinity, 0.0, "", none⟩, rfl, ⟨_, rfl, rfl⟩, ⟨_, rfl, rfl⟩,
      ⟨_, rfl, rfl⟩, rfl, rfl⟩
  obtain ⟨-, -, henumerates⟩ := @enumerates_of_domains Float Value _
  refine ⟨henumerates _ _ _ _ _ rfl (by decide) rfl (by decide) fun t _ => hmember t, ?_,
    henumerates _ _ _ _ _ rfl (by decide) rfl (by decide) fun t _ => hmember t, ?_⟩
  · exact ⟨by decide +kernel, by simp⟩
  · exact ⟨rfl, .inr (by decide +kernel), by decide +kernel, by simp⟩

end Equilibria
