import Equilibria.Proofs.Locking

/-!
# Edits that fail

Fixing a variable and setting its start change it all at once or not at all, as only the first of
their edits can fail. The bounds of a variable that is made free again are set one after the other,
and sets are added one by one, so a failure leaves what came before it.
-/

namespace Equilibria

open Calls Fallible

variable {α : Type}

/-! ## Variables -/

variable [Scalar α]

namespace Variable

theorem edit_bound (v : Variable α) (field : Bound) (value : Value) :
    v.edit (.bound field value) = (readBound field value).map (v.put field) := by
  rw [edit]
  cases readBound (α := α) field value <;> rfl

theorem editAll_cons (e : Edit) (rest : List Edit) (v : Variable α) :
    editAll (e :: rest) v = match v.edit e with
      | .ok v => editAll rest v
      | .error e => (.error e, v) := rfl

theorem bound_of_fixing {value : Option Value} : ∀ e ∈ fixing value, e.bound?.isSome = true := by
  cases value <;> simp [fixing, Edit.bound?]

theorem bound_of_unfixing {lower upper : Value} :
    ∀ e ∈ unfixing lower upper, e.bound?.isSome = true := by
  simp [unfixing, Edit.bound?]

/-- A failure of these edits leaves the variable as it is. -/
def Whole (edits : List Edit) (v : Variable α) : Prop :=
  ∀ e, (editAll edits v).1 = .error e → (editAll edits v).2 = v

theorem whole_bound {rest : List Edit} (hrest : ∀ w : Variable α, (editAll rest w).1 = .ok ())
    (field : Bound) (value : Value) (v : Variable α) : Whole (.bound field value :: rest) v := by
  intro e h
  rw [editAll_cons, edit_bound] at h ⊢
  cases hr : readBound (α := α) field value with
  | error e => rfl
  | ok x =>
    rw [hr] at h
    cases (hrest _).symm.trans h

theorem whole_fixing (value : Option Value) (v : Variable α) : Whole (fixing value) v := by
  cases value with
  | none =>
    intro e h
    cases h
  | some value => exact whole_bound (fun _ => rfl) .start value v

theorem editAll_unfixing (lower upper : Value) (v : Variable α) :
    editAll (unfixing lower upper) v =
      match readBound .lower lower, readBound .upper upper with
      | .error e, _ => (.error e, v)
      | .ok l, .error e => (.error e, v.put .lower l)
      | .ok l, .ok u => (.ok (), (v.put .lower l).put .upper u) := by
  rw [unfixing, editAll_cons, edit_bound]
  cases readBound (α := α) .lower lower with
  | error e => rfl
  | ok l =>
    change editAll [.bound .upper upper] (v.put .lower l) = _
    rw [editAll_cons, edit_bound]
    cases readBound (α := α) .upper upper <;> rfl

/-- The new lower bound has been set, and the upper one could not be read. -/
def Halved (lower upper : Value) (e : Error) (v v' : Variable α) : Prop :=
  ∃ l, readBound .lower lower = .ok l ∧ readBound (α := α) .upper upper = .error e ∧
    v' = v.put .lower l

theorem halved_of_unfixing {lower upper : Value} {v : Variable α} {e : Error}
    (h : (editAll (unfixing lower upper) v).1 = .error e) :
    (editAll (unfixing lower upper) v).2 = v ∨
      Halved lower upper e v (editAll (unfixing lower upper) v).2 := by
  rw [editAll_unfixing] at h ⊢
  cases hl : readBound (α := α) .lower lower with
  | error e => exact .inl rfl
  | ok l =>
    rw [hl] at h
    cases hu : readBound (α := α) .upper upper with
    | error e' =>
      rw [hu] at h
      cases h
      exact .inr ⟨l, hl, hu, rfl⟩
    | ok u =>
      rw [hu] at h
      cases h

end Variable

/-! ## Registries -/

namespace Registry

variable {r : Registry α} {i : ℕ} {v : Variable α}

omit [Scalar α] in
theorem put_put (w w' : Variable α) : (r.put i w).put i w' = r.put i w' := by
  apply ext
  simp only [put, modify, List.modify_modify_eq]
  rfl

omit [Scalar α] in
theorem put_self (hv : r.at? i = some v) : r.put i v = r := by
  apply ext
  refine List.ext_getElem? fun j => ?_
  rw [at?, vars, List.getElem?_map] at hv
  simp only [put, modify, List.getElem?_modify]
  by_cases hij : i = j
  · subst hij
    obtain ⟨e, he, rfl⟩ := Option.map_eq_some_iff.1 hv
    simp [he]
  · simp [hij]

theorem edit_of_allowed {guard : String → Id (Except Error Unit)} (hg : ∀ a, guard a = .ok ())
    (e : Variable.Edit) (hv : r.at? i = some v) :
    edit guard i e r = (v.edit e).map (r.put i) := by
  have hask : (e.bound?.elim (pure (.ok ())) fun field => guard (action v field) :
      Id (Except Error Unit)) = .ok () := by
    cases e.bound? with
    | none => rfl
    | some field => exact hg _
  simp only [edit, hv, hask]
  rfl

theorem editAll_of_allowed {guard : String → Id (Except Error Unit)} (hg : ∀ a, guard a = .ok ())
    (edits : List Variable.Edit) (hv : r.at? i = some v) :
    editAll guard i edits r = ((v.editAll edits).1, r.put i (v.editAll edits).2) := by
  induction edits generalizing r v with
  | nil =>
    rw [Variable.editAll, put_self hv]
    rfl
  | cons e rest ih =>
    have hstep : editAll guard i (e :: rest) r = (match edit guard i e r with
      | .ok r => editAll guard i rest r
      | .error e => (.error e, r)) := rfl
    rw [hstep, edit_of_allowed hg e hv, Variable.editAll_cons]
    cases v.edit e with
    | error error =>
      rw [put_self hv]
      rfl
    | ok w =>
      change editAll guard i rest (r.put i w) = _
      rw [ih (at?_put hv w), put_put]

end Registry

/-! ## Models -/

namespace Model

variable {m : Model α}

theorem edit_of_unsolved (hs : m.status = .unsolved) {place : ℕ} {v : Variable α}
    (hv : m.registry.at? place = some v) (edits : List Variable.Edit) :
    edit place edits m = ((v.editAll edits).1,
      { m with registry := m.registry.put place (v.editAll edits).2 }) := by
  have hall : Registry.editAll (m := Id) (fun action => m.requireUnsolved action) place edits
      m.registry = ((v.editAll edits).1, m.registry.put place (v.editAll edits).2) :=
    Registry.editAll_of_allowed (requireUnsolved_ok hs) edits hv
  rw [edit, get_bind]
  simp only [Id.run, hall]
  rfl

theorem edit_of_missing {place : ℕ} (hv : m.registry.at? place = none) (e : Variable.Edit)
    (rest : List Variable.Edit) : edit place (e :: rest) m = (.error .noItem, m) := by
  have hedit : Registry.edit (m := Id) (fun action => m.requireUnsolved action) place e
      m.registry = .error .noItem := by
    simp only [Registry.edit, hv]
    rfl
  have hall : Registry.editAll (m := Id) (fun action => m.requireUnsolved action) place (e :: rest)
      m.registry = (.error .noItem, m.registry) := by
    simp only [Registry.editAll, hedit]
    rfl
  rw [edit, get_bind]
  simp only [Id.run, hall]
  rfl

theorem edit_error {place : ℕ} {edits : List Variable.Edit} {e : Error}
    (hb : ∀ e ∈ edits, e.bound?.isSome = true) (h : (edit place edits m).1 = .error e) :
    (edit place edits m).2 = m ∨
      ∃ v, m.registry.at? place = some v ∧ (v.editAll edits).1 = .error e ∧
        (edit place edits m).2 =
          { m with registry := m.registry.put place (v.editAll edits).2 } := by
  cases edits with
  | nil => cases h
  | cons first rest =>
    cases hv : m.registry.at? place with
    | none => exact .inl (congrArg Prod.snd (edit_of_missing hv first rest))
    | some v =>
      by_cases hs : m.status = .unsolved
      · have happly := edit_of_unsolved hs hv (first :: rest)
        rw [happly] at h ⊢
        exact .inr ⟨v, rfl, h, rfl⟩
      · have hlt : place < m.registry.size := by
          rw [Registry.at?, Registry.vars, List.getElem?_map] at hv
          obtain ⟨_, he, -⟩ := Option.map_eq_some_iff.1 hv
          exact (List.getElem?_eq_some_iff.1 he).1
        obtain ⟨reason, hrefused⟩ : Refuses (edit place (first :: rest)) m :=
          Refuses.edit hs hlt (hb first List.mem_cons_self)
        exact .inl (congrArg Prod.snd hrefused)

theorem atomic_edit {place : ℕ} {edits : List Variable.Edit}
    (hb : ∀ e ∈ edits, e.bound?.isSome = true)
    (hw : ∀ v : Variable α, Variable.Whole edits v) : Atomic (edit place edits) m := by
  intro e h
  rcases edit_error hb h with hsame | ⟨v, hv, hv', heq⟩
  · exact hsame
  · rw [heq, hw v e hv', Registry.put_self hv]

def Halved (m : Model α) (place : ℕ) (lower upper : Value) (e : Error) (m' : Model α) : Prop :=
  ∃ v v', m.registry.at? place = some v ∧ Variable.Halved lower upper e v v' ∧
    m' = { m with registry := m.registry.put place v' }

theorem halved_of_edit {place : ℕ} {lower upper : Value} {e : Error}
    (h : (edit place (Variable.unfixing lower upper) m).1 = .error e) :
    (edit place (Variable.unfixing lower upper) m).2 = m ∨
      m.Halved place lower upper e (edit place (Variable.unfixing lower upper) m).2 := by
  rcases edit_error Variable.bound_of_unfixing h with hsame | ⟨v, hv, hv', heq⟩
  · exact .inl hsame
  · rcases Variable.halved_of_unfixing hv' with hsame | hhalved
    · rw [heq, hsame, Registry.put_self hv]
      exact .inl rfl
    · exact .inr ⟨v, _, hv, hhalved, heq⟩

theorem editNamed_cases (action : String) (c : Component) (edits : List Variable.Edit)
    (m : Model α) : (∃ e, editNamed action c edits m = (.error e, m)) ∨
      ∃ k place, c.single = .ok k ∧ m.registry.position k = .ok place ∧
        editNamed action c edits m = edit place edits m := by
  unfold editNamed
  rw [get_bind, bind_apply, lift_apply]
  cases m.requireUnsolved action with
  | error e => exact .inl ⟨e, rfl⟩
  | ok u =>
    simp only
    rw [bind_apply, lift_apply]
    cases hk : c.single with
    | error e => exact .inl ⟨e, rfl⟩
    | ok k =>
      simp only
      rw [bind_apply, lift_apply]
      cases hp : m.registry.position k with
      | error e => exact .inl ⟨e, rfl⟩
      | ok place => exact .inr ⟨k, place, rfl, hp, rfl⟩

theorem atomic_editNamed (action : String) (c : Component) {edits : List Variable.Edit}
    (h : ∀ place, Atomic (edit place edits) m) : Atomic (editNamed action c edits) m := by
  intro e he
  rcases editNamed_cases action c edits m with ⟨e', heq⟩ | ⟨k, place, -, -, heq⟩
  · rw [heq]
  · rw [heq] at he ⊢
    exact h place e he

theorem halved_of_unfix {c : Component} {lower upper : Value} {e : Error}
    (h : (unfix c lower upper m).1 = .error e) :
    (unfix c lower upper m).2 = m ∨ ∃ k place, c.single = .ok k ∧
      m.registry.position k = .ok place ∧
      m.Halved place lower upper e (unfix c lower upper m).2 := by
  rcases editNamed_cases "unfix variables" c (Variable.unfixing lower upper) m with
    ⟨e', heq⟩ | ⟨k, place, hk, hp, heq⟩
  · exact .inl (congrArg Prod.snd heq)
  · rw [unfix, heq] at h ⊢
    exact (halved_of_edit h).imp_right fun hhalved => ⟨k, place, hk, hp, hhalved⟩

/-! ## Sets -/

inductive Adding (s : IndexSet) (m : Model α) : Except Error Unit × Model α → Prop where
  | locked (e : Error) (status : m.status ≠ .unsolved) : Adding s m (.error e, m)
  | taken (status : m.status = .unsolved) (taken : m.catalog.contains s.name = true) :
    Adding s m (.error (.setExists s.name), m)
  | added (status : m.status = .unsolved) :
    Adding s m (.ok (), { m with catalog := ⟨m.catalog.sets ++ [s]⟩ })

omit [Scalar α] in
theorem adding_addSet (s : IndexSet) (m : Model α) : Adding s m (addSet s m) := by
  by_cases hs : m.status = .unsolved
  · rw [addSet, get_bind, lift_bind_ok (requireUnsolved_ok hs _)]
    cases hc : m.catalog.contains s.name with
    | true =>
      have hadd : m.catalog.add s = .error (.setExists s.name) := if_pos hc
      rw [bind_apply, lift_apply, hadd]
      exact .taken hs hc
    | false =>
      have hadd : m.catalog.add s = .ok ⟨m.catalog.sets ++ [s]⟩ := if_neg (by simp [hc])
      rw [lift_bind_ok hadd]
      exact .added hs
  · obtain ⟨reason, hr⟩ : Refuses (addSet s) m := Refuses.asked hs _ _
    rw [hr]
    exact .locked _ hs

/-- The sets before one that fails have been added. -/
structure AddedBefore (m : Model α) (sets : List IndexSet) (e : Error) (before : List IndexSet)
    (m' : Model α) : Prop where
  left : m' = { m with catalog := ⟨m.catalog.sets ++ before⟩ }
  failing : ∃ s after, sets = before ++ s :: after ∧ (m.status = .unsolved →
    e = .setExists s.name ∧ m'.catalog.contains s.name = true)
  locked : m.status ≠ .unsolved → before = []

-- By induction on the list. A set that has been added is the first of those that are left.
omit [Scalar α] in
theorem addedBefore_of_addSets {sets : List IndexSet} {e : Error}
    (h : (addSets sets m).1 = .error e) :
    ∃ before, m.AddedBefore sets e before (addSets sets m).2 := by
  induction sets generalizing m with
  | nil => cases h
  | cons s rest ih =>
    have hstep : addSets (s :: rest) m = match addSet s m with
      | (.ok (), m') => addSets rest m'
      | (.error e, m') => (.error e, m') := by
      rw [addSets, List.forM, bind_apply]
      rcases addSet s m with ⟨_ | _, _⟩ <;> rfl
    have hadding := adding_addSet s m
    generalize addSet s m = result at hstep hadding
    rw [hstep] at h ⊢
    cases hadding with
    | locked e' hs =>
      cases h
      exact ⟨[], by simp, ⟨s, rest, rfl, fun hno => absurd hno hs⟩, fun _ => rfl⟩
    | taken hs hc =>
      cases h
      exact ⟨[], by simp, ⟨s, rest, rfl, fun _ => ⟨rfl, hc⟩⟩, fun _ => rfl⟩
    | added hs =>
      obtain ⟨before, hb⟩ := ih h
      obtain ⟨s', after, hrest, hfails⟩ := hb.failing
      refine ⟨s :: before, ?_, ⟨s', after, by rw [hrest]; rfl, fun _ => hfails hs⟩, ?_⟩
      · rw [hb.left]
        simp
      · exact fun hno => absurd hs hno

end Model

/-- Fixing a variable and setting its start change nothing when they fail. Freeing it may leave the
lower bound, and adding sets those before the failure. -/
theorem left_of_failed (m : Model α) :
    (∀ (v : Variable α) (value : Option Value), Variable.Whole (Variable.fixing value) v) ∧
    (∀ (v : Variable α) (lower upper : Value) (e : Error),
      let r := v.editAll (Variable.unfixing lower upper)
      r.1 = .error e → r.2 = v ∨ Variable.Halved lower upper e v r.2) ∧
    (∀ (c : Component) (value : Value), Atomic (Model.setStart c value) m) ∧
    (∀ (c : Component) (value : Option Value), Atomic (Model.fix c value) m) ∧
    (∀ (place : ℕ) (value : Option Value),
      Atomic (Model.edit place (Variable.fixing value)) m) ∧
    (∀ (place : ℕ) (lower upper : Value) (e : Error),
      let r := Model.edit place (Variable.unfixing lower upper) m
      r.1 = .error e → r.2 = m ∨ m.Halved place lower upper e r.2) ∧
    (∀ (c : Component) (lower upper : Value) (e : Error),
      let r := Model.unfix c lower upper m
      r.1 = .error e → r.2 = m ∨ ∃ k place, c.single = .ok k ∧
        m.registry.position k = .ok place ∧ m.Halved place lower upper e r.2) ∧
    ∀ (sets : List IndexSet) (e : Error),
      let r := Model.addSets sets m
      r.1 = .error e → ∃ before, m.AddedBefore sets e before r.2 := by
  have hfix (place : ℕ) (value : Option Value) :
      Atomic (Model.edit place (Variable.fixing value)) m :=
    Model.atomic_edit Variable.bound_of_fixing (Variable.whole_fixing value)
  have hstart (place : ℕ) (value : Value) : Atomic (Model.edit place [.bound .start value]) m :=
    Model.atomic_edit (by simp [Variable.Edit.bound?])
      (Variable.whole_bound (fun _ => rfl) .start value)
  refine ⟨fun v value => Variable.whole_fixing value v, fun _ _ _ _ => Variable.halved_of_unfixing,
    fun c value => ?_, fun c value => ?_, hfix, fun _ _ _ _ => Model.halved_of_edit,
    fun _ _ _ _ => Model.halved_of_unfix, fun _ _ => Model.addedBefore_of_addSets⟩
  · exact Model.atomic_editNamed _ c fun place => hstart place value
  · exact Model.atomic_editNamed _ c fun place => hfix place value

/-- The lower bound is set before the upper one fails, and two sets are added before a third one
fails. -/
theorem partial_of_failed :
    (let v : Variable Float := ⟨⟨"x", []⟩, 0, 2, 0, "", none⟩
      ∃ e, v.editAll (Variable.unfixing (.float 1) (.text "abc")) =
        (.error e, { v with lower := 1 })) ∧
    let sets : List IndexSet := [⟨"I", [.int 1], ""⟩, ⟨"J", [.int 2], ""⟩, ⟨"I", [.int 3], ""⟩]
    let r := Model.addSets sets (.empty "m" "" .empty .unsolved : Model Float)
    r.1 = .error (.setExists "I") ∧ r.2.catalog.names = ["I", "J"] :=
  ⟨⟨_, rfl⟩, rfl, rfl⟩

end Equilibria
