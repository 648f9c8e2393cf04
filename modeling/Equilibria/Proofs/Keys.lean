import Equilibria.Key.Basic

/-!
# Looking up keys

Keys that are the same can be looked up both or not at all, and among keys that things are kept
under each key is found in one place only.
-/

namespace Equilibria

/-! ## Forms -/

namespace Mark

theorem ofFloat_cases (x : Float) :
    (∃ odd twos, ofFloat x = .number odd twos) ∨ (∃ negative, ofFloat x = .infinity negative) ∨
      ofFloat x = .nan 0 := by
  unfold ofFloat
  split
  · exact .inr (.inr rfl)
  · exact .inr (.inl ⟨_, rfl⟩)
  · split
    · exact .inl ⟨_, _, rfl⟩
    · exact .inl ⟨_, _, rfl⟩

def isLeaf : Mark → Bool
  | .tuple _ | .list _ | .map _ | .set .. => false
  | _ => true

end Mark

namespace Value

def hasParts : Value → Bool
  | .tuple _ | .list _ | .map _ | .set .. => true
  | _ => false

theorem form_leaf {v : Value} (h : v.hasParts = false) :
    v.isFixed = true ∧ ∃ k, form v = [k] ∧ k.isLeaf = true := by
  cases v with
  | tuple | list | map | set => cases h
  | float x =>
    refine ⟨rfl, _, rfl, ?_⟩
    rcases Mark.ofFloat_cases x with ⟨_, _, h⟩ | ⟨_, h⟩ | h <;> rw [h] <;> rfl
  | _ => exact ⟨rfl, _, rfl, rfl⟩

theorem fixed_of_leaf {a b : Value} {r s : List Mark} (h : form a ++ r = form b ++ s)
    (hb : b.hasParts = false) : a.isFixed = b.isFixed ∧ r = s := by
  obtain ⟨hf, k, hk, hl⟩ := form_leaf hb
  rw [hk, List.cons_append, List.nil_append] at h
  cases ha : a.hasParts with
  | false =>
    obtain ⟨hg, l, hl, -⟩ := form_leaf ha
    rw [hl, List.cons_append, List.nil_append] at h
    exact ⟨hg.trans hf.symm, (List.cons.inj h).2⟩
  | true =>
    cases a with
    | tuple | list | map | set =>
      simp only [form, List.cons_append, List.cons.injEq] at h
      rw [← h.1] at hl
      cases hl
    | _ => cases ha

mutual

/-- No form is the beginning of another one, and it says whether its value can be looked up. -/
theorem fixed_of_form : ∀ {a b : Value} {r s : List Mark}, form a ++ r = form b ++ s →
    a.isFixed = b.isFixed ∧ r = s
  | .tuple xs, b, r, s, h => by
    cases b with
    | tuple ys =>
      simp only [form, List.cons_append, List.cons.injEq, Mark.tuple.injEq] at h
      simpa only [isFixed] using fixed_of_forms h.1 h.2
    | list | map | set => exact absurd (congrArg List.head? h) (by simp [form])
    | _ => exact fixed_of_leaf h rfl
  | .list xs, b, r, s, h => by
    cases b with
    | list ys =>
      simp only [form, List.cons_append, List.cons.injEq, Mark.list.injEq] at h
      exact ⟨rfl, (fixed_of_forms h.1 h.2).2⟩
    | tuple | map | set => exact absurd (congrArg List.head? h) (by simp [form])
    | _ => exact fixed_of_leaf h rfl
  | .map xs, b, r, s, h => by
    cases b with
    | map ys =>
      simp only [form, List.cons_append, List.cons.injEq, Mark.map.injEq] at h
      exact ⟨rfl, rest_of_entryForms h.1 h.2⟩
    | tuple | list | set => exact absurd (congrArg List.head? h) (by simp [form])
    | _ => exact fixed_of_leaf h rfl
  | .set n xs d, b, r, s, h => by
    cases b with
    | set m ys e =>
      simp only [form, List.cons_append, List.cons.injEq, Mark.set.injEq] at h
      exact ⟨rfl, (fixed_of_forms h.1.2.1 h.2).2⟩
    | tuple | list | map => exact absurd (congrArg List.head? h) (by simp [form])
    | _ => exact fixed_of_leaf h rfl
  | .null, b, r, s, h | .bool _, b, r, s, h | .int _, b, r, s, h | .float _, b, r, s, h
  | .nan _, b, r, s, h | .text _, b, r, s, h | .range .., b, r, s, h | .sealed .., b, r, s, h => by
    obtain ⟨hf, hr⟩ := fixed_of_leaf h.symm rfl
    exact ⟨hf.symm, hr.symm⟩

theorem fixed_of_forms : ∀ {as bs : List Value} {r s : List Mark}, as.length = bs.length →
    forms as ++ r = forms bs ++ s → allFixed as = allFixed bs ∧ r = s
  | [], [], _, _, _, h => ⟨rfl, h⟩
  | a :: as, b :: bs, _, _, hl, h => by
    simp only [forms, List.append_assoc] at h
    obtain ⟨hf, hr⟩ := fixed_of_form h
    obtain ⟨hfs, hs⟩ := fixed_of_forms (Nat.succ.inj hl) hr
    exact ⟨by rw [allFixed, allFixed, hf, hfs], hs⟩

theorem rest_of_entryForms : ∀ {as bs : List (Value × Value)} {r s : List Mark},
    as.length = bs.length → entryForms as ++ r = entryForms bs ++ s → r = s
  | [], [], _, _, _, h => h
  | (k, a) :: as, (l, b) :: bs, _, _, hl, h => by
    simp only [entryForms, List.append_assoc] at h
    obtain ⟨-, hk⟩ := fixed_of_form h
    obtain ⟨-, hr⟩ := fixed_of_form hk
    exact rest_of_entryForms (Nat.succ.inj hl) hr

end

theorem fixed_of_beq {a b : Value} (h : (a == b) = true) : a.isFixed = b.isFixed :=
  (fixed_of_form (r := []) (s := []) (by rw [beq_iff.1 h])).1

end Value

namespace Key

theorem allFixed_of_forms : ∀ {as bs : List Value}, as.map Value.form = bs.map Value.form →
    Value.allFixed as = Value.allFixed bs
  | [], [], _ => rfl
  | a :: as, b :: bs, h => by
    simp only [List.map_cons, List.cons.injEq] at h
    rw [Value.allFixed, Value.allFixed, Value.fixed_of_beq (Value.beq_iff.2 h.1),
      allFixed_of_forms h.2]

theorem fixed_of_beq {a b : Key} (h : (a == b) = true) : a.isFixed = b.isFixed := by
  have := Key.beq_iff.1 h
  simp only [form, Prod.mk.injEq] at this
  exact allFixed_of_forms this.2

/-! ## Proper keys -/

theorem beq_trans {a b c : Key} (h : (a == b) = true) (h' : (b == c) = true) : (a == c) = true :=
  BEq.trans h h'

theorem contains_iff {keys : List Key} {k : Key} :
    keys.contains k = true ↔ ∃ a ∈ keys, (a == k) = true := by
  rw [List.contains_iff_exists_mem_beq]
  constructor
  · rintro ⟨a, ha, h⟩
    exact ⟨a, ha, BEq.symm h⟩
  · rintro ⟨a, ha, h⟩
    exact ⟨a, ha, BEq.symm h⟩

theorem contains_of_mem {keys : List Key} {k : Key} (h : k ∈ keys) : keys.contains k = true :=
  contains_iff.2 ⟨k, h, BEq.rfl⟩

theorem contains_of_contains {keys : List Key} {k l : Key} (h : keys.contains k = true)
    (hk : (k == l) = true) : keys.contains l = true := by
  obtain ⟨a, ha, hka⟩ := contains_iff.1 h
  exact contains_iff.2 ⟨a, ha, beq_trans hka hk⟩

namespace Proper

variable {β : Type} {f : β → Key} {xs : List β} {k : Key}

theorem fixed_of_contains {keys : List Key} (h : Proper keys) (hk : keys.contains k = true) :
    k.isFixed = true := by
  obtain ⟨a, ha, hk⟩ := contains_iff.1 hk
  rw [← fixed_of_beq hk, h.fixed a ha]

theorem find?_eq (h : Proper (xs.map f)) {x : β} (hx : x ∈ xs) (hk : (f x == k) = true) :
    xs.find? (fun y => f y == k) = some x := by
  have hd := List.pairwise_map.1 h.distinct
  clear h
  induction xs with
  | nil => cases hx
  | cons y r ih =>
    obtain ⟨hy, hr⟩ := List.pairwise_cons.1 hd
    rw [List.find?_cons]
    rcases List.mem_cons.1 hx with rfl | hx
    · rw [hk]
    · cases hyk : f y == k with
      | true =>
        have := beq_trans hyk (BEq.symm hk)
        rw [hy x hx] at this
        cases this
      | false => exact ih hx hr

theorem findIdx?_eq {keys : List Key} (h : Proper keys) {i : Nat} {a : Key}
    (hi : keys[i]? = some a) (hk : (a == k) = true) : keys.findIdx? (· == k) = some i := by
  obtain ⟨hlt, rfl⟩ := List.getElem?_eq_some_iff.1 hi
  refine List.findIdx?_eq_some_iff_getElem.2 ⟨hlt, hk, ?_⟩
  intro j hj hjk
  have := List.pairwise_iff_getElem.1 h.distinct j i (by omega) hlt hj
  rw [beq_trans hjk (BEq.symm hk)] at this
  cases this

end Proper

end Key

end Equilibria
