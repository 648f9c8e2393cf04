/-!
# Computations that can fail

What a computation that has not failed says about its parts.
-/

namespace Equilibria.Fallible

variable {ε β γ : Type}

theorem bind_eq_ok {x : Except ε β} {f : β → Except ε γ} {c : γ} :
    (x >>= f) = .ok c ↔ ∃ b, x = .ok b ∧ f b = .ok c := by
  constructor
  · intro h
    cases x with
    | error e => cases h
    | ok b => exact ⟨b, rfl, h⟩
  · rintro ⟨b, rfl, h⟩
    exact h

theorem eq_ok_of_isOk {x : Except ε Unit} (h : x.isOk = true) : x = .ok () := by
  cases x with
  | error e => cases h
  | ok u => rfl

theorem map_eq_ok {x : Except ε β} {f : β → γ} {c : γ} :
    (f <$> x) = .ok c ↔ ∃ b, x = .ok b ∧ f b = c := by
  constructor
  · intro h
    cases x with
    | error e => cases h
    | ok b =>
      cases h
      exact ⟨b, rfl, rfl⟩
  · rintro ⟨b, rfl, rfl⟩
    rfl

theorem mapM_cons_eq_ok {f : β → Except ε γ} {x : β} {xs : List β} {ys : List γ} :
    (x :: xs).mapM f = .ok ys ↔ ∃ y zs, f x = .ok y ∧ xs.mapM f = .ok zs ∧ ys = y :: zs := by
  rw [List.mapM_cons, bind_eq_ok]
  constructor
  · rintro ⟨y, hy, h⟩
    obtain ⟨zs, hz, h⟩ := bind_eq_ok.1 h
    cases h
    exact ⟨y, zs, hy, hz, rfl⟩
  · rintro ⟨y, zs, hy, hz, rfl⟩
    exact ⟨y, hy, bind_eq_ok.2 ⟨zs, hz, rfl⟩⟩

theorem map_mapM {δ : Type} (g : γ → δ) (f : β → Except ε γ) (xs : List β) :
    (xs.mapM f).map (List.map g) = xs.mapM fun x => (f x).map g := by
  induction xs with
  | nil => rfl
  | cons x r ih =>
    rw [List.mapM_cons, List.mapM_cons, ← ih]
    cases f x with
    | error e => rfl
    | ok y => cases r.mapM f <;> rfl

theorem length_of_mapM {f : β → Except ε γ} {xs : List β} {ys : List γ}
    (h : xs.mapM f = .ok ys) : ys.length = xs.length := by
  induction xs generalizing ys with
  | nil => cases h; rfl
  | cons x r ih =>
    obtain ⟨y, zs, -, hz, rfl⟩ := mapM_cons_eq_ok.1 h
    simp [ih hz]

theorem mapM_congr {f g : β → Except ε γ} {xs : List β} (h : ∀ x ∈ xs, f x = g x) :
    xs.mapM f = xs.mapM g := by
  induction xs with
  | nil => rfl
  | cons x r ih =>
    rw [List.mapM_cons, List.mapM_cons, h x List.mem_cons_self,
      ih fun a ha => h a (List.mem_cons_of_mem _ ha)]

theorem mapM_ok_of_forall {f : β → Except ε γ} {xs : List β} (h : ∀ x ∈ xs, ∃ y, f x = .ok y) :
    ∃ ys, xs.mapM f = .ok ys := by
  induction xs with
  | nil => exact ⟨[], rfl⟩
  | cons x r ih =>
    obtain ⟨y, hy⟩ := h x List.mem_cons_self
    obtain ⟨zs, hz⟩ := ih fun a ha => h a (List.mem_cons_of_mem _ ha)
    exact ⟨y :: zs, mapM_cons_eq_ok.2 ⟨y, zs, hy, hz, rfl⟩⟩

theorem mapM_eq_map {f : β → Except ε γ} {g : β → γ} {xs : List β}
    (h : ∀ x ∈ xs, f x = .ok (g x)) : xs.mapM f = .ok (xs.map g) := by
  rw [mapM_congr h]
  exact List.mapM_pure

theorem mem_of_mapM {f : β → Except ε γ} {xs : List β} {ys : List γ} (h : xs.mapM f = .ok ys)
    {y : γ} (hy : y ∈ ys) : ∃ x ∈ xs, f x = .ok y := by
  induction xs generalizing ys with
  | nil =>
    cases h
    cases hy
  | cons a r ih =>
    obtain ⟨z, zs, hz, hr, rfl⟩ := mapM_cons_eq_ok.1 h
    rcases List.mem_cons.1 hy with rfl | hy
    · exact ⟨a, List.mem_cons_self, hz⟩
    · obtain ⟨x, hx, hf⟩ := ih hr hy
      exact ⟨x, List.mem_cons_of_mem _ hx, hf⟩

theorem error_of_mapM {f : β → Except ε γ} {xs : List β} {e : ε} (h : xs.mapM f = .error e) :
    ∃ x ∈ xs, f x = .error e := by
  induction xs with
  | nil => cases h
  | cons a r ih =>
    rw [List.mapM_cons] at h
    cases ha : f a with
    | error e' =>
      rw [ha] at h
      cases h
      exact ⟨a, List.mem_cons_self, ha⟩
    | ok y =>
      cases hr : r.mapM f with
      | error e' =>
        rw [ha, hr] at h
        cases h
        obtain ⟨x, hx, hf⟩ := ih hr
        exact ⟨x, List.mem_cons_of_mem _ hx, hf⟩
      | ok ys =>
        rw [ha, hr] at h
        cases h

theorem getElem?_of_mapM {f : β → Except ε γ} {xs : List β} {ys : List γ}
    (h : xs.mapM f = .ok ys) {i : Nat} {x : β} (hx : xs[i]? = some x) :
    ∃ y, ys[i]? = some y ∧ f x = .ok y := by
  induction xs generalizing ys i with
  | nil => cases hx
  | cons a r ih =>
    obtain ⟨y, zs, hy, hz, rfl⟩ := mapM_cons_eq_ok.1 h
    cases i with
    | zero =>
      cases hx
      exact ⟨y, rfl, hy⟩
    | succ i => exact ih hz hx

theorem getElem?_of_mapM_right {f : β → Except ε γ} {xs : List β} {ys : List γ}
    (h : xs.mapM f = .ok ys) {i : Nat} {y : γ} (hy : ys[i]? = some y) :
    ∃ x, xs[i]? = some x ∧ f x = .ok y := by
  obtain ⟨hlt, -⟩ := List.getElem?_eq_some_iff.1 hy
  rw [length_of_mapM h] at hlt
  have hx := List.getElem?_eq_getElem hlt
  obtain ⟨z, hz, hf⟩ := getElem?_of_mapM h hx
  rw [hy] at hz
  cases hz
  exact ⟨_, hx, hf⟩

theorem map_of_mapM {f : β → Except ε γ} {g : γ → β} {xs : List β} {ys : List γ}
    (h : xs.mapM f = .ok ys) (hg : ∀ x y, f x = .ok y → g y = x) : ys.map g = xs := by
  induction xs generalizing ys with
  | nil =>
    cases h
    rfl
  | cons x r ih =>
    obtain ⟨y, zs, hy, hz, rfl⟩ := mapM_cons_eq_ok.1 h
    rw [List.map_cons, hg x y hy, ih hz]

/-- A filter that leaves nothing has refused each item. -/
theorem filterM_eq_nil {f : β → Except ε Bool} {xs : List β} (h : xs.filterM f = .ok []) :
    ∀ x ∈ xs, f x = .ok false := by
  have haux : ∀ (xs acc ys : List β), List.filterAuxM f xs acc = .ok ys →
      acc.length ≤ ys.length ∧ (ys = [] → ∀ x ∈ xs, f x = .ok false) := by
    intro xs
    induction xs with
    | nil =>
      intro acc ys h
      cases h
      exact ⟨Nat.le_refl _, fun _ x hx => by cases hx⟩
    | cons x r ih =>
      intro acc ys h
      obtain ⟨b, hb, h⟩ := bind_eq_ok.1 h
      obtain ⟨hle, hr⟩ := ih _ _ h
      cases b with
      | true =>
        -- An item that is let through stays to the end.
        have hlt : acc.length < ys.length := hle
        refine ⟨Nat.le_of_lt hlt, fun hnil => ?_⟩
        rw [hnil] at hlt
        exact absurd hlt (Nat.not_lt_zero _)
      | false =>
        refine ⟨hle, fun hnil a ha => ?_⟩
        rcases List.mem_cons.1 ha with rfl | ha
        · exact hb
        · exact hr hnil a ha
  obtain ⟨ys, hys, h⟩ := bind_eq_ok.1 h
  have hnil : ys = [] := List.reverse_eq_nil_iff.1 (Except.ok.inj h)
  exact (haux xs [] ys hys).2 hnil

/-- Where each item is refused nothing is left. -/
theorem filterM_of_false {f : β → Except ε Bool} {xs : List β}
    (h : ∀ x ∈ xs, f x = .ok false) : xs.filterM f = .ok [] := by
  have haux : ∀ acc, List.filterAuxM f xs acc = .ok acc := by
    induction xs with
    | nil => exact fun _ => rfl
    | cons x r ih =>
      intro acc
      rw [List.filterAuxM, h x List.mem_cons_self]
      exact ih (fun a ha => h a (List.mem_cons_of_mem _ ha)) acc
  rw [List.filterM, haux]
  rfl

end Equilibria.Fallible
