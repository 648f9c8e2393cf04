import Equilibria.Proofs.Complementarity
import Equilibria.Proofs.Equations

/-!
# Components that are solved

A component is solved where its variable is between its bounds and its function has the sign that
they ask for. These are just the points where its equation is met, and the equation measures how far
all others are from being solved.
-/

namespace Equilibria

/-! ## Solved components -/

/-- Bounds that leave room for a number. -/
structure Ordered (l u : Exact) : Prop where
  le : l ≤ u
  lower : l < Scalar.infinity
  upper : -Scalar.infinity < u

/-- The point `x` between `l` and `u` solves its component against `f`. -/
structure Complementary (l u : Exact) (x f : ℝ) : Prop where
  lower : l ≤ .real x
  upper : .real x ≤ u
  atLower : l = .real x → l < u → 0 ≤ f
  atUpper : u = .real x → l < u → f ≤ 0
  inside : l < .real x → .real x < u → f = 0

namespace Exact

@[simp]
theorem real_le_infinite (x : ℝ) {negative : Bool} :
    real x ≤ infinite negative ↔ negative = false := Iff.rfl

@[simp]
theorem infinite_le_real (x : ℝ) {negative : Bool} :
    infinite negative ≤ real x ↔ negative = true := Iff.rfl

@[simp]
theorem real_lt_infinite (x : ℝ) {negative : Bool} :
    real x < infinite negative ↔ negative = false := Iff.rfl

@[simp]
theorem infinite_lt_real (x : ℝ) {negative : Bool} :
    infinite negative < real x ↔ negative = true := Iff.rfl

@[simp]
theorem infinite_lt_infinite {a b : Bool} : infinite a < infinite b ↔ b < a := Iff.rfl

end Exact

theorem Ordered.cases {l u : Exact} (h : Ordered l u) :
    ((∃ a, l = .real a) ∨ l = .infinite true) ∧ ((∃ b, u = .real b) ∨ u = .infinite false) := by
  constructor
  · rcases l with a | negative | _
    · exact .inl ⟨a, rfl⟩
    · have : false < negative := h.lower
      cases negative
      · exact absurd this (by decide)
      · exact .inr rfl
    · exact absurd h.lower id
  · rcases u with b | negative | _
    · exact .inl ⟨b, rfl⟩
    · have : negative < true := h.upper
      cases negative
      · exact .inr rfl
      · exact absurd this (by decide)
    · exact absurd h.upper id

namespace Ordered

theorem free : Ordered (.infinite true) (.infinite false) where
  le := Bool.false_le true
  lower := Exact.infinite_lt_infinite.2 (by decide)
  upper := Exact.infinite_lt_infinite.2 (by decide)

theorem lowerOnly (a : ℝ) : Ordered (.real a) (.infinite false) where
  le := rfl
  lower := Exact.real_lt_infinite a |>.2 rfl
  upper := Exact.infinite_lt_infinite.2 (by decide)

theorem upperOnly (b : ℝ) : Ordered (.infinite true) (.real b) where
  le := rfl
  lower := Exact.infinite_lt_infinite.2 (by decide)
  upper := Exact.infinite_lt_real b |>.2 rfl

theorem boxed {a b : ℝ} (h : a ≤ b) : Ordered (.real a) (.real b) where
  le := h
  lower := Exact.real_lt_infinite a |>.2 rfl
  upper := Exact.infinite_lt_real b |>.2 rfl

end Ordered

/-! ## The natural residual -/

theorem min_eq_zero_iff {a b : ℝ} : min a b = 0 ↔ 0 ≤ a ∧ 0 ≤ b ∧ (a = 0 ∨ b = 0) := by
  rw [min_eq_iff]
  constructor
  · rintro (⟨rfl, h⟩ | ⟨rfl, h⟩)
    · exact ⟨le_rfl, h, .inl rfl⟩
    · exact ⟨h, le_rfl, .inr rfl⟩
  · rintro ⟨ha, hb, rfl | rfl⟩
    · exact .inl ⟨rfl, hb⟩
    · exact .inr ⟨rfl, ha⟩

theorem max_eq_zero_iff {a b : ℝ} : max a b = 0 ↔ a ≤ 0 ∧ b ≤ 0 ∧ (a = 0 ∨ b = 0) := by
  rw [max_eq_iff]
  constructor
  · rintro (⟨rfl, h⟩ | ⟨rfl, h⟩)
    · exact ⟨le_rfl, h, .inl rfl⟩
    · exact ⟨h, le_rfl, .inr rfl⟩
  · rintro ⟨ha, hb, rfl | rfl⟩
    · exact .inl ⟨rfl, hb⟩
    · exact .inr ⟨rfl, ha⟩

theorem natural_lower_eq_zero_iff (a x f : ℝ) :
    natural (.real a) (.infinite false) x f = 0 ↔
      Complementary (.real a) (.infinite false) x f := by
  change min (x - a) f = 0 ↔ _
  constructor
  · intro h
    have hx : 0 ≤ x - a := h.symm.le.trans (min_le_left _ _)
    have hf : 0 ≤ f := h.symm.le.trans (min_le_right _ _)
    refine ⟨by simpa using hx, by simp, fun _ _ => hf, by simp, fun hin _ => ?_⟩
    have hin : a < x := hin
    rcases min_choice (x - a) f with hm | hm
    · linarith
    · linarith
  · rintro ⟨hl, -, hlow, -, hin⟩
    have hl : a ≤ x := hl
    rcases hl.eq_or_lt with rfl | hlt
    · rw [sub_self]
      exact min_eq_left (hlow rfl (by simp))
    · rw [hin hlt (by simp)]
      exact min_eq_right (by linarith)

theorem natural_upper_eq_zero_iff (b x f : ℝ) :
    natural (.infinite true) (.real b) x f = 0 ↔
      Complementary (.infinite true) (.real b) x f := by
  change max (x - b) f = 0 ↔ _
  constructor
  · intro h
    have hx : x - b ≤ 0 := (le_max_left _ _).trans h.le
    have hf : f ≤ 0 := (le_max_right _ _).trans h.le
    refine ⟨by simp, by simpa using hx, by simp, fun _ _ => hf, fun _ hin => ?_⟩
    have hin : x < b := hin
    rcases max_choice (x - b) f with hm | hm
    · linarith
    · linarith
  · rintro ⟨-, hu, -, hupp, hin⟩
    have hu : x ≤ b := hu
    rcases hu.eq_or_lt with rfl | hlt
    · rw [sub_self]
      exact max_eq_left (hupp rfl (by simp))
    · rw [hin (by simp) hlt]
      exact max_eq_right (by linarith)

theorem natural_boxed_eq_zero_iff {a b : ℝ} (hab : a ≤ b) (x f : ℝ) :
    natural (.real a) (.real b) x f = 0 ↔ Complementary (.real a) (.real b) x f := by
  change min (x - a) (max (x - b) f) = 0 ↔ _
  constructor
  · intro h
    have hx : 0 ≤ x - a := h.symm.le.trans (min_le_left _ _)
    have hf : 0 ≤ x - b ∨ 0 ≤ f := le_max_iff.1 (h.symm.le.trans (min_le_right _ _))
    have hup : x - a ≤ 0 ∨ x - b ≤ 0 ∧ f ≤ 0 := by
      rcases min_choice (x - a) (max (x - b) f) with hm | hm
      · exact .inl (hm.symm.trans h).le
      · exact .inr (max_le_iff.1 (hm.symm.trans h).le)
    refine ⟨?_, ?_, fun hax hlt => ?_, fun hbx hlt => ?_, fun hlow hupp => ?_⟩
    · change a ≤ x
      exact sub_nonneg.1 hx
    · change x ≤ b
      rcases hup with hup | ⟨hup, -⟩ <;> linarith
    · cases hax
      have hlt : a < b := hlt
      rcases hf with hf | hf <;> linarith
    · cases hbx
      have hlt : a < b := hlt
      rcases hup with hup | ⟨-, hup⟩ <;> linarith
    · have hlow : a < x := hlow
      have hupp : x < b := hupp
      rcases hf with hf | hf
      · linarith
      · rcases hup with hup | ⟨-, hup⟩ <;> linarith
  · rintro ⟨hl, hu, hlow, hupp, hin⟩
    have hl : a ≤ x := hl
    have hu : x ≤ b := hu
    rcases hl.eq_or_lt with rfl | hax
    · -- At the lower bound the other side of the minimum is not negative.
      rw [sub_self]
      refine min_eq_left (le_max_iff.2 ?_)
      rcases hab.eq_or_lt with rfl | hlt
      · exact .inl (sub_self a).ge
      · exact .inr (hlow rfl hlt)
    · have hm : max (x - b) f = 0 := by
        rcases hu.eq_or_lt with rfl | hxb
        · rw [sub_self]
          exact max_eq_left (hupp rfl hax)
        · rw [hin hax hxb]
          exact max_eq_right (by linarith)
      rw [hm]
      exact min_eq_right (by linarith)

theorem natural_free_eq_zero_iff (x f : ℝ) :
    natural (.infinite true) (.infinite false) x f = 0 ↔
      Complementary (.infinite true) (.infinite false) x f := by
  change f = 0 ↔ _
  constructor
  · intro h
    exact ⟨by simp, by simp, by simp, by simp, fun _ _ => h⟩
  · intro h
    exact h.inside (by simp) (by simp)

theorem natural_eq_zero_iff {l u : Exact} (h : Ordered l u) (x f : ℝ) :
    natural l u x f = 0 ↔ Complementary l u x f := by
  obtain ⟨⟨a, rfl⟩ | rfl, ⟨b, rfl⟩ | rfl⟩ := h.cases
  · exact natural_boxed_eq_zero_iff h.le x f
  · exact natural_lower_eq_zero_iff a x f
  · exact natural_upper_eq_zero_iff b x f
  · exact natural_free_eq_zero_iff x f

/-! ## Equations of a box -/

/-- The value `φ` of an equation is as large as its component is far from being solved, up to a
factor. -/
structure Measures (l u : Exact) (x f φ : ℝ) : Prop where
  natural_le : |natural l u x f| ≤ 3 * |φ|
  le_natural : |φ| ≤ 12 * |natural l u x f|
  zero : φ = 0 ↔ Complementary l u x f
  fixed : l = .real x → u = .real x → φ = 0

theorem equation_eq_zero_iff (l u : Exact) (x f : ℝ) :
    equation l u x f = 0 ↔ natural l u x f = 0 := by
  constructor
  · intro h
    have hle := abs_natural_le l u x f
    rw [h, abs_zero, mul_zero] at hle
    exact abs_nonpos_iff.1 hle
  · intro h
    have hle := abs_equation_le l u x f
    rw [h, abs_zero, mul_zero] at hle
    exact abs_nonpos_iff.1 hle

theorem measures_equation {l u : Exact} (h : Ordered l u) (x f : ℝ) :
    Measures l u x f (equation l u x f) := by
  have hzero := (equation_eq_zero_iff l u x f).trans (natural_eq_zero_iff h x f)
  refine ⟨abs_natural_le l u x f, abs_equation_le l u x f, hzero, fun hl hu => ?_⟩
  -- With one point only between the bounds, no bound is below the other.
  have hno : ¬ Exact.real x < .real x := lt_irrefl x
  subst hl
  subst hu
  refine hzero.2 ⟨le_refl x, le_refl x, fun _ hlt => ?_, fun _ hlt => ?_, fun hlt _ => ?_⟩
  · exact absurd hlt hno
  · exact absurd hlt hno
  · exact absurd hlt hno

/-- The equations of a box measure its components, one for each. -/
theorem Box.measures_of_rows {b : Box Exact} {xs fs : List ℝ}
    (hl : b.lower.length = xs.length) (hu : b.upper.length = xs.length)
    (hf : fs.length = xs.length)
    (hb : ∀ (i : Nat) (l u : Exact), b.lower[i]? = some l → b.upper[i]? = some u → Ordered l u) :
    ∃ rows, b.rows (xs.map .real) (fs.map .real) = .ok rows ∧ rows.length = xs.length ∧
      ∀ (i : Nat) (l u : Exact) (x f : ℝ), b.lower[i]? = some l → b.upper[i]? = some u →
        xs[i]? = some x → fs[i]? = some f →
        ∃ r φ, rows[i]? = some r ∧ r.value = .real φ ∧ Measures l u x f φ := by
  refine ⟨_, rows_eq_ok (by simpa using hl) (by simpa using hu), ?_, ?_⟩
  · simp [hl, hu, hf]
  · intro i l u x f hli hui hxi hfi
    have hbounds : (b.lower.zip b.upper)[i]? = some (l, u) :=
      List.getElem?_zip_eq_some.2 ⟨hli, hui⟩
    have hpoint : ((xs.map Exact.real).zip (fs.map Exact.real))[i]? = some (.real x, .real f) :=
      List.getElem?_zip_eq_some.2 ⟨by simp [hxi], by simp [hfi]⟩
    refine ⟨boxRow l u (.real x) (.real f), equation l u x f, ?_, boxRow_real l u x f,
      measures_equation (hb i l u hli hui) x f⟩
    exact List.getElem?_zipWith_eq_some.2 ⟨_, _, hbounds, hpoint, rfl⟩

def eachSide : Box Exact where
  lower := [.infinite true, .real 0, .infinite true, .real 0, .real 1]
  upper := [.infinite false, .infinite false, .real (2 : ℕ), .real 1, .real 1]

theorem ordered_eachSide {i : Nat} {l u : Exact} (hl : eachSide.lower[i]? = some l)
    (hu : eachSide.upper[i]? = some u) : Ordered l u := by
  match i with
  | 0 =>
    cases hl
    cases hu
    exact .free
  | 1 =>
    cases hl
    cases hu
    exact .lowerOnly 0
  | 2 =>
    cases hl
    cases hu
    exact .upperOnly (2 : ℕ)
  | 3 =>
    cases hl
    cases hu
    exact .boxed zero_le_one
  | 4 =>
    cases hl
    cases hu
    exact .boxed le_rfl
  | i + 5 => cases hl

/-- Between its bounds a component is not solved where its function is not zero. -/
theorem eachSide_not_solved :
    ∃ rows r φ, eachSide.rows ([3, 0, 2, 1 / 2, 1].map .real) ([0, 1, -1, 1, 7].map .real) = .ok rows ∧
      rows[3]? = some r ∧ r.value = Exact.real φ ∧ φ ≠ 0 := by
  obtain ⟨rows, hrows, -, hm⟩ := @Box.measures_of_rows eachSide [3, 0, 2, 1 / 2, 1]
    [0, 1, -1, 1, 7] rfl rfl rfl fun i l u hl hu => ordered_eachSide hl hu
  obtain ⟨r, φ, hr, hφ, h⟩ := hm 3 (.real 0) (.real 1) (1 / 2) 1 rfl rfl rfl rfl
  refine ⟨rows, r, φ, hrows, hr, hφ, fun hzero => ?_⟩
  have hinside := (h.zero.1 hzero).inside (by change (0 : ℝ) < 1 / 2; norm_num)
    (by change (1 / 2 : ℝ) < 1; norm_num)
  exact one_ne_zero hinside

end Equilibria
