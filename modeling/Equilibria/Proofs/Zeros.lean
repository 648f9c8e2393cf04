import Equilibria.Proofs.Doubles

/-!
# Two zeros

There are two zeros among the doubles, one of each sign. A sum that starts from zero makes one of
them out of the other, and keeps all doubles but these as they are.
-/

namespace Equilibria

/-- A sum from zero is what is added to it, and sums and products keep what is the same. -/
structure Scalar.Sameness {α : Type} [Scalar α] (same : α → α → Prop) : Prop where
  refl : ∀ x, same x x
  zero_add : ∀ x, same (0 + x) x
  add : ∀ c {x y}, same x y → same (c + x) (c + y)
  mul : ∀ c {x y}, same x y → same (c * x) (c * y)

namespace Double

open Float.Model (UnpackedFloat)
open Float.Model.UnpackedFloat (Sign)

theorem pack_parts (a : Float) : Float.ofModel (.pack (parts a)) = a := Float.ofBits_toBits a

theorem add_eq (a b : Float) :
    a + b = .ofModel (.pack (UnpackedFloat.add .binary64 (parts a) (parts b))) := rfl

theorem mul_eq (a b : Float) :
    a * b = .ofModel (.pack (UnpackedFloat.mul .binary64 (parts a) (parts b))) := rfl

theorem parts_zero : parts 0 = .zero .positive := rfl

theorem parts_pack_zero (s : Sign) : parts (.ofModel (.pack (.zero s))) = .zero s := by
  cases s <;> rfl

theorem isZero_iff {a : Float} : (a == 0) = true ↔ ∃ s, parts a = .zero s := by
  rw [beq_iff, parts_zero]
  constructor
  · intro h
    cases ha : parts a with
    | zero s => exact ⟨s, rfl⟩
    | infinity s | notANumber | finite s m e hm =>
      rw [ha] at h
      try cases s
      all_goals cases h
  · rintro ⟨s, hs⟩
    rw [hs]
    rfl

/-- The same double, or two zeros. -/
def Same (a b : Float) : Prop := a = b ∨ (a == 0) = true ∧ (b == 0) = true

theorem same_of_zeros {a b : Float} {s t : Sign} (ha : parts a = .zero s) (hb : parts b = .zero t) :
    Same a b := .inr ⟨isZero_iff.2 ⟨s, ha⟩, isZero_iff.2 ⟨t, hb⟩⟩

theorem add_zero_zero (s t : Sign) :
    UnpackedFloat.add .binary64 (.zero s) (.zero t) = .zero (if s == t then s else .positive) := by
  cases s <;> cases t <;> rfl

theorem add_zeros (c : Float) {a b : Float} {s t : Sign} (ha : parts a = .zero s)
    (hb : parts b = .zero t) : Same (c + a) (c + b) := by
  rw [add_eq, add_eq, ha, hb]
  cases hc : parts c with
  | infinity u | notANumber | finite u m e hm => exact .inl rfl
  | zero u =>
    rw [add_zero_zero, add_zero_zero]
    exact same_of_zeros (parts_pack_zero _) (parts_pack_zero _)

theorem mul_zeros (c : Float) {a b : Float} {s t : Sign} (ha : parts a = .zero s)
    (hb : parts b = .zero t) : Same (c * a) (c * b) := by
  rw [mul_eq, mul_eq, ha, hb]
  cases parts c with
  | infinity u | notANumber => exact .inl rfl
  | zero u | finite u m e hm =>
    exact same_of_zeros (parts_pack_zero (u * s)) (parts_pack_zero (u * t))

theorem zero_add_same (a : Float) : Same (0 + a) a := by
  rw [add_eq, parts_zero]
  cases ha : parts a with
  | zero s =>
    rw [add_zero_zero]
    exact same_of_zeros (parts_pack_zero _) ha
  | infinity s | notANumber | finite s m e hm =>
    have hkept : UnpackedFloat.add .binary64 (.zero .positive) (parts a) = parts a := by
      rw [ha]
      rfl
    rw [ha] at hkept
    rw [hkept, ← ha]
    exact .inl (pack_parts a)

theorem sameness_same : Scalar.Sameness Same where
  refl _ := .inl rfl
  zero_add := zero_add_same
  add c x y h := by
    rcases h with rfl | ⟨hx, hy⟩
    · exact .inl rfl
    · obtain ⟨s, hs⟩ := isZero_iff.1 hx
      obtain ⟨t, ht⟩ := isZero_iff.1 hy
      exact add_zeros c hs ht
  mul c x y h := by
    rcases h with rfl | ⟨hx, hy⟩
    · exact .inl rfl
    · obtain ⟨s, hs⟩ := isZero_iff.1 hx
      obtain ⟨t, ht⟩ := isZero_iff.1 hy
      exact mul_zeros c hs ht

/-- The same doubles are equal unless they are no numbers. -/
theorem beq_of_same {a b : Float} (h : Same a b) (ha : a.isNaN = false) : (a == b) = true := by
  rcases h with rfl | ⟨hx, hy⟩
  · obtain ⟨o, ho⟩ := exists_compare (a := parts a) (b := parts a) ha ha
    have hs := compare_swap (parts a) (parts a)
    rw [ho] at hs
    rw [beq_iff, ho]
    cases o with
    | eq => rfl
    | lt | gt => cases hs
  · obtain ⟨s, hs⟩ := isZero_iff.1 hx
    obtain ⟨t, ht⟩ := isZero_iff.1 hy
    rw [beq_iff, hs, ht]
    rfl

end Double

end Equilibria
