import Equilibria.Model.Solve
import Equilibria.Path.Statement
import Equilibria.Proofs.Doubles
import Equilibria.Proofs.Solves

/-!
# Bounds that count

A bound that is not finite is left out of a component, and one that is not a number is refused. So
the bounds that pass the check mean what they say, with one exception: a variable that is fixed at
an infinity has room for no number, and it is solved as if it had no bounds.
-/

namespace Equilibria

open Fallible

/-! ## Bounds that are left out -/

def Side.hasLower : Side → Bool
  | .lowerOnly | .boxed => true
  | .free | .upperOnly => false

def Side.hasUpper : Side → Bool
  | .upperOnly | .boxed => true
  | .free | .lowerOnly => false

section

variable {α : Type} [Scalar α]

theorem Side.hasLower_of (l u : α) : (Side.of l u).hasLower = Scalar.isFinite l := by
  unfold Side.of
  cases Scalar.isFinite l <;> cases Scalar.isFinite u <;> rfl

theorem Side.hasUpper_of (l u : α) : (Side.of l u).hasUpper = Scalar.isFinite u := by
  unfold Side.of
  cases Scalar.isFinite l <;> cases Scalar.isFinite u <;> rfl

namespace Path

def Relation.lower? : Relation α → Option α
  | .ranged l _ _ | .atMost (.number l) (.variable _) => some l
  | _ => none

def Relation.upper? : Relation α → Option α
  | .ranged _ _ u | .atMost (.variable _) (.number u) => some u
  | _ => none

theorem Condition.bounds_ofPair {place : Nat} {l u : α} {f : Formula α} {c : Condition α}
    (h : ofPair place l u f = .ok c) :
    c.first.lower? = (if (Side.of l u).hasLower then some l else none) ∧
      c.first.upper? = if (Side.of l u).hasUpper then some u else none := by
  unfold ofPair at h
  cases hs : Side.of l u <;> rw [hs] at h
  · cases h
    cases f <;> exact ⟨rfl, rfl⟩
  · obtain ⟨r, -, h⟩ := bind_eq_ok.1 h
    cases h
    exact ⟨rfl, rfl⟩
  · obtain ⟨r, -, h⟩ := bind_eq_ok.1 h
    cases h
    exact ⟨rfl, rfl⟩
  · cases h
    exact ⟨rfl, rfl⟩

end Path

end

/-! ## Bounds that mean what they say -/

section

variable {l u : Float}

/-- There is room between the bounds, and solvers count each one that is not the infinity on its
side. -/
structure Sound (l u : Float) : Prop where
  room : ∃ x : Float, x.isFinite = true ∧ l ≤ x ∧ x ≤ u
  lower : (Side.of l u).hasLower = true ∨ (l == -Double.infinity) = true
  upper : (Side.of l u).hasUpper = true ∨ (u == Double.infinity) = true
  fixed : (l == u) = true → Side.of l u = .boxed
  condition : ∀ (place : Nat) (f : Formula Float) (c : Path.Condition Float),
    Path.Condition.ofPair place l u f = .ok c →
      (c.first.lower? = some l ∨ (l == -Double.infinity) = true) ∧
      (c.first.upper? = some u ∨ (u == Double.infinity) = true)

/-- Bounds that are two numbers in order. -/
structure Accepted (l u : Float) : Prop where
  lower : l.isNaN = false
  upper : u.isNaN = false
  le : l ≤ u

theorem accepted_of_isCrossed {v : Variable Float} (h : Registry.isCrossed v = false) :
    Accepted v.lower v.upper := by
  rw [Registry.isCrossed, Bool.or_eq_false_iff, Bool.or_eq_false_iff, decide_eq_false_iff_not] at h
  obtain ⟨⟨hl, hu⟩, hlt⟩ := h
  exact ⟨hl, hu, Double.le_of_not_lt hl hu hlt⟩

namespace Accepted

theorem cases (h : Accepted l u) :
    ((l.isFinite = true ∨ Double.parts l = .infinity .negative) ∧
      (u.isFinite = true ∨ Double.parts u = .infinity .positive)) ∨
    ∃ s, Double.parts l = .infinity s ∧ Double.parts u = .infinity s := by
  rcases Double.finite_or_infinite h.lower with hl | ⟨_ | _, hl⟩
  · rcases Double.finite_or_infinite h.upper with hu | ⟨_ | _, hu⟩
    · exact .inl ⟨.inl hl, .inl hu⟩
    · exact .inr ⟨_, Double.eq_neg_infinity_of_le hu h.le, hu⟩
    · exact .inl ⟨.inl hl, .inr hu⟩
  · rcases Double.finite_or_infinite h.upper with hu | ⟨_ | _, hu⟩
    · exact .inl ⟨.inr hl, .inl hu⟩
    · exact .inr ⟨_, hl, hu⟩
    · exact .inl ⟨.inr hl, .inr hu⟩
  · exact .inr ⟨_, hl, Double.eq_infinity_of_le hl h.le⟩

theorem exists_finite (h : Accepted l u)
    (hl : l.isFinite = true ∨ Double.parts l = .infinity .negative)
    (hu : u.isFinite = true ∨ Double.parts u = .infinity .positive) :
    ∃ x : Float, x.isFinite = true ∧ l ≤ x ∧ x ≤ u := by
  rcases hl with hl | hl
  · exact ⟨l, hl, Double.le_self h.lower, h.le⟩
  · rcases hu with hu | hu
    · exact ⟨u, hu, h.le, Double.le_self h.upper⟩
    · exact ⟨0, rfl, Double.neg_infinity_le hl rfl, Double.le_infinity rfl hu⟩

theorem boxed_of_beq (hl : l.isFinite = true ∨ Double.parts l = .infinity .negative)
    (hu : u.isFinite = true ∨ Double.parts u = .infinity .positive) (h : (l == u) = true) :
    Side.of l u = .boxed := by
  have hle : u ≤ l := Double.ge_of_beq h
  rcases hl with hl | hl
  · rcases hu with hu | hu
    · simp [Side.of, Scalar.isFinite, hl, hu]
    · have hinf := Double.not_isFinite (Double.eq_infinity_of_le hu hle)
      cases hl.symm.trans hinf
  · have hinf := Double.eq_neg_infinity_of_le hl hle
    rcases hu with hu | hu
    · cases hu.symm.trans (Double.not_isFinite hinf)
    · cases hinf.symm.trans hu

theorem sound_iff (h : Accepted l u) :
    Sound l u ↔ ¬ ((l == u) = true ∧ Scalar.isFinite l = false) := by
  constructor
  · rintro hs ⟨heq, hl⟩
    have hlower := Side.hasLower_of l u
    rw [hs.fixed heq, hl] at hlower
    cases hlower
  · intro hno
    rcases h.cases with ⟨hl, hu⟩ | ⟨s, hl, hu⟩
    · have hlower : (Side.of l u).hasLower = true ∨ (l == -Double.infinity) = true := by
        rw [Side.hasLower_of]
        exact hl.imp id fun h => Double.beq_of_infinite h Double.parts_neg_infinity
      have hupper : (Side.of l u).hasUpper = true ∨ (u == Double.infinity) = true := by
        rw [Side.hasUpper_of]
        exact hu.imp id fun h => Double.beq_of_infinite h Double.parts_infinity
      refine ⟨h.exists_finite hl hu, hlower, hupper, boxed_of_beq hl hu, fun place f c hc => ?_⟩
      obtain ⟨hcl, hcu⟩ := Path.Condition.bounds_ofPair hc
      rw [hcl, hcu]
      exact ⟨hlower.imp (fun h => if_pos h) id, hupper.imp (fun h => if_pos h) id⟩
    · exact absurd ⟨Double.beq_of_infinite hl hu, Double.not_isFinite hl⟩ hno

end Accepted

theorem Registry.isCrossed_of_checkBounds {α : Type} [Scalar α] {r : Registry α}
    (h : r.checkBounds = .ok ()) : ∀ v ∈ r.vars, isCrossed v = false := by
  rcases first_or_none isCrossed r.vars with hno | ⟨before, v, after, hvars, hbefore, hv⟩
  · exact hno
  · cases h.symm.trans (checkBounds_crossed hvars hbefore hv)

/-- Variables that pass the check have sound bounds, but for those fixed at an infinity. -/
theorem Registry.sound_iff_of_checkBounds {r : Registry Float} (h : r.checkBounds = .ok ())
    {v : Variable Float} (hv : v ∈ r.vars) :
    Sound v.lower v.upper ↔ ¬ (v.isFixed = true ∧ Scalar.isFinite v.lower = false) :=
  (accepted_of_isCrossed (isCrossed_of_checkBounds h v hv)).sound_iff

theorem Model.sound_iff_of_posed {m : Model Float} {p : Problem (Scratch Float) Float}
    (h : m.posed = .ok p) {i : Nat} (hl : p.lower[i]? = some l) (hu : p.upper[i]? = some u) :
    Sound l u ↔ ¬ ((l == u) = true ∧ Scalar.isFinite l = false) := by
  have hv := valid_of_posed h
  obtain ⟨vars, flat, hvars, -, hp⟩ := hv.posed_ok
  cases h.symm.trans hp
  have hl : (vars.map (·.lower))[i]? = some l := hl
  have hu : (vars.map (·.upper))[i]? = some u := hu
  rw [List.getElem?_map] at hl hu
  obtain ⟨v, hvi, rfl⟩ := Option.map_eq_some_iff.1 hl
  rw [hvi] at hu
  cases hu
  obtain ⟨k, hk, hget⟩ := mem_of_mapM hvars (List.mem_of_getElem? hvi)
  obtain ⟨e, he, -, hek⟩ := m.registry.get_of_contains (hv.known k hk)
  cases hget.symm.trans hek
  exact (accepted_of_isCrossed (hv.bounds _ (List.mem_map_of_mem he))).sound_iff

end

/-- One variable fixed at five, and one at infinity. -/
def fiveAndInfinity : Registry Float where
  entries := [(⟨"x", []⟩, ⟨⟨"x", []⟩, 5, 5, 5, "", none⟩),
    (⟨"y", []⟩, ⟨⟨"y", []⟩, Double.infinity, Double.infinity, 3, "", none⟩)]
  proper := .cons rfl (.cons rfl .nil (by simp)) (by simp; decide)

theorem fiveAndInfinity_checked : fiveAndInfinity.checkBounds = .ok () := by
  refine Registry.checkBounds_ok ?_
  decide +kernel

/-- Just the first variable has sound bounds. -/
theorem fiveAndInfinity_sound : fiveAndInfinity.checkBounds = .ok () ∧ Sound 5 5 ∧
    ¬ Sound Double.infinity Double.infinity := by
  have hsound := fun v => @Registry.sound_iff_of_checkBounds fiveAndInfinity
    fiveAndInfinity_checked v
  refine ⟨fiveAndInfinity_checked, (hsound _ List.mem_cons_self).2 ?_, fun h => ?_⟩
  · decide +kernel
  · exact (hsound _ (List.mem_cons_of_mem _ List.mem_cons_self)).1 h ⟨rfl, rfl⟩

/-- The second variable passes the check and is taken for free, though no number is between its
bounds. -/
theorem fixed_at_infinity_is_free : fiveAndInfinity.checkBounds = .ok () ∧
    ∃ v ∈ fiveAndInfinity.vars, v.isFixed = true ∧
      (¬ ∃ x : Float, x.isFinite = true ∧ v.lower ≤ x ∧ x ≤ v.upper) ∧
      (∀ x f : Float, boxRow v.lower v.upper x f = ⟨f, 0, 1⟩) ∧
      Path.Condition.ofPair 1 v.lower v.upper (.variable 0) =
        .ok ⟨.equal (.variable 0) (.number 0), .plain (.variable 1)⟩ := by
  refine ⟨fiveAndInfinity_checked, _, List.mem_cons_of_mem _ List.mem_cons_self, rfl, ?_, ?_, ?_⟩
  · rintro ⟨x, hx, hle, -⟩
    have hinf := Double.not_isFinite (Double.eq_infinity_of_le Double.parts_infinity hle)
    cases hx.symm.trans hinf
  · intro x f
    rfl
  · rfl

end Equilibria
