import Mathlib.Algebra.BigOperators.Group.List.Basic
import Equilibria.Index.Product

/-!
# Places in a product

The tuples of a product are numbered by their digits: the place of a tuple is the number whose
digits, in the base of the sizes of the domains, are the places of its elements. The last digit is
the fastest.
-/

namespace Equilibria

variable {β γ : Type}

/-! ## Digits -/

/-- The number with these digits. -/
def placeOf : List Nat → List Nat → Nat
  | _ :: sizes, i :: digits => i * sizes.prod + placeOf sizes digits
  | _, _ => 0

structure IsNumeral (sizes digits : List Nat) (n : Nat) : Prop where
  below : List.Forall₂ (· < ·) digits sizes
  value : placeOf sizes digits = n

/-- The digits of a number, the last one fastest. -/
def digits : List Nat → Nat → List Nat
  | [], _ => []
  | _ :: sizes, n => n / sizes.prod :: digits sizes (n % sizes.prod)

theorem isNumeral_digits {sizes : List Nat} {n : Nat} (h : n < sizes.prod) :
    IsNumeral sizes (digits sizes n) n := by
  induction sizes generalizing n with
  | nil =>
    exact ⟨.nil, (Nat.lt_one_iff.1 h).symm⟩
  | cons k sizes ih =>
    rw [List.prod_cons] at h
    have hpos : 0 < sizes.prod := Nat.pos_of_lt_mul_left h
    obtain ⟨hbelow, hvalue⟩ := ih (Nat.mod_lt n hpos)
    refine ⟨.cons ((Nat.div_lt_iff_lt_mul hpos).2 h) hbelow, ?_⟩
    rw [digits, placeOf, hvalue]
    exact Nat.div_add_mod' n sizes.prod

theorem IsNumeral.lt {sizes digits : List Nat} {n : Nat} (h : IsNumeral sizes digits n) :
    n < sizes.prod := by
  obtain ⟨hbelow, rfl⟩ := h
  induction hbelow with
  | nil => exact Nat.one_pos
  | @cons i k digits sizes hi _ ih =>
    calc placeOf (k :: sizes) (i :: digits)
      _ = i * sizes.prod + placeOf sizes digits := rfl
      _ < i * sizes.prod + sizes.prod := Nat.add_lt_add_left ih _
      _ = (i + 1) * sizes.prod := (Nat.succ_mul _ _).symm
      _ ≤ k * sizes.prod := Nat.mul_le_mul_right _ hi
      _ = (k :: sizes).prod := List.prod_cons.symm

/-! ## Tuples -/

def pick : List (List β) → List Nat → Option (List β)
  | [], [] => some []
  | d :: ds, i :: places => do return (← d[i]?) :: (← pick ds places)
  | _, _ => none

theorem pick_isSome {ds : List (List β)} {places : List Nat}
    (h : List.Forall₂ (· < ·) places (ds.map List.length)) : ∃ t, pick ds places = some t := by
  induction ds generalizing places with
  | nil =>
    cases h
    exact ⟨[], rfl⟩
  | cons d ds ih =>
    cases h with
    | cons hi hr =>
      obtain ⟨t, ht⟩ := ih hr
      exact ⟨_ :: t, by rw [pick, List.getElem?_eq_getElem hi, ht]; rfl⟩

theorem mem_product {ds : List (List β)} {t : List β} :
    t ∈ product ds ↔ List.Forall₂ (· ∈ ·) t ds := by
  induction ds generalizing t with
  | nil => simp [product]
  | cons d ds ih =>
    rw [product, List.mem_flatMap, List.forall₂_cons_right_iff]
    constructor
    · rintro ⟨x, hx, ht⟩
      obtain ⟨r, hr, rfl⟩ := List.mem_map.1 ht
      exact ⟨x, r, hx, ih.1 hr, rfl⟩
    · rintro ⟨x, r, hx, hr, rfl⟩
      exact ⟨x, hx, List.mem_map_of_mem (ih.2 hr)⟩

theorem product_eq_nil {ds : List (List β)} (h : [] ∈ ds) : product ds = [] := by
  induction ds with
  | nil => cases h
  | cons d ds ih =>
    rcases List.mem_cons.1 h with rfl | h
    · rfl
    · simp [product, ih h]

theorem product_singleton (d : List β) : product [d] = d.map ([·]) := List.map_eq_flatMap.symm

theorem length_product (ds : List (List β)) :
    (product ds).length = (ds.map List.length).prod := by
  induction ds with
  | nil => rfl
  | cons d ds ih => simp [product, List.length_flatMap, ih]

theorem getElem?_flatMap {f : β → List γ} {k : Nat} {d : List β} (h : ∀ x ∈ d, (f x).length = k)
    {i j : Nat} (hj : j < k) : (d.flatMap f)[i * k + j]? = d[i]?.bind fun x => (f x)[j]? := by
  induction d generalizing i with
  | nil => rfl
  | cons x d ih =>
    have hx : (f x).length = k := h x List.mem_cons_self
    rw [List.flatMap_cons]
    cases i with
    | zero =>
      rw [Nat.zero_mul, Nat.zero_add, List.getElem?_append_left (hx.symm ▸ hj)]
      rfl
    | succ i =>
      have hle : (f x).length ≤ (i + 1) * k + j := by rw [hx, Nat.succ_mul]; omega
      have hrest : (i + 1) * k + j - (f x).length = i * k + j := by rw [hx, Nat.succ_mul]; omega
      rw [List.getElem?_append_right hle, hrest, ih fun y hy => h y (List.mem_cons_of_mem _ hy),
        List.getElem?_cons_succ]

theorem getElem?_product {ds : List (List β)} {places : List Nat} {n : Nat}
    (h : IsNumeral (ds.map List.length) places n) : (product ds)[n]? = pick ds places := by
  induction ds generalizing places n with
  | nil =>
    obtain ⟨hbelow, rfl⟩ := h
    cases hbelow
    rfl
  | cons d ds ih =>
    obtain ⟨hbelow, rfl⟩ := h
    cases hbelow with
    | @cons i _ places _ hi hr =>
      have hrest : IsNumeral (ds.map List.length) places _ := ⟨hr, rfl⟩
      have hlength : ∀ x ∈ d, ((product ds).map (x :: ·)).length = (ds.map List.length).prod :=
        fun x _ => by rw [List.length_map, length_product]
      rw [List.map_cons, placeOf, product, getElem?_flatMap hlength hrest.lt, pick]
      cases d[i]? with
      | none => rfl
      | some x =>
        rw [Option.bind_some, List.getElem?_map, ih hrest]
        cases pick ds places <;> rfl

/-- A product lists one tuple for each number below the product of the sizes. -/
structure Numbered (ds tuples : List (List β)) : Prop where
  length : tuples.length = (ds.map List.length).prod
  at_digits : ∀ n < tuples.length,
    IsNumeral (ds.map List.length) (digits (ds.map List.length) n) n ∧
      ∃ t, tuples[n]? = some t ∧ pick ds (digits (ds.map List.length) n) = some t

theorem numbered_product (ds : List (List β)) : Numbered ds (product ds) where
  length := length_product ds
  at_digits n hn := by
    have hnumeral := isNumeral_digits (length_product ds ▸ hn)
    obtain ⟨t, ht⟩ := pick_isSome hnumeral.below
    exact ⟨hnumeral, t, (getElem?_product hnumeral).trans ht, ht⟩

example : product [["a", "b"], ["u", "v", "w"]] = [["a", "u"], ["a", "v"], ["a", "w"], ["b", "u"],
    ["b", "v"], ["b", "w"]] ∧ digits [2, 3] 4 = [1, 1] := by decide

end Equilibria
