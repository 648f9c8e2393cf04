import Equilibria.Proofs.Doubles

/-!
# Whole numbers as texts

The text of a whole number is read as the nearest double, so it gives the number back just if a
double holds it.
-/

namespace Equilibria

namespace Decimal

/-! ## Digits -/

variable {cs : List Char}

theorem toNat_of_isDigit {c : Char} (h : c.isDigit = true) : 48 ≤ c.toNat ∧ c.toNat ≤ 57 := by
  simp only [Char.isDigit, Bool.and_eq_true, decide_eq_true_eq] at h
  exact h

theorem plainDigit_of_isDigit {c : Char} (h : c.isDigit = true) : plainDigit c = c := by
  have hvalue : Text.digitValue? c = some (c.toNat - '0'.toNat) := if_pos h
  have hsum : '0'.toNat + (c.toNat - '0'.toNat) = c.toNat :=
    Nat.add_sub_cancel' (toNat_of_isDigit h).1
  unfold plainDigit
  simp only [hvalue, hsum, Char.ofNat_toNat]

theorem isSpace_of_isDigit {c : Char} (h : c.isDigit = true) : Text.isSpace c = false := by
  have hc := toNat_of_isDigit h
  have hblank : Text.isBlank c = false := by
    simp only [Text.isBlank, Bool.or_eq_false_iff, Bool.and_eq_false_iff, decide_eq_false_iff_not,
      beq_eq_false_iff_ne]
    omega
  rw [Text.isSpace, hblank, Bool.false_and]

theorem toLower_of_isDigit {c : Char} (h : c.isDigit = true) : c.toLower = c := by
  have hc := toNat_of_isDigit h
  unfold Char.toLower
  rw [dif_neg]
  rintro ⟨hlow, -⟩
  have hlow : 65 ≤ c.toNat := hlow
  omega

theorem dropWhile_isSpace (h : ∀ c ∈ cs, Text.isSpace c = false) :
    cs.dropWhile Text.isSpace = cs := by
  cases cs with
  | nil => rfl
  | cons c r => rw [List.dropWhile_cons_of_neg (by simp [h c List.mem_cons_self])]

theorem trimSpace_eq (h : ∀ c ∈ cs, Text.isSpace c = false) : Text.trimSpace cs = cs := by
  unfold Text.trimSpace
  rw [dropWhile_isSpace h, dropWhile_isSpace fun c hc => h c (List.mem_reverse.1 hc),
    List.reverse_reverse]

theorem dropUnderscores_eq {previous : Char} (hp : previous ≠ '_') (h : ∀ c ∈ cs, c ≠ '_') :
    dropUnderscores previous cs = some cs := by
  induction cs generalizing previous with
  | nil => simp [dropUnderscores, hp]
  | cons c r ih =>
    have hc : c ≠ '_' := h c List.mem_cons_self
    have hr := ih hc fun d hd => h d (List.mem_cons_of_mem c hd)
    simp [dropUnderscores, hp, hc, hr]

theorem map_toLower_ne {word : List Char} {w : Char} (hw : w.isDigit = false)
    (hne : cs ≠ []) (h : ∀ c ∈ cs, c.isDigit = true) :
    (cs.map Char.toLower == w :: word) = false := by
  rw [beq_eq_false_iff_ne]
  intro heq
  cases cs with
  | nil => exact hne rfl
  | cons c r =>
    have hc := h c List.mem_cons_self
    have hcw : c = w := by
      rw [List.map_cons, toLower_of_isDigit hc] at heq
      exact (List.cons.inj heq).1
    rw [← hcw, hc] at hw
    cases hw

theorem readMagnitude_digits (hne : cs ≠ []) (h : ∀ c ∈ cs, c.isDigit = true) :
    readMagnitude cs = some (nearest (digitsValue cs) 0) := by
  have hword : ∀ w word, w.isDigit = false → (cs.map Char.toLower == w :: word) = false :=
    fun w word hw => map_toLower_ne hw hne h
  have htake : cs.takeWhile Char.isDigit = cs := by
    simpa using @List.takeWhile_append_of_pos Char Char.isDigit cs [] h
  have hdrop : cs.dropWhile Char.isDigit = [] := by
    simpa using @List.dropWhile_append_of_pos Char Char.isDigit cs [] h
  have hempty : cs.isEmpty = false := by simpa using hne
  have hinf : (cs.map Char.toLower == "inf".toList) = false := hword 'i' ['n', 'f'] rfl
  have hinfinity : (cs.map Char.toLower == "infinity".toList) = false :=
    hword 'i' ['n', 'f', 'i', 'n', 'i', 't', 'y'] rfl
  have hnan : (cs.map Char.toLower == "nan".toList) = false := hword 'n' ['a', 'n'] rfl
  unfold readMagnitude
  simp only [htake, hdrop, hempty, hinf, hinfinity, hnan]
  simp [readExponent]

/-! ## Numerals -/

def numeral (k : Int) : List Char := Nat.toDigits 10 k.natAbs

theorem isDigit_of_mem_numeral {k : Int} {c : Char} (h : c ∈ numeral k) : c.isDigit = true :=
  Nat.isDigit_of_mem_toDigits (by decide) (by decide) h

theorem numeral_ne_nil (k : Int) : numeral k ≠ [] := Nat.toDigits_ne_nil

theorem digitsValue_numeral (k : Int) : digitsValue (numeral k) = k.natAbs :=
  Nat.ofDigitChars_ten_toDigits

theorem toList_toString (k : Int) : (toString k).toList =
    if k < 0 then '-' :: numeral k else numeral k := by
  rw [Int.toString_eq_repr, Int.repr_eq_if]
  by_cases hk : k < 0
  · have hsize : (-k).toNat = k.natAbs := by omega
    rw [if_neg (by omega), if_pos hk, String.toList_append, Nat.toList_repr, hsize]
    rfl
  · have hsize : k.toNat = k.natAbs := by omega
    rw [if_pos (by omega), if_neg hk, Nat.toList_repr, hsize]
    rfl

/-- The nearest double. -/
def nearestWhole (k : Int) : Float :=
  if k < 0 then -nearest k.natAbs 0 else nearest k.natAbs 0

theorem signed_numeral (k : Int) : signed (numeral k) = (false, numeral k) := by
  have hdigit := fun c => isDigit_of_mem_numeral (k := k) (c := c)
  unfold signed
  split
  · rename_i heq
    have hminus := hdigit '-' (by simp [heq])
    cases hminus
  · rename_i heq
    have hplus := hdigit '+' (by simp [heq])
    cases hplus
  · rfl

theorem signed_toString (k : Int) :
    signed (toString k).toList = (decide (k < 0), numeral k) := by
  rw [toList_toString]
  by_cases hk : k < 0
  · rw [if_pos hk, decide_eq_true hk]
    rfl
  · rw [if_neg hk, decide_eq_false hk, signed_numeral]

theorem mem_toString {k : Int} {c : Char} (h : c ∈ (toString k).toList) :
    c = '-' ∨ c.isDigit = true := by
  rw [toList_toString] at h
  split at h
  · rcases List.mem_cons.1 h with rfl | h
    · exact .inl rfl
    · exact .inr (isDigit_of_mem_numeral h)
  · exact .inr (isDigit_of_mem_numeral h)

theorem read?_toString (k : Int) : read? (toString k) = some (nearestWhole k) := by
  have hplain : (toString k).toList.map plainDigit = (toString k).toList := by
    refine (List.map_congr_left fun c hc => ?_).trans (List.map_id _)
    rcases mem_toString hc with rfl | hc
    · rfl
    · exact plainDigit_of_isDigit hc
  have htrim : Text.trimSpace (toString k).toList = (toString k).toList := by
    apply trimSpace_eq
    intro c hc
    rcases mem_toString hc with rfl | hc
    · rfl
    · exact isSpace_of_isDigit hc
  have hdrop : dropUnderscores ' ' (toString k).toList = some (toString k).toList := by
    apply dropUnderscores_eq (by decide)
    rintro c hc rfl
    rcases mem_toString hc with h | h <;> cases h
  have hmagnitude : readMagnitude (numeral k) = some (nearest k.natAbs 0) := by
    rw [readMagnitude_digits (numeral_ne_nil k) fun c => isDigit_of_mem_numeral,
      digitsValue_numeral]
  unfold read?
  simp only [hplain, htrim, hdrop, signed_toString, hmagnitude, Option.map_some, decide_eq_true_eq]
  rfl

end Decimal

/-! ## Numbers that come back -/

namespace Double

open Decimal (nearest nearestWhole)
open Float.Model.UnpackedFloat (Sign)

theorem wholePart_nearest_zero : wholePart (nearestWhole 0) = .ok 0 := by
  have hzero : Decimal.Binary.ofFloat (nearestWhole 0) = .finite false 0 (-1074) := by
    decide +kernel
  unfold wholePart
  rw [hzero]
  simp only [Nat.zero_mul, Nat.zero_div]
  rfl

theorem length_toDigits_le {n e places : Nat} (hn : n < 2 ^ (53 + e)) (hpos : 0 < places)
    (h : 53 + e ≤ 3 * places) : (Nat.toDigits 10 n).length ≤ places := by
  rw [Nat.length_toDigits_le_iff (by decide) hpos]
  calc n < 2 ^ (53 + e) := hn
    _ ≤ 2 ^ (3 * places) := Nat.pow_le_pow_right (by decide) h
    _ = (2 ^ 3) ^ places := Nat.pow_mul 2 3 places
    _ ≤ 10 ^ places := Nat.pow_le_pow_left (by decide) places

theorem nearest_eq {n m e : Nat} (hn : n ≠ 0) (hsize : n = m * 2 ^ e) (hm : m < 2 ^ 53)
    (he : e ≤ 971) : nearest n 0 = Float.ofScientific n false 0 := by
  have hlt : n < 2 ^ (53 + e) := by
    rw [hsize, Nat.pow_add]
    exact Nat.mul_lt_mul_of_pos_right hm (Nat.two_pow_pos e)
  have hplaces : (Nat.toDigits 10 n).length ≤ 400 :=
    length_toDigits_le hlt (by decide) (by omega)
  have hbeq : (n == 0) = false := by simpa using hn
  unfold nearest
  rw [hbeq, if_neg Bool.false_ne_true, if_neg, if_neg, if_neg]
  · rfl
  · decide
  · omega
  · omega

theorem parts_nearestWhole {k : Int} (h : Holds k) (hk : k ≠ 0) : ∃ s m e hm,
    parts (nearestWhole k) = .finite s m e hm ∧ Stands k.natAbs m e ∧ s.apply k.natAbs = k := by
  obtain ⟨m, e, hm, he, hsize⟩ := h
  have hn0 : k.natAbs ≠ 0 := by omega
  have hm0 : m ≠ 0 := by
    rintro rfl
    omega
  obtain ⟨m', e', hnormal, hstands⟩ := exists_normal hsize hm0 hm he
  have hparts : parts (nearest k.natAbs 0) = .finite .positive m' e' hnormal.pos := by
    rw [nearest_eq hn0 hsize hm he]
    exact parts_ofScientific hnormal hstands
  unfold nearestWhole
  split
  · rename_i hneg
    refine ⟨.negative, m', e', hnormal.pos, parts_neg hnormal hparts, hstands, ?_⟩
    change -(k.natAbs : Int) = k
    omega
  · rename_i hneg
    refine ⟨.positive, m', e', hnormal.pos, hparts, hstands, ?_⟩
    change (k.natAbs : Int) = k
    omega

theorem wholePart_nearest {k : Int} (h : Holds k) : wholePart (nearestWhole k) = .ok k := by
  by_cases hk : k = 0
  · rw [hk]
    exact wholePart_nearest_zero
  · obtain ⟨s, m, e, hm, hparts, hstands, hsign⟩ := parts_nearestWhole h hk
    rw [wholePart_of_parts hparts hstands, hsign]

/-- A whole number is the whole part of the nearest double just if a double holds it. -/
theorem wholePart_nearest_iff (k : Int) : wholePart (nearestWhole k) = .ok k ↔ Holds k :=
  ⟨holds_of_wholePart, wholePart_nearest⟩

theorem wholePart_large {k : Int} (h : 400 < (Nat.toDigits 10 k.natAbs).length) :
    wholePart (nearestWhole k) = .error .overflow := by
  have hn : k.natAbs ≠ 0 := by
    intro hzero
    rw [hzero, Nat.toDigits_zero] at h
    exact absurd h (by decide)
  have hnearest : nearest k.natAbs 0 = 1.0 / 0.0 := by
    have hbeq : (k.natAbs == 0) = false := by simpa using hn
    unfold nearest
    rw [hbeq, if_neg Bool.false_ne_true, if_pos]
    omega
  unfold nearestWhole
  rw [hnearest]
  split <;> rfl

end Double

end Equilibria
