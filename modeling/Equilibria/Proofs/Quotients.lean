import Equilibria.Proofs.Doubles
import Equilibria.Value.Arithmetic

/-!
# Shares

The nearest double to the quotient of a part and its whole lies between zero and one, however large
the two numbers are.
-/

namespace Equilibria.Double

open Float.Model (Format UnpackedFloat)
open Float.Model.UnpackedFloat

/-- The mantissa and exponent of a double, normal or not. -/
structure Canonical (m : Nat) (e : Int) : Prop where
  high : m < 2 ^ 53
  least : -1074 ≤ e
  most : e ≤ 971
  full : 2 ^ 52 ≤ m ∨ e = -1074

/-! ## Packing -/

theorem unpack_pack_small {m : Nat} (hm : 0 < m) (hsmall : m < 2 ^ 52) (s : Sign) :
    unpack Format.binary64 (pack Format.binary64 (.finite s m (-1074) hm)) =
      .finite s m (-1074) hm := by
  have hlog : m.log2 < 52 := (Nat.log2_lt (Nat.ne_of_gt hm)).2 hsmall
  have htoNat : (BitVec.ofNat 52 m).toNat = m := by
    rw [BitVec.toNat_ofNat, Nat.mod_eq_of_lt hsmall]
  have hmantissa : BitVec.ofNat 52 m ≠ 0#_ := by
    intro h
    have hzero := congrArg BitVec.toNat h
    rw [htoNat] at hzero
    exact Nat.ne_of_gt hm hzero
  have hpack : pack Format.binary64 (.finite s m (-1074) hm) =
      packComponents Format.binary64 s 0#_ (BitVec.ofNat 52 m) := by
    have hbits : Format.binary64.mantissaBits = 53 := rfl
    have hbiased : (-1074 + (Format.binary64.exponentBias : Int) + (52 : Nat)).toNat = 1 := rfl
    unfold pack
    simp only [hbits, hbiased]
    rw [if_neg (by decide), if_neg (by omega)]
  rw [hpack]
  unfold unpack
  simp only [unpackMantissa_packComponents, unpackExponent_packComponents,
    unpackSign_packComponents, Sign.ofBitVec_toBitVec, hmantissa, if_true]
  rw [if_neg (by decide), dif_neg not_false, finite.injEq]
  exact ⟨rfl, htoNat, rfl⟩

theorem Canonical.unpack_pack {m : Nat} {e : Int} (h : Canonical m e) (hm : 0 < m) (s : Sign) :
    unpack Format.binary64 (pack Format.binary64 (.finite s m e hm)) = .finite s m e hm := by
  by_cases hfull : 2 ^ 52 ≤ m
  · exact Double.unpack_pack ⟨hfull, h.high, h.least, h.most⟩ s hm
  · obtain rfl := h.full.resolve_left hfull
    exact unpack_pack_small hm (by omega) s

/-! ## Rounding -/

theorem mantissa_shiftRight (em : ExtendedMantissa) (j : Nat) :
    (em >>> j).mantissa = em.mantissa / 2 ^ j := by
  change (j.repeat ExtendedMantissa.shiftRightOne em).mantissa = _
  induction j with
  | zero => rw [Nat.repeat, Nat.pow_zero, Nat.div_one]
  | succ j ih =>
    rw [Nat.repeat, Nat.pow_succ, ← Nat.div_div_eq_div_mul, ← ih]
    rfl

theorem mantissa_of (q : Nat) (rest : Accuracy) :
    (ExtendedMantissa.ofMantissaAndAccuracy q rest).mantissa = q := by
  unfold ExtendedMantissa.ofMantissaAndAccuracy
  split <;> rfl

theorem roundedMantissa_cases (em : ExtendedMantissa) :
    em.roundedMantissa = em.mantissa ∨ em.roundedMantissa = em.mantissa + 1 := by
  unfold ExtendedMantissa.roundedMantissa Accuracy.roundToNearestEven
  split
  · exact .inl rfl
  · exact .inl rfl
  · omega
  · exact .inr rfl

theorem shift_eq (q : Nat) {e : Int} (he : -1074 ≤ e) (rest : Accuracy) :
    shiftToTargetExponent Format.binary64 q e rest =
      (ExtendedMantissa.ofMantissaAndAccuracy q rest >>> (q.log2 - 52),
        e + (q.log2 - 52 : Nat)) := by
  have hamount : (max ((q.log2 : Int) + e - 52) (-1074) - e).toNat = q.log2 - 52 := by omega
  unfold shiftToTargetExponent shiftToExponent
  simp only [targetExponent_eq, hamount]

def rounded (q : Nat) (rest : Accuracy) : Nat :=
  (ExtendedMantissa.ofMantissaAndAccuracy q rest >>> (q.log2 - 52)).roundedMantissa

theorem rounded_cases (q : Nat) (rest : Accuracy) :
    rounded q rest = q / 2 ^ (q.log2 - 52) ∨ rounded q rest = q / 2 ^ (q.log2 - 52) + 1 := by
  have h := roundedMantissa_cases
    (ExtendedMantissa.ofMantissaAndAccuracy q rest >>> (q.log2 - 52))
  rwa [mantissa_shiftRight, mantissa_of] at h

theorem roundWithAccuracy_eq (q : Nat) {e : Int} (he : -1074 ≤ e) (rest : Accuracy) :
    roundWithAccuracy Format.binary64 .positive q e rest =
      let r := rounded q rest
      let j := r.log2 - 52
      if h : r / 2 ^ j = 0 then .zero .positive
      else .finite .positive (r / 2 ^ j) (e + (q.log2 - 52 : Nat) + j) (Nat.pos_of_ne_zero h) := by
  have he' : -1074 ≤ e + (q.log2 - 52 : Nat) := by omega
  unfold roundWithAccuracy
  simp only [shift_eq q he, shift_eq _ he', mantissa_shiftRight, mantissa_of]
  rfl

theorem rounded_le (q : Nat) (rest : Accuracy) : rounded q rest ≤ 2 ^ 53 := by
  have hpow : 2 ^ (q.log2 + 1) ≤ 2 ^ (53 + (q.log2 - 52)) :=
    Nat.pow_le_pow_right (by decide) (by omega)
  have hquotient : q / 2 ^ (q.log2 - 52) < 2 ^ 53 := by
    rw [Nat.div_lt_iff_lt_mul (Nat.two_pow_pos _), ← Nat.pow_add]
    exact Nat.lt_of_lt_of_le Nat.lt_log2_self hpow
  have h := rounded_cases q rest
  omega

theorem le_rounded {q : Nat} (hq : 52 ≤ q.log2) (rest : Accuracy) : 2 ^ 52 ≤ rounded q rest := by
  have hne : q ≠ 0 := by
    rintro rfl
    simp at hq
  have hsum : 52 + (q.log2 - 52) = q.log2 := by omega
  have hquotient : 2 ^ 52 ≤ q / 2 ^ (q.log2 - 52) := by
    rw [Nat.le_div_iff_mul_le (Nat.two_pow_pos _), ← Nat.pow_add, hsum]
    exact Nat.log2_self_le hne
  have h := rounded_cases q rest
  omega

theorem canonical_of_rounded {r : Nat} {e : Int} (hhigh : r ≤ 2 ^ 53) (hleast : -1074 ≤ e)
    (hmost : e < 971) (hfull : 2 ^ 52 ≤ r ∨ e = -1074) :
    Canonical (r / 2 ^ (r.log2 - 52)) (e + (r.log2 - 52 : Nat)) := by
  rcases Nat.lt_or_eq_of_le hhigh with hlt | rfl
  · have hlog : r.log2 - 52 = 0 := by
      rcases Nat.eq_zero_or_pos r with rfl | hpos
      · rfl
      · have := (Nat.log2_lt (Nat.ne_of_gt hpos)).2 hlt
        omega
    rw [hlog, Nat.pow_zero, Nat.div_one]
    exact ⟨hlt, by omega, by omega, by omega⟩
  · rw [Nat.log2_two_pow]
    exact ⟨by decide, by omega, by omega, .inl (by decide)⟩

/-! ## Shares -/

/-- A mantissa whose value is below one, or exactly one. -/
def Share (q s : Nat) (rest : Accuracy) : Prop := q < 2 ^ s ∨ q = 2 ^ s ∧ rest = .exact

theorem Share.rounded_le {q s : Nat} {rest : Accuracy} (h : Share q s rest) (hs : 52 ≤ s) :
    q.log2 - 52 ≤ s ∧ rounded q rest ≤ 2 ^ (s - (q.log2 - 52)) := by
  rcases h with hlt | ⟨rfl, rfl⟩
  · have hlog : q.log2 ≤ s := by
      rcases Nat.eq_zero_or_pos q with rfl | hpos
      · simp
      · exact Nat.le_of_lt ((Nat.log2_lt (Nat.ne_of_gt hpos)).2 hlt)
    have hshift : q.log2 - 52 ≤ s := by omega
    have hsum : s - (q.log2 - 52) + (q.log2 - 52) = s := by omega
    have hquotient : q / 2 ^ (q.log2 - 52) < 2 ^ (s - (q.log2 - 52)) := by
      rwa [Nat.div_lt_iff_lt_mul (Nat.two_pow_pos _), ← Nat.pow_add, hsum]
    have hr := rounded_cases q rest
    exact ⟨hshift, by omega⟩
  · have hexact : (ExtendedMantissa.ofMantissaAndAccuracy (2 ^ s) .exact >>> (s - 52)) =
        ⟨2 ^ 52, false, false⟩ := by
      have hpow : 2 ^ s = 2 ^ 52 * 2 ^ (s - 52) := by
        rw [← Nat.pow_add]
        congr 1
        omega
      rw [hpow]
      exact shiftRight_exact (2 ^ 52) (s - 52)
    rw [rounded, Nat.log2_two_pow, hexact]
    have hsum : s - (s - 52) = 52 := by omega
    rw [hsum]
    exact ⟨by omega, Nat.le_refl _⟩

inductive Rounds : UnpackedFloat → Prop
  | zero : Rounds (.zero .positive)
  | finite {m k : Nat} (hm : 0 < m) (canonical : Canonical m (-k)) (share : m ≤ 2 ^ k) :
    Rounds (.finite .positive m (-k) hm)

theorem Share.rounds {q s : Nat} {rest : Accuracy} (h : Share q s rest) (hs : 52 ≤ s)
    (hleast : s ≤ 1074) (hfull : 52 ≤ q.log2 ∨ s = 1074) :
    Rounds (roundWithAccuracy Format.binary64 .positive q (-s) rest) := by
  obtain ⟨hshift, hle⟩ := h.rounded_le hs
  have hhigh := Double.rounded_le q rest
  rw [roundWithAccuracy_eq q (by omega) rest]
  generalize hr : rounded q rest = r at hle hhigh
  simp only
  split
  · exact .zero
  · rename_i hne
    have hpos : r ≠ 0 := by
      rintro rfl
      exact hne (Nat.zero_div _)
    have hlog : r.log2 ≤ s - (q.log2 - 52) := by
      have hpow := Nat.le_trans (Nat.log2_self_le hpos) hle
      exact (Nat.pow_le_pow_iff_right (by decide)).1 hpow
    have hcases : 52 ≤ q.log2 ∨ -(s : Int) + (q.log2 - 52 : Nat) = -1074 := by omega
    have hcanonical := canonical_of_rounded (e := -s + (q.log2 - 52 : Nat)) hhigh (by omega)
      (by omega) (hcases.imp_left fun hq => hr ▸ le_rounded hq rest)
    obtain ⟨k, hk⟩ : ∃ k : Nat, k + (r.log2 - 52) = s - (q.log2 - 52) :=
      ⟨s - (q.log2 - 52) - (r.log2 - 52), by omega⟩
    have he : -(s : Int) + (q.log2 - 52 : Nat) + (r.log2 - 52 : Nat) = -k := by omega
    have hshare : r / 2 ^ (r.log2 - 52) ≤ 2 ^ k := by
      refine Nat.div_le_of_le_mul ?_
      rwa [← Nat.pow_add, Nat.add_comm, hk]
    simp only [he] at hcanonical ⊢
    exact .finite _ hcanonical hshare

theorem Rounds.range {u : UnpackedFloat} (h : Rounds u) :
    0 ≤ Float.ofModel (.pack u) ∧ Float.ofModel (.pack u) ≤ 1 := by
  have hzero : parts 0 = .zero .positive := rfl
  have hone : parts 1 = .finite .positive (2 ^ 52) (-52) (by decide) := rfl
  rw [le_iff, le_iff, hzero, hone]
  cases h with
  | zero => exact ⟨⟨.eq, rfl, rfl⟩, .lt, rfl, rfl⟩
  | @finite m k hm canonical share =>
    have hparts : parts (.ofModel (.pack (.finite .positive m (-k) hm))) =
      .finite .positive m (-k) hm := canonical.unpack_pack hm .positive
    rw [hparts]
    refine ⟨⟨.lt, rfl, rfl⟩, _, rfl, ?_⟩
    have hk : 52 ≤ k := by
      rcases canonical.full with hfull | hleast
      · exact (Nat.pow_le_pow_iff_right (by decide)).1 (Nat.le_trans hfull share)
      · omega
    rcases Nat.lt_or_eq_of_le hk with hlt | rfl
    · have hcompare : compare (-(k : Int)) (-52) = .lt := Int.compare_eq_lt.2 (by omega)
      rw [hcompare]
      rfl
    · have hcompare : compare (-((52 : Nat) : Int)) (-52) = .eq := rfl
      rw [hcompare]
      exact Nat.isLE_compare.2 share

def binaryPlaces (a b : Nat) : Nat := min (b.log2 - a.log2 + 53) 1074

theorem divCore_eq {a b : Nat} (h : a.log2 ≤ b.log2) :
    divCore Format.binary64 a 0 b 0 = (a * 2 ^ binaryPlaces a b / b, -(binaryPlaces a b : Int),
      accuracyOfFraction (a * 2 ^ binaryPlaces a b % b) b) := by
  have hbits : (Format.binary64.mantissaBits : Int) = 53 := rfl
  have hmin : Format.binary64.minExponent = -1074 := rfl
  have htarget : min ((0 : Int) - 0) (Format.binary64.targetExponent
      (Float.Model.totalExponent a 0 - Float.Model.totalExponent b 0)) = -binaryPlaces a b := by
    unfold Format.targetExponent Float.Model.totalExponent binaryPlaces
    rw [hbits, hmin]
    omega
  have hamount : ((0 : Int) - 0 - -binaryPlaces a b).toNat = binaryPlaces a b := by omega
  unfold divCore
  simp only [htarget, hamount, Nat.shiftLeft_eq]

theorem share_of_le {a b s : Nat} (hb : 0 < b) (h : a ≤ b) :
    Share (a * 2 ^ s / b) s (accuracyOfFraction (a * 2 ^ s % b) b) := by
  rcases Nat.lt_or_eq_of_le h with hlt | rfl
  · left
    rw [Nat.div_lt_iff_lt_mul hb, Nat.mul_comm]
    exact Nat.mul_lt_mul_of_pos_left hlt (Nat.two_pow_pos s)
  · right
    rw [Nat.mul_div_cancel_left _ hb, Nat.mul_mod_right]
    exact ⟨rfl, rfl⟩

theorem full_of_places {a b : Nat} (ha : 0 < a) (hb : 0 < b) (h : a.log2 ≤ b.log2) :
    52 ≤ (a * 2 ^ binaryPlaces a b / b).log2 ∨ binaryPlaces a b = 1074 := by
  by_cases hplaces : binaryPlaces a b = 1074
  · exact .inr hplaces
  have hs : a.log2 + binaryPlaces a b = 52 + (b.log2 + 1) := by
    unfold binaryPlaces at hplaces ⊢
    omega
  have hlow : 2 ^ 52 ≤ a * 2 ^ binaryPlaces a b / b := by
    rw [Nat.le_div_iff_mul_le hb]
    calc 2 ^ 52 * b ≤ 2 ^ 52 * 2 ^ (b.log2 + 1) :=
          Nat.mul_le_mul_left _ (Nat.le_of_lt Nat.lt_log2_self)
      _ = 2 ^ a.log2 * 2 ^ binaryPlaces a b := by rw [← Nat.pow_add, ← Nat.pow_add, hs]
      _ ≤ a * 2 ^ binaryPlaces a b :=
          Nat.mul_le_mul_right _ (Nat.log2_self_le (Nat.ne_of_gt ha))
  exact .inl ((Nat.le_log2 (by omega)).2 hlow)

theorem rounds_of_le {a b : Nat} (hb : 0 < b) (h : a ≤ b) :
    ∃ u, Rounds u ∧ quotient a b = .ofModel (.pack u) := by
  have hlog : a.log2 ≤ b.log2 := by
    rcases Nat.eq_zero_or_pos a with rfl | ha
    · simp
    · exact (Nat.le_log2 (Nat.ne_of_gt hb)).2 (Nat.le_trans (Nat.log2_self_le (by omega)) h)
  have hquotient : quotient a b = .ofModel (.pack (roundWithAccuracy Format.binary64 .positive
      (a * 2 ^ binaryPlaces a b / b) (-binaryPlaces a b)
      (accuracyOfFraction (a * 2 ^ binaryPlaces a b % b) b))) := by
    unfold quotient
    rw [divCore_eq hlog]
  have hmost : binaryPlaces a b ≤ 1074 := Nat.min_le_right ..
  refine ⟨_, ?_, hquotient⟩
  rcases Nat.eq_zero_or_pos a with rfl | ha
  · have hexact : accuracyOfFraction 0 b = .exact := rfl
    rw [Nat.zero_mul, Nat.zero_div, Nat.zero_mod, hexact, roundWithAccuracy_eq 0 (by omega)]
    exact .zero
  · have hleast : 52 ≤ binaryPlaces a b := by
      unfold binaryPlaces
      omega
    exact (share_of_le hb h).rounds hleast hmost (full_of_places ha hb hlog)

theorem quotient_range {a b : Nat} (hb : 0 < b) (h : a ≤ b) :
    0 ≤ quotient a b ∧ quotient a b ≤ 1 := by
  obtain ⟨u, hu, hq⟩ := rounds_of_le hb h
  rw [hq]
  exact hu.range

end Equilibria.Double
