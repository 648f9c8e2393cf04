import Mathlib
import Equilibria.Scalar
import Equilibria.Value.Number

/-!
# Doubles

Doubles that are numbers are in order. A double holds a whole number if all but 53 of its bits are
zeros at the end, and then the nearest double to the number is the number itself.
-/

namespace Equilibria

namespace Double

open Decimal (Binary)
open Float.Model (Format UnpackedFloat)

/-- What a double stands for. -/
def parts (a : Float) : UnpackedFloat := a.toModel.unpack

/-! ## Order -/

section

open Float.Model.UnpackedFloat (Sign)

theorem swap_then (e e' : Int) (m m' : Nat) :
    ((compare e e').then (compare m m')).swap = (compare e' e).then (compare m' m) := by
  rw [Ordering.swap_then, Int.compare_swap, Nat.compare_swap]

theorem compare_swap (a b : UnpackedFloat) : b.compare a = (a.compare b).map Ordering.swap := by
  rcases a with s | _ | s | ⟨s, m, e, h⟩ <;> rcases b with t | _ | t | ⟨t, m', e', h'⟩
  case finite.finite =>
    cases s <;> cases t
    · exact congrArg some (by rw [swap_then, Ordering.swap_swap])
    · rfl
    · rfl
    · exact congrArg some (swap_then e e' m m').symm
  all_goals try cases s
  all_goals try cases t
  all_goals rfl

theorem exists_compare {a b : UnpackedFloat} (ha : a.isNaN = false) (hb : b.isNaN = false) :
    ∃ o, a.compare b = some o := by
  rcases a with s | _ | s | ⟨s, m, e, h⟩ <;> rcases b with t | _ | t | ⟨t, m', e', h'⟩
  all_goals try cases ha
  all_goals try cases hb
  all_goals try cases s
  all_goals try cases t
  all_goals exact ⟨_, rfl⟩

theorem eq_of_infinity_compare {a : UnpackedFloat} {o : Ordering}
    (h : UnpackedFloat.compare (.infinity .positive) a = some o) (ho : o.isLE = true) :
    a = .infinity .positive := by
  rcases a with (_ | _) | _ | _ | _
  case infinity.positive => rfl
  all_goals
    cases h
    try cases ho

theorem eq_of_compare_neg_infinity {a : UnpackedFloat} {o : Ordering}
    (h : a.compare (.infinity .negative) = some o) (ho : o.isLE = true) :
    a = .infinity .negative := by
  rcases a with (_ | _) | _ | _ | _
  case infinity.negative => rfl
  all_goals
    cases h
    try cases ho

variable {a b : Float}

theorem lt_iff : a < b ↔ (parts a).compare (parts b) = some .lt := by
  change decide (((parts a).compare (parts b) == some .lt) = true) = true ↔ _
  rw [decide_eq_true_iff, beq_iff_eq]

theorem le_iff : a ≤ b ↔ ∃ o, (parts a).compare (parts b) = some o ∧ o.isLE = true := by
  change decide (((parts a).compare (parts b)).any (·.isLE) = true) = true ↔ _
  rw [decide_eq_true_iff, Option.any_eq_true]

theorem beq_iff : (a == b) = true ↔ (parts a).compare (parts b) = some .eq := by
  change ((parts a).compare (parts b) == some .eq) = true ↔ _
  rw [beq_iff_eq]

theorem parts_infinity : parts infinity = .infinity .positive := rfl

theorem parts_neg_infinity : parts (-infinity) = .infinity .negative := rfl

theorem finite_or_infinite (h : a.isNaN = false) :
    a.isFinite = true ∨ ∃ s, parts a = .infinity s := by
  change (parts a).isNaN = false at h
  change (parts a).isFinite = true ∨ _
  cases hp : parts a with
  | infinity s => exact .inr ⟨s, rfl⟩
  | notANumber =>
    rw [hp] at h
    cases h
  | zero s => exact .inl rfl
  | finite s m e hm => exact .inl rfl

theorem not_isFinite {s : Sign} (h : parts a = .infinity s) : a.isFinite = false := by
  change (parts a).isFinite = false
  rw [h]
  rfl

theorem not_isNaN {s : Sign} (h : parts a = .infinity s) : a.isNaN = false := by
  change (parts a).isNaN = false
  rw [h]
  rfl

theorem le_of_not_lt (ha : a.isNaN = false) (hb : b.isNaN = false) (h : ¬ b < a) : a ≤ b := by
  obtain ⟨o, ho⟩ := exists_compare (a := parts a) (b := parts b) ha hb
  have hs := compare_swap (parts a) (parts b)
  rw [ho] at hs
  rw [lt_iff, hs] at h
  cases o with
  | lt => exact le_iff.2 ⟨.lt, ho, rfl⟩
  | eq => exact le_iff.2 ⟨.eq, ho, rfl⟩
  | gt => exact absurd rfl h

theorem le_self (h : a.isNaN = false) : a ≤ a := by
  refine le_of_not_lt h h fun hlt => ?_
  have hs := compare_swap (parts a) (parts a)
  rw [lt_iff.1 hlt] at hs
  cases hs

theorem neg_infinity_le (ha : parts a = .infinity .negative) (hb : b.isNaN = false) : a ≤ b := by
  refine le_of_not_lt (not_isNaN ha) hb fun h => ?_
  rw [lt_iff, ha] at h
  rw [eq_of_compare_neg_infinity h rfl] at h
  cases h

theorem le_infinity (ha : a.isNaN = false) (hb : parts b = .infinity .positive) : a ≤ b := by
  refine le_of_not_lt ha (not_isNaN hb) fun h => ?_
  rw [lt_iff, hb] at h
  rw [eq_of_infinity_compare h rfl] at h
  cases h

theorem eq_infinity_of_le (ha : parts a = .infinity .positive) (h : a ≤ b) :
    parts b = .infinity .positive := by
  obtain ⟨o, ho, hle⟩ := le_iff.1 h
  rw [ha] at ho
  exact eq_of_infinity_compare ho hle

theorem eq_neg_infinity_of_le (hb : parts b = .infinity .negative) (h : a ≤ b) :
    parts a = .infinity .negative := by
  obtain ⟨o, ho, hle⟩ := le_iff.1 h
  rw [hb] at ho
  exact eq_of_compare_neg_infinity ho hle

theorem beq_of_infinite {s : Sign} (ha : parts a = .infinity s) (hb : parts b = .infinity s) :
    (a == b) = true := by
  rw [beq_iff, ha, hb]
  cases s <;> rfl

theorem ge_of_beq (h : (a == b) = true) : b ≤ a := by
  have hs := compare_swap (parts a) (parts b)
  rw [beq_iff.1 h] at hs
  exact le_iff.2 ⟨.eq, hs, rfl⟩

end

open Float.Model.UnpackedFloat

/-! ## Bits -/

/-- The mantissa has 53 bits, and the exponent is that of a normal double. -/
structure Normal (m : Nat) (e : Int) : Prop where
  low : 2 ^ 52 ≤ m
  high : m < 2 ^ 53
  least : -1074 ≤ e
  most : e ≤ 971

def toBinary : UnpackedFloat → Binary
  | .infinity s => .infinite (s == .negative)
  | .notANumber => .nan
  | .zero s => .finite (s == .negative) 0 (-1074)
  | .finite s m e _ => .finite (s == .negative) m e

theorem toNat_unpackMantissa (b : BitVec 64) :
    (@unpackMantissa Format.binary64 b).toNat = b.toNat % 2 ^ 52 := by
  simp [unpackMantissa_def]

theorem toNat_unpackExponent (b : BitVec 64) :
    (@unpackExponent Format.binary64 b).toNat = b.toNat / 2 ^ 52 % 2048 := by
  simp [unpackExponent_def, Nat.shiftRight_eq_div_pow]

theorem toNat_unpackSign (b : BitVec 64) :
    (@unpackSign Format.binary64 b).toNat = b.toNat / 2 ^ 63 % 2 := by
  simp [unpackSign_def, Nat.shiftRight_eq_div_pow]

theorem ofBitVec_eq_negative (v : BitVec 1) : (Sign.ofBitVec v == .negative) = (v.toNat == 1) := by
  revert v
  decide

theorem toNat_one_append (v : BitVec 52) : (1#1 ++ v).toNat = 2 ^ 52 + v.toNat := by
  rw [BitVec.toNat_append, ← Nat.shiftLeft_add_eq_or_of_lt v.isLt]
  rfl

theorem hidden_eq : Binary.hidden = 2 ^ 52 := rfl

/-- The exact value of a double is that of its parts. -/
theorem ofBits_eq (b : BitVec 64) :
    Binary.ofBits b.toNat = toBinary (unpack Format.binary64 b) := by
  have hm := toNat_unpackMantissa b
  have he := toNat_unpackExponent b
  have hs := toNat_unpackSign b
  have hsign : (b.toNat / 2 ^ 63 % 2 == 1) =
      (Sign.ofBitVec (@unpackSign Format.binary64 b) == .negative) := by
    rw [ofBitVec_eq_negative, hs]
  have hones : @unpackExponent Format.binary64 b = -1#_ ↔
      b.toNat / 2 ^ 52 % 2048 = 2047 := by
    rw [← BitVec.toNat_inj, he]
    rfl
  have hzeros : @unpackExponent Format.binary64 b = 0#_ ↔
      b.toNat / 2 ^ 52 % 2048 = 0 := by
    rw [← BitVec.toNat_inj, he]
    rfl
  have hfraction : @unpackMantissa Format.binary64 b = 0#_ ↔ b.toNat % 2 ^ 52 = 0 := by
    rw [← BitVec.toNat_inj, hm]
    rfl
  have hbias : ((Format.binary64.exponentBias : Int) + (52 : Nat)) = 1075 := rfl
  unfold Binary.ofBits unpack
  simp only [hidden_eq, hones, hzeros, hfraction, beq_iff_eq, Nat.pow_eq, hsign]
  split
  · split <;> rfl
  · split
    · rename_i hfield
      split
      · rename_i h
        rw [h]
        rfl
      · simp only [toBinary, hm, he, hbias, hfield]
        rfl
    · simp only [toBinary, toNat_one_append, hm, he, hbias]

theorem ofFloat_eq (x : Float) : Binary.ofFloat x = toBinary (parts x) :=
  ofBits_eq x.toModel.toBits.toBitVec

theorem Normal.log2 {m : Nat} {e : Int} (h : Normal m e) : m.log2 = 52 := by
  have hm := h.low
  rw [Nat.log2_eq_iff (by omega)]
  exact ⟨h.low, h.high⟩

theorem unpack_pack {m : Nat} {e : Int} (h : Normal m e) (s : Sign) (hm : 0 < m) :
    unpack Format.binary64 (pack Format.binary64 (.finite s m e hm)) = .finite s m e hm := by
  have hbias : Format.binary64.exponentBias = 1023 := rfl
  have hleast := h.least
  have hmost := h.most
  obtain ⟨field, hfield⟩ : ∃ field : Nat, e + 1075 = field := ⟨(e + 1075).toNat, by omega⟩
  have hbiased : (e + (1023 : Nat) + (52 : Nat)).toNat = field := by omega
  have hpack : pack Format.binary64 (.finite s m e hm) =
      packComponents Format.binary64 s (BitVec.ofNat 11 field) (BitVec.ofNat 52 m) := by
    unfold pack
    simp only [hbias, hbiased]
    rw [if_neg (by omega), if_pos]
    rw [h.log2]
    rfl
  have htoNat : (BitVec.ofNat 11 field).toNat = field := by
    rw [BitVec.toNat_ofNat, Nat.mod_eq_of_lt (by omega)]
  have hones : BitVec.ofNat 11 field ≠ -1#_ := by
    intro heq
    have hmost : field = 2047 := htoNat.symm.trans (congrArg BitVec.toNat heq)
    omega
  have hzeros : BitVec.ofNat 11 field ≠ 0#_ := by
    intro heq
    have hleast : field = 0 := htoNat.symm.trans (congrArg BitVec.toNat heq)
    omega
  have hmantissa : (1#1 ++ BitVec.ofNat 52 m).toNat = m := by
    have hm := h.low
    have hm' := h.high
    rw [toNat_one_append, BitVec.toNat_ofNat]
    omega
  rw [hpack]
  unfold unpack
  simp only [unpackMantissa_packComponents, unpackExponent_packComponents,
    unpackSign_packComponents, Sign.ofBitVec_toBitVec, hones, hzeros, if_false, hmantissa, htoNat,
    hbias]
  rw [finite.injEq]
  refine ⟨rfl, rfl, ?_⟩
  omega

/-! ## Rounding -/

theorem shiftRight_exact (m j : Nat) :
    (⟨m * 2 ^ j, false, false⟩ : ExtendedMantissa) >>> j = ⟨m, false, false⟩ := by
  change j.repeat ExtendedMantissa.shiftRightOne _ = _
  induction j generalizing m with
  | zero => simp [Nat.repeat]
  | succ j ih =>
    have htwice : m * 2 ^ (j + 1) = m * 2 * 2 ^ j := by
      rw [Nat.pow_succ, Nat.mul_comm (2 ^ j), Nat.mul_assoc]
    rw [Nat.repeat, htwice, ih]
    simp [ExtendedMantissa.shiftRightOne]

theorem log2_mul_pow {m : Nat} (hm : m ≠ 0) (j : Nat) : (m * 2 ^ j).log2 = m.log2 + j := by
  have hlow := Nat.log2_self_le hm
  have hhigh := @Nat.lt_log2_self m
  have hne : m * 2 ^ j ≠ 0 := Nat.mul_ne_zero hm (Nat.ne_of_gt (Nat.two_pow_pos j))
  rw [Nat.log2_eq_iff hne]
  constructor
  · rw [Nat.pow_add]
    exact Nat.mul_le_mul_right _ hlow
  · rw [Nat.add_right_comm, Nat.pow_add]
    exact Nat.mul_lt_mul_of_pos_right hhigh (Nat.two_pow_pos j)

theorem targetExponent_eq (m : Nat) (e : Int) :
    Format.binary64.targetExponent (Float.Model.totalExponent m e) =
      max (m.log2 + e - 52) (-1074) := by
  have hbits : (Format.binary64.mantissaBits : Int) = 53 := rfl
  have hmin : Format.binary64.minExponent = -1074 := rfl
  unfold Format.targetExponent Float.Model.totalExponent
  rw [hbits, hmin]
  omega

theorem Normal.pos {m : Nat} {e : Int} (h : Normal m e) : 0 < m := by
  have := h.low
  omega

theorem Normal.shift {m : Nat} {e : Int} (h : Normal m e) (j : Nat) :
    shiftToTargetExponent Format.binary64 (m * 2 ^ j) (e - j) .exact =
      (⟨m, false, false⟩, e) := by
  have htarget : Format.binary64.targetExponent
      (Float.Model.totalExponent (m * 2 ^ j) (e - j)) = e := by
    have hleast := h.least
    rw [targetExponent_eq, log2_mul_pow (Nat.ne_of_gt h.pos), h.log2]
    omega
  unfold shiftToTargetExponent shiftToExponent
  have hamount : (e - (e - j)).toNat = j := by omega
  simp only [htarget, hamount]
  refine Prod.ext (shiftRight_exact m j) ?_
  simp

theorem Normal.round {m : Nat} {e : Int} (h : Normal m e) (s : Sign) (j : Nat) :
    roundWithAccuracy Format.binary64 s (m * 2 ^ j) (e - j) .exact = .finite s m e h.pos := by
  have hmantissa : (⟨m, false, false⟩ : ExtendedMantissa).roundedMantissa = m := rfl
  have hagain := h.shift 0
  rw [Nat.pow_zero, Nat.mul_one, Int.natCast_zero, Int.sub_zero] at hagain
  unfold roundWithAccuracy
  simp only [h.shift j, hmantissa, hagain]
  rw [dif_neg (Nat.ne_of_gt h.pos)]

/-! ## Whole numbers -/

/-- A whole number of at most 53 bits with zeros behind them, in the range of doubles. -/
def Holds (k : Int) : Prop := ∃ m e : Nat, m < 2 ^ 53 ∧ e ≤ 971 ∧ k.natAbs = m * 2 ^ e

/-- The number `n` is `m · 2 ^ e`. -/
def Stands (n m : Nat) (e : Int) : Prop := m * 2 ^ e.toNat = n * 2 ^ (-e).toNat

theorem normal_of_log2 {m : Nat} {e : Int} (hm : m ≠ 0) (hlog : m.log2 = 52)
    (hleast : -1074 ≤ e) (hmost : e ≤ 971) : Normal m e := by
  obtain ⟨hlow, hhigh⟩ := (Nat.log2_eq_iff hm).1 hlog
  exact ⟨hlow, hhigh, hleast, hmost⟩

theorem exists_normal {n m e : Nat} (hn : n = m * 2 ^ e) (hm : m ≠ 0) (hm' : m < 2 ^ 53)
    (he : e ≤ 971) : ∃ m e, Normal m e ∧ Stands n m e := by
  have hlog : m.log2 < 53 := (Nat.log2_lt hm).2 hm'
  obtain ⟨j, hj⟩ : ∃ j, m.log2 + j = 52 := ⟨52 - m.log2, by omega⟩
  refine ⟨m * 2 ^ j, (e : Int) - j, normal_of_log2 ?_ ?_ (by omega) (by omega), ?_⟩
  · exact Nat.mul_ne_zero hm (Nat.ne_of_gt (Nat.two_pow_pos j))
  · rw [log2_mul_pow hm, hj]
  · have hsum : j + ((e : Int) - j).toNat = e + (-((e : Int) - j)).toNat := by omega
    unfold Stands
    rw [hn, Nat.mul_assoc, Nat.mul_assoc, ← Nat.pow_add, ← Nat.pow_add, hsum]

theorem parts_pack {m : Nat} {e : Int} (h : Normal m e) (s : Sign) :
    parts (.ofModel (.pack (.finite s m e h.pos))) = .finite s m e h.pos := unpack_pack h s h.pos

theorem parts_neg {m : Nat} {e : Int} {x : Float} {s : Sign} (h : Normal m e)
    (hx : parts x = .finite s m e h.pos) : parts (-x) = .finite (-s) m e h.pos := by
  have hneg : parts (-x) = parts (.ofModel (.pack (parts x).neg)) := rfl
  rw [hneg, hx]
  exact parts_pack h (-s)

theorem parts_mul_one {m : Nat} {e : Int} {x y : Float} (h : Normal m e)
    (hx : parts x = .finite .positive m e h.pos)
    (hy : parts y = .finite .positive (2 ^ 52) (-52) (by decide)) :
    parts (x * y) = .finite .positive m e h.pos := by
  have hmul : parts (x * y) =
      parts (.ofModel (.pack (UnpackedFloat.mul Format.binary64 (parts x) (parts y)))) := rfl
  have hsub : e + -52 = e - (52 : Nat) := by omega
  rw [hmul, hx, hy]
  unfold UnpackedFloat.mul
  simp only [hsub]
  rw [h.round]
  exact parts_pack h .positive

theorem Stands.ne_zero {n m : Nat} {e : Int} (hs : Stands n m e) (h : Normal m e) : n ≠ 0 := by
  rintro rfl
  rw [Stands, Nat.zero_mul] at hs
  have hpos := Nat.mul_pos h.pos (Nat.two_pow_pos e.toNat)
  omega

theorem Stands.exponent_nonpos {n m : Nat} {e : Int} (hs : Stands n m e) (h : Normal m e)
    (hn : n < 2 ^ 53) : e ≤ 0 := by
  by_cases he : e ≤ 0
  · exact he
  · have hneg : (-e).toNat = 0 := by omega
    have hlow := h.low
    unfold Stands at hs
    obtain ⟨i, hi⟩ : ∃ i, e.toNat = i + 1 := ⟨e.toNat - 1, by omega⟩
    have hpos := Nat.two_pow_pos i
    rw [hneg, hi, Nat.pow_zero, Nat.mul_one, Nat.pow_succ] at hs
    have hle : m * 2 ≤ m * (2 ^ i * 2) := Nat.mul_le_mul_left m (by omega)
    omega

theorem Stands.round {n m : Nat} {e : Int} (hs : Stands n m e) (h : Normal m e) (hn : n < 2 ^ 53) :
    UnpackedFloat.round Format.binary64 .positive n 0 = .finite .positive m e h.pos := by
  have he := hs.exponent_nonpos h hn
  have hn0 := hs.ne_zero h
  obtain ⟨k, rfl⟩ : ∃ k : Nat, e = -k := ⟨(-e).toNat, by omega⟩
  have hm : n * 2 ^ k = m := by
    have hplus : (-(k : Int)).toNat = 0 := by omega
    have hminus : (-(-(k : Int))).toNat = k := by omega
    rw [Stands, hplus, hminus] at hs
    omega
  have hlog : n.log2 + k = 52 := by rw [← log2_mul_pow hn0, hm, h.log2]
  have htarget : Format.binary64.targetExponent (Float.Model.totalExponent n 0) = -k := by
    rw [targetExponent_eq]
    omega
  have hdecrease : decreaseExponent n 0 (-k) = (m * 2 ^ 0, -(k : Int) - (0 : Nat)) := by
    have hamount : ((0 : Int) - -(k : Int)).toNat = k := by omega
    unfold decreaseExponent
    simp only [hamount, Nat.shiftLeft_eq, hm]
    refine Prod.ext (Nat.mul_one m).symm ?_
    simp
  unfold UnpackedFloat.round
  simp only [htarget, hdecrease]
  exact h.round .positive 0

theorem parts_toFloat {n m : Nat} {e : Int} (h : Normal m e) (hs : Stands n m e) (hn : n < 2 ^ 53) :
    parts n.toUInt64.toFloat = .finite .positive m e h.pos := by
  have hsize : n.toUInt64.toNat = n := by
    rw [UInt64.toNat_ofNat']
    omega
  have hparts : parts n.toUInt64.toFloat =
      parts (.ofModel (.pack (UnpackedFloat.ofNat Format.binary64 n.toUInt64.toNat))) := rfl
  have hcompare : compare (n : Int) 0 = .gt := by
    have hn0 := hs.ne_zero h
    rw [Int.compare_eq_gt]
    omega
  rw [hparts, hsize]
  unfold UnpackedFloat.ofNat UnpackedFloat.ofInt UnpackedFloat.normalize
  simp only [hcompare, Int.toNat_natCast, hs.round h hn]
  exact parts_pack h .positive

theorem parts_one : parts (Float.ofBits 0x3FF0000000000000) =
    .finite .positive (2 ^ 52) (-52) (by decide) := by
  rfl

theorem Stands.ofScientific {n m : Nat} {e : Int} (hs : Stands n m e) (h : Normal m e)
    (hn : 2 ^ 53 ≤ n) :
    UnpackedFloat.ofScientific Format.binary64 n 0 = .finite .positive m e h.pos := by
  have hn0 := hs.ne_zero h
  have he : 0 ≤ e := by
    by_cases he : 0 ≤ e
    · exact he
    · have hplus : e.toNat = 0 := by omega
      have hle := Nat.mul_le_mul_left n (Nat.two_pow_pos (-e).toNat)
      have hhigh := h.high
      rw [Stands, hplus, Nat.pow_zero, Nat.mul_one] at hs
      omega
  obtain ⟨k, rfl⟩ : ∃ k : Nat, e = k := ⟨e.toNat, by omega⟩
  have hshift : n <<< Format.binary64.mantissaBits * 10 ^ (0 : Int).toNat = m * 2 ^ (k + 53) := by
    have hminus : (-(k : Int)).toNat = 0 := by omega
    have hbits : Format.binary64.mantissaBits = 53 := rfl
    rw [Stands, hminus, Int.toNat_natCast, Nat.pow_zero, Nat.mul_one] at hs
    rw [hbits, Nat.shiftLeft_eq, ← hs, Int.toNat_zero, Nat.pow_zero, Nat.mul_one, Nat.pow_add,
      Nat.mul_assoc]
  have hexponent : -(Format.binary64.mantissaBits : Int) + 0 = (k : Int) - (k + 53 : Nat) := by
    have hbits : Format.binary64.mantissaBits = 53 := rfl
    rw [hbits]
    omega
  have hrange : (0 : Int) < 2 ^ Format.binary64.exponentBits := by decide
  unfold UnpackedFloat.ofScientific
  rw [dif_neg hn0, if_neg (by decide), if_neg (by omega), if_pos (by decide)]
  unfold UnpackedFloat.mul
  simp only [hshift, hexponent]
  exact h.round .positive (k + 53)

theorem parts_ofScientific {n m : Nat} {e : Int} (h : Normal m e) (hs : Stands n m e) :
    parts (Float.ofScientific n false 0) = .finite .positive m e h.pos := by
  unfold Float.ofScientific
  split
  · rename_i hn
    exact parts_mul_one h (parts_toFloat h hs hn.1) parts_one
  · rename_i hn
    have hle : 2 ^ 53 ≤ n := by omega
    change parts (.ofModel (.pack (UnpackedFloat.ofScientific Format.binary64 n 0))) = _
    rw [hs.ofScientific h hle]
    exact parts_pack h .positive

theorem wholePart_of_parts {x : Float} {s : Sign} {n m : Nat} {e : Int} {hm : 0 < m}
    (hx : parts x = .finite s m e hm) (hs : Stands n m e) :
    wholePart x = .ok (s.apply n) := by
  have hquotient : m * Nat.pow 2 e.toNat / Nat.pow 2 (-e).toNat = n := by
    rw [Nat.pow_eq, Nat.pow_eq, show m * 2 ^ e.toNat = n * 2 ^ (-e).toNat from hs]
    exact Nat.mul_div_cancel n (Nat.two_pow_pos _)
  unfold wholePart
  rw [ofFloat_eq, hx]
  simp only [toBinary, hquotient]
  cases s <;> rfl

theorem range_of_ofBits {b : Nat} {negative : Bool} {m : Nat} {e : Int}
    (h : Binary.ofBits b = .finite negative m e) : m < 2 ^ 53 ∧ e ≤ 971 := by
  have hfraction := Nat.mod_lt b (Nat.two_pow_pos 52)
  have hfield := Nat.mod_lt (b / 2 ^ 52) (y := 2048) (by decide)
  unfold Binary.ofBits at h
  simp only [hidden_eq, beq_iff_eq] at h
  split at h
  · split at h <;> cases h
  · split at h
    · cases h
      omega
    · cases h
      omega

theorem holds_of_wholePart {x : Float} {k : Int} (h : wholePart x = .ok k) : Holds k := by
  unfold wholePart at h
  split at h
  · cases h
  · cases h
  · rename_i negative m e hx
    obtain ⟨hm, he⟩ := range_of_ofBits hx
    have hsize : k.natAbs = m * 2 ^ e.toNat / 2 ^ (-e).toNat := by
      rw [← Except.ok.inj h, Nat.pow_eq, Nat.pow_eq]
      split
      · exact Int.natAbs_neg _
      · rfl
    by_cases hpos : 0 ≤ e
    · have hminus : (-e).toNat = 0 := by omega
      rw [hminus, Nat.pow_zero, Nat.div_one] at hsize
      exact ⟨m, e.toNat, hm, by omega, hsize⟩
    · have hplus : e.toNat = 0 := by omega
      rw [hplus, Nat.pow_zero, Nat.mul_one] at hsize
      have hle := Nat.div_le_self m (2 ^ (-e).toNat)
      exact ⟨k.natAbs, 0, by omega, by omega, by rw [Nat.pow_zero, Nat.mul_one]⟩

end Double

end Equilibria
