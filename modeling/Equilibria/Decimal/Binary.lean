/-!
# Binary numbers

A double is not a number, infinite, or a signed `mantissa · 2 ^ exponent`. Everything that
needs the exact value of a double goes through this form.
-/

namespace Equilibria.Decimal

inductive Binary where
  | nan
  | infinite (negative : Bool)
  | finite (negative : Bool) (mantissa : Nat) (exponent : Int)
deriving DecidableEq, Repr

namespace Binary

/-- The mantissa of a normal double has 53 bits, the first of them not stored. -/
def hidden : Nat := Nat.pow 2 52

def ofBits (bits : Nat) : Binary :=
  let negative := bits / Nat.pow 2 63 % 2 == 1
  let field : Nat := bits / hidden % 2048
  let fraction : Nat := bits % hidden
  if field == 2047 then
    if fraction == 0 then .infinite negative else .nan
  else if field == 0 then .finite negative fraction (-1074)
  else .finite negative (hidden + fraction) ((field : Int) - 1075)

def ofFloat (x : Float) : Binary := ofBits x.toBits.toNat

/-- Moves the factors of two from the mantissa to the exponent, so that each value has one
form. The fuel bounds the number of halvings; a mantissa of a double has at most 53. -/
def oddPart (fuel mantissa : Nat) (exponent : Int) : Nat × Int :=
  match fuel with
  | 0 => (mantissa, exponent)
  | fuel + 1 =>
    if mantissa % 2 == 0 && mantissa != 0 then oddPart fuel (mantissa / 2) (exponent + 1)
    else (mantissa, exponent)

/-- The factors of two are moved and not lost. -/
theorem oddPart_value (fuel mantissa : Nat) (exponent : Int) :
    ∃ twos : Nat, (oddPart fuel mantissa exponent).2 = exponent + twos ∧
      (oddPart fuel mantissa exponent).1 * Nat.pow 2 twos = mantissa := by
  induction fuel generalizing mantissa exponent with
  | zero => exact ⟨0, by simp [oddPart]⟩
  | succ fuel ih =>
    rw [oddPart]
    split
    · rename_i h
      obtain ⟨twos, he, hm⟩ := ih (mantissa / 2) (exponent + 1)
      simp only [Bool.and_eq_true, beq_iff_eq] at h
      refine ⟨twos + 1, by omega, ?_⟩
      rw [Nat.pow_eq, Nat.pow_succ, ← Nat.pow_eq, ← Nat.mul_assoc, hm]
      omega
    · exact ⟨0, by simp⟩

end Binary

/-- The exponent `k` with `10 ^ k ≤ num / den < 10 ^ (k + 1)`, for positive `num` and `den`. -/
def floorLog10 (num den : Nat) : Int :=
  let places (n : Nat) : Nat := (Nat.toDigits 10 n).length
  if den ≤ num then (places (num / den) : Int) - 1
  else -(places ((den + num - 1) / num - 1) : Int)

end Equilibria.Decimal
