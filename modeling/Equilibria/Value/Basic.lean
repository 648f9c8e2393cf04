import Equilibria.Decimal.Binary

/-!
# Values

The values that indices, set elements, bounds and options are given as. Two of them are the
same when they stand for the same thing: a whole number is the same whether it is given as a
truth value, an integer or a double, and each number that is not a number is a new one.
-/

namespace Equilibria

inductive Value where
  | null
  | bool (b : Bool)
  | int (n : Int)
  | float (x : Float)
  | nan (serial : Nat)
  | text (s : String)
  | tuple (items : List Value)
  | list (items : List Value)
  | range (start stop step : Int)
  | map (entries : List (Value × Value))
  | set (name : String) (elements : List Value) (description : String)
  /-- Anything known only by its text alone and its text inside another value. -/
  | sealed (text inside : String)

instance : Inhabited Value := ⟨.null⟩

inductive Mark where
  | null
  | number (odd : Int) (twos : Int)
  | infinity (negative : Bool)
  | nan (serial : Nat)
  | text (s : String)
  | tuple (size : Nat)
  | list (size : Nat)
  | range (size : Nat) (start step : Int)
  | map (size : Nat)
  | set (name : String) (size : Nat) (description : String)
  | sealed (inside : String)
deriving DecidableEq

namespace Mark

/-- A whole number with its factors of two apart. -/
def ofInt (n : Int) : Mark :=
  let (m, e) := Decimal.Binary.oddPart n.natAbs.log2 n.natAbs 0
  .number (if n < 0 then -(m : Int) else m) e

/-- The mark of a whole number says which number it is. -/
theorem eq_of_ofInt {n odd twos : Int} (h : ofInt n = .number odd twos) :
    n = odd * (Nat.pow 2 twos.toNat : Nat) := by
  obtain ⟨k, hk, hm⟩ := Decimal.Binary.oddPart_value n.natAbs.log2 n.natAbs 0
  simp only [ofInt, number.injEq] at h
  obtain ⟨rfl, rfl⟩ := h
  have hm : ((Decimal.Binary.oddPart n.natAbs.log2 n.natAbs 0).1 : Int) * (Nat.pow 2 k : Nat) =
      n.natAbs := by
    rw [← Int.natCast_mul, hm]
  rw [hk, Int.zero_add, Int.toNat_natCast]
  split
  · rw [Int.neg_mul, hm]
    omega
  · rw [hm]
    omega

theorem ofInt_inj {a b : Int} (h : ofInt a = ofInt b) : a = b := by
  obtain ⟨odd, twos, hb⟩ : ∃ odd twos, ofInt b = .number odd twos := ⟨_, _, rfl⟩
  rw [eq_of_ofInt hb, eq_of_ofInt (h.trans hb)]

def ofFloat (x : Float) : Mark :=
  match Decimal.Binary.ofFloat x with
  | .nan => .nan 0
  | .infinite negative => .infinity negative
  | .finite negative m e =>
    if m == 0 then ofInt 0
    else
      let (m, e) := Decimal.Binary.oddPart m.log2 m e
      .number (if negative then -(m : Int) else m) e

end Mark

/-- The number of terms from `start` to before `stop` in steps of `step`. -/
def rangeSize (start stop step : Int) : Nat :=
  if 0 < step then ((stop - start + step - 1) / step).toNat
  else if step < 0 then ((start - stop - step - 1) / (-step)).toNat
  else 0

def rangeItems (start stop step : Int) : List Int :=
  (List.range (rangeSize start stop step)).map fun (k : Nat) => start + (k : Int) * step

namespace Value

mutual

/-- The flat form of a value: equal forms make values the same. -/
def form : Value → List Mark
  | .null => [.null]
  | .bool b => [.ofInt (if b then 1 else 0)]
  | .int n => [.ofInt n]
  | .float x => [.ofFloat x]
  | .nan serial => [.nan serial]
  | .text s => [.text s]
  | .tuple items => .tuple items.length :: forms items
  | .list items => .list items.length :: forms items
  -- Ranges are the same when they have the same terms.
  | .range start stop step =>
    let n := rangeSize start stop step
    [.range n (if n = 0 then 0 else start) (if n ≤ 1 then 0 else step)]
  | .map entries => .map entries.length :: entryForms entries
  | .set name elements description => .set name elements.length description :: forms elements
  | .sealed _ inside => [.sealed inside]

def forms : List Value → List Mark
  | [] => []
  | v :: r => form v ++ forms r

def entryForms : List (Value × Value) → List Mark
  | [] => []
  | (k, v) :: r => form k ++ (form v ++ entryForms r)

end

instance : BEq Value := ⟨fun a b => a.form == b.form⟩

theorem beq_iff {a b : Value} : (a == b) = true ↔ a.form = b.form :=
  beq_iff_eq (a := a.form) (b := b.form)

instance : EquivBEq Value where
  rfl := beq_iff.2 rfl
  symm h := beq_iff.2 (beq_iff.1 h).symm
  trans h h' := beq_iff.2 ((beq_iff.1 h).trans (beq_iff.1 h'))

mutual

/-- Whether a value can be looked up: lists and maps cannot. -/
def isFixed : Value → Bool
  | .list _ | .map _ => false
  | .tuple items => allFixed items
  | _ => true

def allFixed : List Value → Bool
  | [] => true
  | v :: r => isFixed v && allFixed r

end

def kindName : Value → String
  | .null => "NoneType"
  | .bool _ => "bool"
  | .int _ => "int"
  | .float _ | .nan _ => "float"
  | .text _ => "str"
  | .tuple _ => "tuple"
  | .list _ => "list"
  | .range .. => "range"
  | .map _ => "dict"
  | .set .. => "Set"
  | .sealed .. => "datetime"

end Value

end Equilibria
