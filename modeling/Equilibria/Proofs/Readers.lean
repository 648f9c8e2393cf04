import Equilibria.Proofs.Layers
import Equilibria.Proofs.Numerals

/-!
# Reading options back

A value is written as a text and read from it. Truth values come back always. Whole numbers are
read through a double, so just those come back that a double holds.
-/

namespace Equilibria

open Decimal (nearestWhole)

namespace Options

variable {a o : Options} {m : List (Value × Value)} {name : String}

/-! ## Readers -/

theorem getInt_of_get? {k : Int} (h : o.get? name = some (toString k)) :
    o.getInt name = (wholePart (nearestWhole k)).map some := by
  have hread : doubleOfText (toString k) = .ok (nearestWhole k) := by
    unfold doubleOfText
    rw [Decimal.read?_toString]
  unfold getInt
  rw [h]
  simp only [hread, bind, Except.bind]
  cases wholePart (nearestWhole k) <;> rfl

theorem isYes_valueText (b : Bool) : isYes (valueText (.bool b)) = b := by
  cases b <;> decide

theorem getBool_of_get? {b : Bool} (h : o.get? name = some (valueText (.bool b))) (default : Bool) :
    o.getBool name default = b := by
  unfold getBool
  rw [h]
  exact isYes_valueText b

/-- What is read under a name where a value has been written. -/
structure Reads (o : Options) (name : String) (v : Value) : Prop where
  whole : ∀ k, v = .int k → (o.getInt name = .ok (some k) ↔ Double.Holds k)
  large : ∀ k, v = .int k → 400 < (Nat.toDigits 10 k.natAbs).length →
    o.getInt name = .error .overflow
  truth : ∀ b default, v = .bool b → o.getBool name default = b

structure Agree (o a : Options) (name : String) : Prop where
  text : o.get? name = a.get? name
  float : o.getFloat name = a.getFloat name
  whole : o.getInt name = a.getInt name
  truth : ∀ default, o.getBool name default = a.getBool name default

theorem reads_of_get? {v : Value} (h : o.get? name = some (valueText v)) : o.Reads name v := by
  refine ⟨?_, ?_, ?_⟩
  · rintro k rfl
    rw [getInt_of_get? h, ← Double.wholePart_nearest_iff]
    cases wholePart (nearestWhole k) with
    | ok j => simp [Except.map]
    | error err => simp [Except.map]
  · rintro k rfl hlong
    rw [getInt_of_get? h, Double.wholePart_large hlong]
    rfl
  · rintro b default rfl
    exact getBool_of_get? h default

theorem agree_of_get? (h : o.get? name = a.get? name) : o.Agree a name := by
  refine ⟨h, ?_, ?_, fun default => ?_⟩
  · unfold getFloat
    rw [h]
  · unfold getInt
    rw [h]
  · unfold getBool
    rw [h]

/-! ## Written values -/

theorem Overlaid.reads {v : Value} (h : a.Overlaid m o) (hv : lastUnder m name = some v) :
    o.Reads name v := by
  apply reads_of_get?
  rw [h.text, hv]
  rfl

theorem Overlaid.agree (h : a.Overlaid m o) (hv : lastUnder m name = none) : o.Agree a name := by
  apply agree_of_get?
  rw [h.text, hv]
  rfl

theorem overlaid_withOption (a : Options) (name : String) (v : Value) :
    ∃ o, a.withOption (.text name) v = .ok o ∧ a.Overlaid [(.text name, v)] o :=
  ⟨_, rfl, overlaid_merge a [(.text name, v)]⟩

theorem overlaid_ofEntries (m : List (Value × Value)) : empty.Overlaid m (ofEntries m) := by
  rw [ofEntries_eq_merge]
  exact overlaid_merge empty m

def overridden (m : List (Value × Value)) (keywords : List (String × Value)) :
    List (Value × Value) :=
  keywords.foldl (fun acc k => putEntry acc (.text k.1, k.2)) m

theorem ofMapping_ok {mapping : Value} (h : entriesOf mapping = .ok m)
    (keywords : List (String × Value)) :
    ofMapping mapping keywords = .ok (ofEntries (overridden m keywords)) := by
  unfold ofMapping
  rw [h]
  rfl

/-- A written truth value is read back always, and a whole number just if a double holds it. Nothing
else has changed. -/
theorem reads_of_written (a : Options) (name : String) (v : Value) :
    (∃ o, a.withOption (.text name) v = .ok o ∧ o.Reads name v ∧ ∀ n, n ≠ name → o.Agree a n) ∧
    (∀ m, lastUnder m name = some v →
      (∃ o, a.mergeValue (.map m) = .ok o ∧ o.Reads name v ∧
        ∀ n, lastUnder m n = none → o.Agree a n) ∧
      ∃ o, ofValue (.map m) = .ok o ∧ o.Reads name v ∧ (a.merge o).Reads name v ∧
        ∀ n, lastUnder m n = none → o.Agree .empty n ∧ (a.merge o).Agree a n) ∧
    ∀ mapping m keywords, entriesOf mapping = .ok m →
      lastUnder (overridden m keywords) name = some v →
      ∃ o, ofMapping mapping keywords = .ok o ∧ o.Reads name v ∧
        ∀ n, lastUnder (overridden m keywords) n = none → o.Agree .empty n := by
  refine ⟨?_, fun m hv => ⟨?_, ?_⟩, fun mapping m keywords hm hv => ?_⟩
  · obtain ⟨o, ho, h⟩ := overlaid_withOption a name v
    refine ⟨o, ho, h.reads ?_, fun n hn => h.agree ?_⟩
    · simp [lastUnder, Value.toText]
    · simp [lastUnder, Value.toText, Ne.symm hn]
  · exact ⟨_, rfl, (overlaid_merge a m).reads hv, fun n hn => (overlaid_merge a m).agree hn⟩
  · refine ⟨_, rfl, (overlaid_ofEntries m).reads hv, (overlaid_merge a m).reads hv, fun n hn => ?_⟩
    exact ⟨(overlaid_ofEntries m).agree hn, (overlaid_merge a m).agree hn⟩
  · have h := overlaid_ofEntries (overridden m keywords)
    exact ⟨_, ofMapping_ok hm keywords, h.reads hv, fun n hn => h.agree hn⟩

/-- Two keys are written alike, and the second has a large power of two. -/
theorem reads_of_sameText :
    let m : List (Value × Value) := [(.int 7, .int 1), (.text "7", .int (2 ^ 60))]
    let a : Options := ⟨[("tol", "0.1")]⟩
    lastUnder m "7" = some (.int (2 ^ 60)) ∧ lastUnder m "tol" = none ∧
    ∃ o, a.mergeValue (.map m) = .ok o ∧ o.getInt "7" = .ok (some (2 ^ 60)) ∧
      o.get? "tol" = some "0.1" := by
  intro m a
  have hlast : lastUnder m "7" = some (.int (2 ^ 60)) := rfl
  have hnone : lastUnder m "tol" = none := rfl
  obtain ⟨-, hmaps, -⟩ := reads_of_written a "7" (.int (2 ^ 60))
  obtain ⟨⟨o, ho, hreads, hagree⟩, -⟩ := hmaps m hlast
  have hholds : Double.Holds (2 ^ 60) := ⟨1, 60, by decide, by decide, rfl⟩
  exact ⟨hlast, hnone, o, ho, (hreads.whole _ rfl).2 hholds, (hagree "tol" hnone).text⟩

/-- The first whole number that no double holds comes back as the one before. -/
theorem reads_of_oddNumber : let k : Int := 2 ^ 53 + 1
    ∃ o, empty.withOption (.text "major_iteration_limit") (.int k) = .ok o ∧
      o.get? "major_iteration_limit" = some (toString k) ∧
      o.getInt "major_iteration_limit" = .ok (some (k - 1)) ∧
      o.getInt "major_iteration_limit" ≠ .ok (some k) := by
  intro k
  obtain ⟨o, ho, hover⟩ := overlaid_withOption empty "major_iteration_limit" (.int k)
  have htext : o.get? "major_iteration_limit" = some (toString k) := hover.text _
  have hbits : Decimal.Binary.ofFloat (nearestWhole k) = .finite false (2 ^ 52) 1 := by
    decide +kernel
  have hint : o.getInt "major_iteration_limit" = .ok (some (k - 1)) := by
    rw [getInt_of_get? htext]
    unfold wholePart
    rw [hbits]
    rfl
  refine ⟨o, ho, htext, hint, ?_⟩
  rw [hint]
  intro heq
  have hsame : k - 1 = k := Option.some.inj (Except.ok.inj heq)
  omega

end Options

end Equilibria
