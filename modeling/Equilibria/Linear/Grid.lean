import Equilibria.Fallible
import Equilibria.Value.Number

/-!
# Grids

Numbers in a rectangular arrangement of any number of dimensions, as nested values give them.
-/

namespace Equilibria

def entryCount : List Nat → Nat
  | [] => 1
  | n :: r => n * entryCount r

/-- The entries are listed with the last dimension fastest, and are as many as the shape says. -/
structure Grid (α : Type) where
  shape : List Nat
  data : List α
  fits : data.length = entryCount shape

open Fallible

namespace Grid

variable {α : Type}

def vector (xs : List α) : Grid α := ⟨[xs.length], xs, by simp [entryCount]⟩

/-- The entries of a grid of one dimension are as many as that says. -/
theorem length_of_shape {g : Grid α} {n : Nat} (h : g.shape = [n]) : g.data.length = n := by
  simp [g.fits, h, entryCount]

mutual

/-- The shape of a nested value. Values of different shapes cannot stand side by side. -/
def shapeOf : Value → Except Error (List Nat)
  | .list items | .tuple items => do return items.length :: (← commonShape items)
  | .range a b s => .ok [rangeSize a b s]
  | _ => .ok []

def commonShape : List Value → Except Error (List Nat)
  | [] => .ok []
  | [v] => shapeOf v
  | v :: r => do
    let s ← shapeOf v
    let t ← commonShape r
    if s == t then return s else throw .unlikeShapes

end

/-- An entry. Nothing stands for a number that is missing. -/
def entryOf : Value → Except Error Float
  | .null => .ok notANumber
  | v => v.toDouble

mutual

def entriesOf : Value → Except Error (List Float)
  | .list items | .tuple items => allEntriesOf items
  | .range a b s => (rangeItems a b s).mapM doubleOfInt
  | v => do return [← entryOf v]

def allEntriesOf : List Value → Except Error (List Float)
  | [] => .ok []
  | v :: r => do
    let xs ← entriesOf v
    let ys ← allEntriesOf r
    return xs ++ ys

end

mutual

/-- A nested value has as many entries as its shape says. -/
theorem length_entriesOf : ∀ {v : Value} {shape : List Nat} {data : List Float},
    shapeOf v = .ok shape → entriesOf v = .ok data → data.length = entryCount shape
  | .list items, _, _, hs, hd | .tuple items, _, _, hs, hd => by
    simp only [shapeOf] at hs
    simp only [entriesOf] at hd
    obtain ⟨s, hc, hr⟩ := bind_eq_ok.1 hs
    cases hr
    rw [entryCount]
    exact length_allEntriesOf hc hd
  | .range a b s, _, _, hs, hd => by
    simp only [shapeOf] at hs
    simp only [entriesOf] at hd
    cases hs
    rw [length_of_mapM hd]
    simp [rangeItems, entryCount]
  | .null, _, _, hs, hd | .bool _, _, _, hs, hd | .int _, _, _, hs, hd | .float _, _, _, hs, hd
  | .nan _, _, _, hs, hd | .text _, _, _, hs, hd | .map _, _, _, hs, hd
  | .set .., _, _, hs, hd | .sealed .., _, _, hs, hd => by
    simp only [shapeOf] at hs
    simp only [entriesOf] at hd
    obtain ⟨x, -, hx⟩ := bind_eq_ok.1 hd
    cases hs
    cases hx
    rfl

theorem length_allEntriesOf : ∀ {items : List Value} {shape : List Nat} {data : List Float},
    commonShape items = .ok shape → allEntriesOf items = .ok data →
      data.length = items.length * entryCount shape
  | [], _, _, hs, hd => by cases hd; simp
  | [v], _, _, hs, hd => by
    simp only [commonShape] at hs
    rw [allEntriesOf] at hd
    obtain ⟨xs, hx, hd⟩ := bind_eq_ok.1 hd
    cases hd
    simp [length_entriesOf hs hx]
  | v :: w :: r, _, _, hs, hd => by
    simp only [commonShape] at hs
    rw [allEntriesOf] at hd
    obtain ⟨xs, hx, hd⟩ := bind_eq_ok.1 hd
    obtain ⟨ys, hy, hd⟩ := bind_eq_ok.1 hd
    obtain ⟨s, hv, hs⟩ := bind_eq_ok.1 hs
    obtain ⟨t, hr, hs⟩ := bind_eq_ok.1 hs
    split at hs
    · rename_i hst
      cases hd
      cases hs
      have hst := eq_of_beq hst
      subst hst
      rw [List.length_append, length_entriesOf hv hx, length_allEntriesOf hr hy,
        List.length_cons (a := v), Nat.succ_mul, Nat.add_comm]
    · cases hs

end

def ofValue (v : Value) : Except Error (Grid Float) :=
  match hs : shapeOf v, hd : entriesOf v with
  | .ok shape, .ok data => .ok ⟨shape, data, length_entriesOf hs hd⟩
  | .error e, _ | _, .error e => .error e

def rows (g : Grid α) : List (List α) :=
  match g.shape with
  | [m, n] => (List.range m).map fun i => (g.data.drop (i * n)).take n
  | _ => []

def map {β : Type} (f : α → β) (g : Grid α) : Grid β where
  shape := g.shape
  data := g.data.map f
  fits := by rw [List.length_map, g.fits]

end Grid

end Equilibria
