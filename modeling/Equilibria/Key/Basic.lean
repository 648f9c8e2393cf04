import Equilibria.Value.Text

/-!
# Keys

A scalar variable or residual is known by its name and its index. Keys are the same when the
names are equal and the indices the same, element by element, so `x[1,2]` is neither `x[12]`
nor `x1[2]`.
-/

namespace Equilibria

structure Key where
  name : String
  index : List Value
deriving Inhabited

namespace Key

/-- What is the same for keys that are the same, and only for them. -/
def form (k : Key) : String × List (List Mark) := (k.name, k.index.map Value.form)

instance : BEq Key := ⟨fun a b => a.form == b.form⟩

theorem beq_iff {a b : Key} : (a == b) = true ↔ a.form = b.form :=
  beq_iff_eq (a := a.form) (b := b.form)

instance : EquivBEq Key where
  rfl := beq_iff.2 rfl
  symm h := beq_iff.2 (beq_iff.1 h).symm
  trans h h' := beq_iff.2 ((beq_iff.1 h).trans (beq_iff.1 h'))

/-- `name`, or `name[i,j]` with an index. -/
def toText (k : Key) : String :=
  if k.index.isEmpty then k.name
  else k.name ++ "[" ++ ",".intercalate (k.index.map Value.toText) ++ "]"

instance : ToString Key := ⟨toText⟩

def repr (k : Key) : String := s!"ComponentKey({k.toText})"

/-- Whether a key comes before another: by its text, then by the text of its index. -/
def precedes (a b : Key) : Bool :=
  let (s, t) := (a.toText, b.toText)
  s < t || (s == t && (Value.tuple a.index).repr ≤ (Value.tuple b.index).repr)

def sorted (keys : List Key) : List Key := keys.mergeSort precedes

/-- Only keys with elements that can be looked up can be registered. -/
def isFixed (k : Key) : Bool := Value.allFixed k.index

/-! ## Keys that things are kept under -/

/-- Each key can be looked up, and no two are the same. -/
structure Proper (keys : List Key) : Prop where
  fixed : ∀ k ∈ keys, k.isFixed = true
  distinct : keys.Pairwise fun a b => (a == b) = false

theorem beq_false_symm {a b : Key} (h : (a == b) = false) : (b == a) = false := by
  rw [BEq.comm, h]

namespace Proper

theorem nil : Proper [] := ⟨by simp, .nil⟩

theorem append {a b : List Key} (ha : Proper a) (hb : Proper b)
    (h : ∀ k ∈ b, a.contains k = false) : Proper (a ++ b) := by
  refine ⟨?_, ?_⟩
  · intro k hk
    rcases List.mem_append.1 hk with hk | hk
    · exact ha.fixed k hk
    · exact hb.fixed k hk
  · refine List.pairwise_append.2 ⟨ha.distinct, hb.distinct, ?_⟩
    intro x hx y hy
    have := h y hy
    rw [List.contains_eq_any_beq, List.any_eq_false] at this
    exact beq_false_symm (by simpa using this x hx)

theorem cons {k : Key} {r : List Key} (hk : k.isFixed = true) (hr : Proper r)
    (h : ∀ a ∈ r, (a == k) = false) : Proper (k :: r) := by
  refine ⟨?_, List.pairwise_cons.2 ⟨fun a ha => beq_false_symm (h a ha), hr.distinct⟩⟩
  intro a ha
  rcases List.mem_cons.1 ha with rfl | ha
  · exact hk
  · exact hr.fixed a ha

end Proper

end Key

/-- Tuples and lists are indices as they are, nothing is the empty index, and any other value
is an index of one element. -/
def Value.toIndex : Value → List Value
  | .null => []
  | .tuple items | .list items => items
  | v => [v]

end Equilibria
