import Equilibria.Variable.Basic

/-!
# Registries

The variables of a model in the order in which they were registered, each under the key that it
had then. A variable is referred to by its place, which it keeps.
-/

namespace Equilibria

structure Registry (α : Type) where
  entries : List (Key × Variable α)
  proper : Key.Proper (entries.map (·.1))

namespace Registry

variable {α : Type}

def empty : Registry α := ⟨[], .nil⟩

def keys (r : Registry α) : List Key := r.entries.map (·.1)

theorem proper_keys (r : Registry α) : Key.Proper r.keys := r.proper

def vars (r : Registry α) : List (Variable α) := r.entries.map (·.2)

def size (r : Registry α) : Nat := r.entries.length

/-- Only keys of fixed values can be looked up. -/
def position? (r : Registry α) (key : Key) : Except Error (Option Nat) :=
  if key.isFixed then .ok (r.keys.findIdx? (· == key)) else .error .wrongType

def contains (r : Registry α) (key : Key) : Except Error Bool := do
  return (← r.position? key).isSome

def position (r : Registry α) (key : Key) : Except Error Nat := do
  match ← r.position? key with
  | some i => return i
  | none => throw (.variableMissing key)

def at? (r : Registry α) (i : Nat) : Option (Variable α) := r.vars[i]?

def get (r : Registry α) (key : Key) : Except Error (Variable α) := do
  match r.at? (← r.position key) with
  | some v => return v
  | none => throw (.variableMissing key)

/-! ## Registering -/

/-- The first key that is registered already or occurs earlier in the batch. -/
def firstTaken? : List Key → List Key → Except Error (Option Key)
  | _, [] => .ok none
  | taken, k :: r =>
    if !k.isFixed then .error .wrongType
    else if taken.contains k then .ok (some k)
    else firstTaken? (k :: taken) r

/-- A batch of keys none of which is taken can join those that are. -/
theorem proper_of_firstTaken? {taken batch : List Key}
    (h : firstTaken? taken batch = .ok none) :
    Key.Proper batch ∧ ∀ k ∈ batch, taken.contains k = false := by
  induction batch generalizing taken with
  | nil => exact ⟨.nil, by simp⟩
  | cons k r ih =>
    rw [firstTaken?] at h
    split at h
    · cases h
    · rename_i hk
      split at h
      · cases h
      · rename_i hn
        obtain ⟨hr, hfree⟩ := ih h
        simp only [List.contains_cons, Bool.or_eq_false_iff] at hfree
        refine ⟨.cons (by simpa using hk) hr fun a ha => (hfree a ha).1, ?_⟩
        intro a ha
        rcases List.mem_cons.1 ha with rfl | ha
        · simpa using hn
        · exact (hfree a ha).2

def extend (r : Registry α) (batch : List (Variable α))
    (h : firstTaken? r.keys (batch.map (·.key)) = .ok none) : Registry α where
  entries := r.entries ++ batch.map fun v => (v.key, v)
  proper := by
    obtain ⟨hb, hfree⟩ := proper_of_firstTaken? h
    rw [List.map_append, List.map_map]
    exact r.proper.append hb hfree

/-- Registers a batch of variables, all or none. -/
def addAll (r : Registry α) (batch : List (Variable α)) : Except Error (Registry α) :=
  match h : firstTaken? r.keys (batch.map (·.key)) with
  | .ok none => .ok (r.extend batch h)
  | .ok (some k) => .error (.duplicateVariable k)
  | .error e => .error e

variable [Scalar α]

def add (r : Registry α) (key : Key) (f : Variable.Fields) : Except Error (Registry α) := do
  if ← r.contains key then throw (.duplicateVariable key)
  r.addAll [← Variable.make key f]

/-! ## Changing -/

/-- Changes the variable at a place, not the key that it is registered under. -/
def modify (r : Registry α) (i : Nat) (f : Variable α → Variable α) : Registry α where
  entries := r.entries.modify i fun e => (e.1, f e.2)
  proper := by
    have h : (r.entries.modify i fun e => (e.1, f e.2)).map (·.1) = r.entries.map (·.1) := by
      apply List.ext_getElem?
      intro j
      rw [List.getElem?_map, List.getElem?_modify, List.getElem?_map]
      cases r.entries[j]? <;> simp [apply_ite]
    rw [h]
    exact r.proper

def put (r : Registry α) (i : Nat) (v : Variable α) : Registry α := r.modify i fun _ => v

def action (v : Variable α) (field : Variable.Bound) : String :=
  s!"change {field.name} of variable '{v.key}'"

/-- One edit of the variable at a place. The guard is asked first, if the edit concerns it. -/
def edit {m : Type → Type} [Monad m] (guard : String → m (Except Error Unit)) (i : Nat)
    (e : Variable.Edit) (r : Registry α) : m (Except Error (Registry α)) := do
  match r.at? i with
  | none => return .error .noItem
  | some v =>
    match ← e.bound?.elim (pure (.ok ())) fun field => guard (action v field) with
    | .error e => return .error e
    | .ok () => return (v.edit e).map (r.put i)

/-- Makes edits one after the other. Those before a failure stay made. -/
def editAll {m : Type → Type} [Monad m] (guard : String → m (Except Error Unit)) (i : Nat) :
    List Variable.Edit → Registry α → m (Except Error Unit × Registry α)
  | [], r => return (.ok (), r)
  | e :: rest, r => do
    match ← edit guard i e r with
    | .ok r => editAll guard i rest r
    | .error e => return (.error e, r)

/-! ## Values -/

def mapVariables (r : Registry α) (f : Variable α → Variable α) : Registry α where
  entries := r.entries.map fun e => (e.1, f e.2)
  proper := by
    rw [List.map_map]
    exact r.proper

def setValue (r : Registry α) (key : Key) (x : α) : Except Error (Registry α) := do
  return r.modify (← r.position key) fun v => { v with value := some x }

def clearValues (r : Registry α) : Registry α := r.mapVariables fun v => { v with value := none }

/-! ## Checking -/

/-- Bounds are crossed if the lower one is above the upper one, or one of them is no number. -/
def isCrossed (v : Variable α) : Bool :=
  Scalar.isNaN v.lower || Scalar.isNaN v.upper || decide (v.upper < v.lower)

def checkBounds (r : Registry α) : Except Error Unit :=
  match r.vars.find? isCrossed with
  | none => .ok ()
  | some v => .error (.boundsCrossed v.key (Scalar.toFloat v.lower) (Scalar.toFloat v.upper))

/-! ## Summary -/

/-- How many variables share a name, and how many of these are fixed. -/
structure Group where
  name : String
  count : Nat
  fixed : Nat

def groups (r : Registry α) : List Group :=
  (r.vars.map (·.key.name)).eraseDups.map fun name =>
    let group := r.vars.filter (·.key.name == name)
    ⟨name, group.length, group.countP (·.isFixed)⟩

def Group.entry (g : Group) : String × Report :=
  (g.name, .record [("count", g.count), ("fixed", g.fixed)])

def summary (r : Registry α) : Report :=
  .record [("total_scalar_vars", r.size), ("variables", .record (r.groups.map Group.entry))]

def report (r : Registry α) : Report :=
  .record [("summary", r.summary), ("keys", .ofKeys r.keys), ("len", r.size), ("count", r.size)]

end Registry

end Equilibria
