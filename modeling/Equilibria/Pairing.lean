import Equilibria.Key.Make
import Equilibria.Report

/-!
# Pairings

Each pair matches one residual with one variable. No component is in two pairs, and the order of
the pairs is the order of the flat problem.
-/

namespace Equilibria

/-- A residual and the variable that it is matched with. -/
structure Pair where
  res : Key
  var : Key

def Pair.toText (p : Pair) : String := s!"{p.res} ⟂ {p.var}"

def Pair.reports (pairs : List Pair) : Report := .texts (pairs.map toText)

structure Pairing where
  pairs : List Pair
  properVars : Key.Proper (pairs.map (·.var))
  properResiduals : Key.Proper (pairs.map (·.res))

namespace Pairing

def empty : Pairing := ⟨[], .nil, .nil⟩

def vars (t : Pairing) : List Key := t.pairs.map (·.var)

def residuals (t : Pairing) : List Key := t.pairs.map (·.res)

def size (t : Pairing) : Nat := t.pairs.length

@[simp] theorem length_vars (t : Pairing) : t.vars.length = t.size := List.length_map ..

theorem proper_vars (t : Pairing) : Key.Proper t.vars := t.properVars

theorem proper_residuals (t : Pairing) : Key.Proper t.residuals := t.properResiduals

/-- Only keys of fixed values can be looked up. -/
def lookUp (keys : List Key) (key : Key) : Except Error Bool :=
  if key.isFixed then .ok (keys.contains key) else .error .wrongType

def hasVariable (t : Pairing) (key : Key) : Except Error Bool := lookUp t.vars key

def hasResidual (t : Pairing) (key : Key) : Except Error Bool := lookUp t.residuals key

/-! ## Pairing -/

/-- The keys that are among `taken` or occur twice, each once. -/
def repeated (taken : List Key) : List Key → List Key → List Key → List Key
  | _, found, [] => found
  | seen, found, k :: r =>
    if (taken.contains k || seen.contains k) && !found.contains k then
      repeated taken (k :: seen) (found ++ [k]) r
    else repeated taken (k :: seen) found r

/-- Without repeated keys, the keys are new and different from each other. -/
theorem repeated_eq_nil {taken seen found keys : List Key}
    (h : repeated taken seen found keys = []) :
    found = [] ∧ (∀ k ∈ keys, taken.contains k = false ∧ seen.contains k = false) ∧
      keys.Pairwise fun a b => (a == b) = false := by
  induction keys generalizing seen found with
  | nil => exact ⟨h, by simp, .nil⟩
  | cons k r ih =>
    rw [repeated] at h
    split at h
    · obtain ⟨hf, -⟩ := ih h
      simp at hf
    · rename_i hk
      obtain ⟨rfl, hnew, hr⟩ := ih h
      simp only [List.contains_cons, Bool.or_eq_false_iff] at hnew
      simp only [List.contains_nil, Bool.not_false, Bool.and_true, Bool.not_eq_true,
        Bool.or_eq_false_iff] at hk
      refine ⟨rfl, ?_, List.pairwise_cons.2 ⟨?_, hr⟩⟩
      · intro a ha
        rcases List.mem_cons.1 ha with rfl | ha
        · exact hk
        · exact ⟨(hnew a ha).1, (hnew a ha).2.2⟩
      · intro a ha
        exact Key.beq_false_symm (hnew a ha).2.1

theorem proper_of_repeated {taken keys : List Key} (h : repeated taken [] [] keys = [])
    (hf : keys.all Key.isFixed = true) (ht : Key.Proper taken) : Key.Proper (taken ++ keys) := by
  obtain ⟨-, hnew, hd⟩ := repeated_eq_nil h
  exact ht.append ⟨by simpa using hf, hd⟩ fun k hk => (hnew k hk).1

theorem map_var_zipWith {residuals vars : List Key} (h : residuals.length = vars.length) :
    (List.zipWith Pair.mk residuals vars).map (·.var) = vars := by
  rw [List.map_zipWith, ← List.map_uncurry_zip_eq_zipWith]
  exact List.map_snd_zip (Nat.le_of_eq h.symm)

theorem map_res_zipWith {residuals vars : List Key} (h : residuals.length = vars.length) :
    (List.zipWith Pair.mk residuals vars).map (·.res) = residuals := by
  rw [List.map_zipWith, ← List.map_uncurry_zip_eq_zipWith]
  exact List.map_fst_zip (Nat.le_of_eq h)

def extend (t : Pairing) (residuals vars : List Key) (hl : residuals.length = vars.length)
    (hf : residuals.all Key.isFixed = true ∧ vars.all Key.isFixed = true)
    (hv : repeated t.vars [] [] vars = []) (hr : repeated t.residuals [] [] residuals = []) :
    Pairing where
  pairs := t.pairs ++ List.zipWith Pair.mk residuals vars
  properVars := by
    rw [List.map_append, map_var_zipWith hl]
    exact proper_of_repeated hv hf.2 t.proper_vars
  properResiduals := by
    rw [List.map_append, map_res_zipWith hl]
    exact proper_of_repeated hr hf.1 t.proper_residuals

/-- Pairs residuals with variables, one by one. All pairs are made or none. -/
def correspond (t : Pairing) (residuals vars : List Key) :
    Except Error (Pairing × List Pair) :=
  if hl : residuals.length = vars.length then
    if hf : residuals.all Key.isFixed = true ∧ vars.all Key.isFixed = true then
      match hv : repeated t.vars [] [] vars, hr : repeated t.residuals [] [] residuals with
      | [], [] => .ok (t.extend residuals vars hl hf hv hr, List.zipWith Pair.mk residuals vars)
      | vs, rs => .error (.alreadyPaired vs rs)
    else .error .wrongType
  else .error (.cardinality residuals.length vars.length)

/-! ## Looking up -/

def residualFor (t : Pairing) (key : Key) : Except Error Key :=
  if !key.isFixed then .error .wrongType
  else
    match t.pairs.find? (·.var == key) with
    | some p => .ok p.res
    | none => .error (.variableUnpaired key)

def variableFor (t : Pairing) (key : Key) : Except Error Key :=
  if !key.isFixed then .error .wrongType
  else
    match t.pairs.find? (·.res == key) with
    | some p => .ok p.var
    | none => .error (.residualUnpaired key)

/-! ## Completeness -/

/-- Checks that the registered components are just the paired ones. Without residuals only the
variables are checked. -/
def checkComplete (t : Pairing) (vars : List Key) (residuals : Option (List Key)) :
    Except Error Unit :=
  let unpaired (keys paired : List Key) : List Key := keys.filter (!paired.contains ·)
  let foreign (keys paired : List Key) : List Key := paired.filter (!keys.contains ·)
  if !(vars.all Key.isFixed && (residuals.getD []).all Key.isFixed) then .error .wrongType
  else
    match unpaired vars t.vars, residuals.elim [] (unpaired · t.residuals) with
    | [], [] =>
      match foreign vars t.vars, residuals.elim [] (foreign · t.residuals) with
      | [], [] => .ok ()
      | vs, rs => .error (.unregistered vs rs)
    | vs, rs => .error (.unpaired vs rs)

def report (t : Pairing) : Report :=
  .record [("pairs", Pair.reports t.pairs), ("iter", Pair.reports t.pairs), ("len", t.size),
    ("variables", .ofKeys t.vars), ("residuals", .ofKeys t.residuals)]

end Pairing

end Equilibria
