import Equilibria.Proofs.Sparsity

/-!
# The order of the pairs

The flat problem depends on the pairs and on what is registered, but not on the order in which
things were registered. Other orders of the pairs give the same problem with its components in
other places.
-/

namespace Equilibria

open Calls Fallible

variable {α β γ ε : Type}

/-! ## Lists in another order -/

/-- A list has in each place what another has in the place that the permutation names. -/
structure Moved {n : Nat} (s : Equiv.Perm (Fin n)) (xs ys : List β) : Prop where
  length : xs.length = n
  length_moved : ys.length = n
  getElem? : ∀ i : Fin n, ys[i.val]? = xs[(s i).val]?

namespace Moved

variable {n : Nat} {s : Equiv.Perm (Fin n)} {xs ys : List β}

theorem symm (h : Moved s xs ys) : Moved s.symm ys xs := by
  refine ⟨h.length_moved, h.length, fun i => ?_⟩
  rw [h.getElem?, s.apply_symm_apply]

theorem map (h : Moved s xs ys) (f : β → γ) : Moved s (xs.map f) (ys.map f) := by
  refine ⟨by rw [List.length_map, h.length], by rw [List.length_map, h.length_moved], fun i => ?_⟩
  rw [List.getElem?_map, List.getElem?_map, h.getElem?]

theorem eq (h : Moved (Equiv.refl (Fin n)) xs ys) : ys = xs := by
  refine List.ext_getElem? fun i => ?_
  by_cases hi : i < n
  · exact h.getElem? ⟨i, hi⟩
  · rw [List.getElem?_eq_none (by rw [h.length_moved]; exact Nat.le_of_not_lt hi),
      List.getElem?_eq_none (by rw [h.length]; exact Nat.le_of_not_lt hi)]

theorem of_getElem? (h : Moved s xs ys) {i : Nat} {y : β} (hy : ys[i]? = some y) :
    ∃ j : Fin n, j.val = i ∧ xs[(s j).val]? = some y := by
  obtain ⟨hlt, -⟩ := List.getElem?_eq_some_iff.1 hy
  rw [h.length_moved] at hlt
  exact ⟨⟨i, hlt⟩, rfl, by rw [← h.getElem? ⟨i, hlt⟩, hy]⟩

theorem mem_iff (h : Moved s xs ys) {x : β} : x ∈ ys ↔ x ∈ xs := by
  have hsub : ∀ {s : Equiv.Perm (Fin n)} {xs ys : List β}, Moved s xs ys → x ∈ ys → x ∈ xs := by
    intro s xs ys h hx
    obtain ⟨i, hi⟩ := List.getElem?_of_mem hx
    obtain ⟨j, -, hj⟩ := h.of_getElem? hi
    exact List.mem_of_getElem? hj
  exact ⟨hsub h, hsub h.symm⟩

theorem mapM (h : Moved s xs ys) {f g : β → Except ε γ} (hfg : ∀ x ∈ xs, g x = f x)
    {zs : List γ} (hz : xs.mapM f = .ok zs) : ∃ zs', ys.mapM g = .ok zs' ∧ Moved s zs zs' := by
  have hall : ∀ y ∈ ys, ∃ z, g y = .ok z := by
    intro y hy
    have hx := h.mem_iff.1 hy
    obtain ⟨i, hi⟩ := List.getElem?_of_mem hx
    obtain ⟨z, -, hz⟩ := getElem?_of_mapM hz hi
    exact ⟨z, (hfg y hx).trans hz⟩
  obtain ⟨zs', hz'⟩ := mapM_ok_of_forall hall
  refine ⟨zs', hz', ?_, ?_, fun i => ?_⟩
  · rw [length_of_mapM hz, h.length]
  · rw [length_of_mapM hz', h.length_moved]
  · have hlt : (s i).val < xs.length := by rw [h.length]; exact (s i).isLt
    have hx : xs[(s i).val]? = some xs[(s i).val] := List.getElem?_eq_getElem hlt
    obtain ⟨z, hzi, hf⟩ := getElem?_of_mapM hz hx
    obtain ⟨z', hzi', hg⟩ := getElem?_of_mapM hz' ((h.getElem? i).trans hx)
    rw [hfg _ (List.getElem_mem hlt), hf] at hg
    cases hg
    rw [hzi, hzi']

end Moved

/-! ## What is bound -/

def Scratch.Alike (keys : List Key) (t t' : Scratch α) : Prop :=
  ∀ k, keys.contains k = false → Binding.ofList t k = Binding.ofList t' k

theorem Moved.contains_eq {n : Nat} {s : Equiv.Perm (Fin n)} {keys keys' : List Key}
    (h : Moved s keys keys') (k : Key) : keys'.contains k = keys.contains k := by
  rw [Bool.eq_iff_iff, Key.contains_iff, Key.contains_iff]
  simp only [h.mem_iff]

theorem Scratch.ofList_getElem? (t : Scratch α) {keys : List Key} (hp : Key.Proper keys)
    {xs : List α} (hl : xs.length = keys.length) {i : Nat} {a k : Key} {x : α}
    (ha : keys[i]? = some a) (hx : xs[i]? = some x) (hk : (a == k) = true) :
    Binding.ofList (t.bind keys xs) k = .ok x := by
  have hm : (keys.zip xs).map (·.1) = keys := List.map_fst_zip (Nat.le_of_eq hl.symm)
  have hproper : Key.Proper ((keys.zip xs).map (·.1)) := by rw [hm]; exact hp
  have hmem : (a, x) ∈ keys.zip xs :=
    List.mem_of_getElem? (List.getElem?_zip_eq_some.2 ⟨ha, hx⟩)
  have hfind := hproper.find?_eq hmem hk
  have hfixed := hp.fixed_of_contains (Key.contains_iff.2 ⟨a, List.mem_of_getElem? ha, hk⟩)
  refine Binding.ofList_eq hfixed (e := (a, x)) ?_
  rw [bind_eq, List.find?_append, hfind]
  rfl

section

variable {n : Nat} {s : Equiv.Perm (Fin n)} {keys keys' : List Key} (h : Moved s keys keys')
  (hp : Key.Proper keys) (hp' : Key.Proper keys') {xs xs' : List α} (hx : Moved s xs xs')

include h hp hp' hx

theorem Scratch.ofList_moved (t t' : Scratch α) {k : Key} (hk : keys.contains k = true) :
    Binding.ofList (t'.bind keys' xs') k = Binding.ofList (t.bind keys xs) k := by
  have hk' : keys'.contains k = true := (h.contains_eq k).trans hk
  obtain ⟨a, ha, hak⟩ := Key.contains_iff.1 hk'
  obtain ⟨i, hi⟩ := List.getElem?_of_mem ha
  obtain ⟨j, rfl, hj⟩ := h.of_getElem? hi
  have hlt : (s j).val < xs.length := by rw [hx.length]; exact (s j).isLt
  have hval : xs[(s j).val]? = some xs[(s j).val] := List.getElem?_eq_getElem hlt
  rw [t.ofList_getElem? hp (hx.length.trans h.length.symm) hj hval hak,
    t'.ofList_getElem? hp' (hx.length_moved.trans h.length_moved.symm) hi
      ((hx.getElem? j).trans hval) hak]

theorem Scratch.Alike.ofList_bind {t t' : Scratch α} (ht : Scratch.Alike keys t t') :
    Binding.ofList (t'.bind keys' xs') = Binding.ofList (t.bind keys xs) := by
  funext k
  cases hk : keys.contains k with
  | true => exact Scratch.ofList_moved h hp hp' hx t t' hk
  | false =>
    rw [Scratch.ofList_bind t xs hk, Scratch.ofList_bind t' xs' ((h.contains_eq k).trans hk),
      ht k hk]

end

theorem Scratch.Alike.of_outside {n : Nat} {s : Equiv.Perm (Fin n)} {keys keys' : List Key}
    {t t' u u' : Scratch α} (ht : Scratch.Alike keys t t') (h : Moved s keys keys')
    (hu : u.outside keys = t.outside keys) (hu' : u'.outside keys' = t'.outside keys') :
    Scratch.Alike keys u u' := by
  intro k hk
  have hk' := (h.contains_eq k).trans hk
  rw [← Scratch.ofList_outside u hk, hu, Scratch.ofList_outside t hk, ht k hk,
    ← Scratch.ofList_outside t' hk', ← hu', Scratch.ofList_outside u' hk']

/-! ## Flat problems -/

namespace Flat

variable [Scalar α]

/-- Two flat problems with the same variables and expressions in different places. -/
structure Shuffled {n : Nat} (s : Equiv.Perm (Fin n)) (f f' : Flat α) : Prop where
  keys : Moved s f.keys f'.keys
  exprs : Moved s f.exprs f'.exprs
  proper : Key.Proper f.keys
  proper_moved : Key.Proper f'.keys
  closed : ∀ e ∈ f.exprs, ∀ k ∈ e.reads, f.keys.contains k = true

namespace Shuffled

variable {n : Nat} {s : Equiv.Perm (Fin n)} {f f' : Flat α} (h : f.Shuffled s f')

include h

omit [Scalar α] in
theorem symm : f'.Shuffled s.symm f where
  keys := h.keys.symm
  exprs := h.exprs.symm
  proper := h.proper_moved
  proper_moved := h.proper
  closed e he k hk := (h.keys.contains_eq k).trans (h.closed e (h.exprs.mem_iff.1 he) k hk)

variable {xs xs' : List α} (hx : Moved s xs xs') {t t' : Scratch α}
  (ht : Scratch.Alike f.keys t t' ∨ ∀ e ∈ f.exprs, e.Local)

include hx ht

theorem answers {e : Expr α} (he : e ∈ f.exprs) :
    e.evaluate (Binding.ofList (t'.bind f'.keys xs')) =
        e.evaluate (Binding.ofList (t.bind f.keys xs)) ∧
      ∀ k, e.derivative k (Binding.ofList (t'.bind f'.keys xs')) =
        e.derivative k (Binding.ofList (t.bind f.keys xs)) := by
  rcases ht with ht | hlocal
  · rw [ht.ofList_bind h.keys h.proper h.proper_moved hx]
    exact ⟨rfl, fun _ => rfl⟩
  · have hagree : (Binding.ofList (t'.bind f'.keys xs')).Agree
        (Binding.ofList (t.bind f.keys xs)) e.reads := fun k hk =>
      Scratch.ofList_moved h.keys h.proper h.proper_moved hx t t' (h.closed e he k hk)
    exact ⟨e.evaluate_congr (hlocal e he) hagree,
      fun k => Expr.derivative_congr k e (hlocal e he) hagree⟩

theorem differentiable (hd : f.Differentiable (Binding.ofList (t.bind f.keys xs))) :
    f'.Differentiable (Binding.ofList (t'.bind f'.keys xs')) := by
  intro i j e k he hk hment
  obtain ⟨a, rfl, ha⟩ := h.exprs.of_getElem? he
  obtain ⟨b, rfl, hb⟩ := h.keys.of_getElem? hk
  obtain ⟨d, hdk⟩ := hd ha hb hment
  exact ⟨d, ((h.answers hx ht (List.mem_of_getElem? ha)).2 k).trans hdk⟩

theorem stored_eq {items items' : List (Nat × Nat × α)}
    (hi : f.places.mapM (f.entry (Binding.ofList (t.bind f.keys xs))) = .ok items)
    (hi' : f'.places.mapM (f'.entry (Binding.ofList (t'.bind f'.keys xs'))) = .ok items')
    (i j : Fin n) : stored items' i j = stored items (s i) (s j) := by
  have hexpr : (s i).val < f.exprs.length := by rw [h.exprs.length]; exact (s i).isLt
  have hkey : (s j).val < f.keys.length := by rw [h.keys.length]; exact (s j).isLt
  have he := List.getElem?_eq_getElem hexpr
  have hk := List.getElem?_eq_getElem hkey
  rw [stored_of_entries hi he hk,
    stored_of_entries hi' ((h.exprs.getElem? i).trans he) ((h.keys.getElem? j).trans hk),
    (h.answers hx ht (List.getElem_mem hexpr)).2]

end Shuffled

def number (format : MatrixFormat) (x : Option α) : α :=
  match format with
  | .dense => x.elim 0 id
  | .entries => x.elim 0 (0 + ·)

theorem toRows_matrix (f : Flat α) (format : MatrixFormat) {items : List (Nat × Nat × α)}
    (h : (items.map fun e => (e.1, e.2.1)).Nodup) : (f.matrix format items).toRows =
      (List.range f.size).map fun i => (List.range f.size).map fun j =>
        number format (stored items i j) := by
  cases format with
  | dense => exact fill_eq_table f.size items
  | entries => exact entries_eq_table f.size h

structure MovedRows {n : Nat} (s : Equiv.Perm (Fin n)) (rows rows' : List (List α)) : Prop where
  square : Square n rows
  square_moved : Square n rows'
  cell : ∀ i j : Fin n, cell rows' i j = cell rows (s i) (s j)

section

variable {n : Nat} {s : Equiv.Perm (Fin n)} {f f' : Flat α} (h : f.Shuffled s f')
  {xs xs' : List α} (hx : Moved s xs xs')

include h hx

omit [Scalar α] in
theorem Shuffled.shapes :
    (Grid.vector xs).shape = [f.size] ∧ (Grid.vector xs').shape = [f'.size] :=
  ⟨congrArg (fun n => [n]) (hx.length.trans h.keys.length.symm),
    congrArg (fun n => [n]) (hx.length_moved.trans h.keys.length_moved.symm)⟩

variable {t t' : Scratch α} (ht : Scratch.Alike f.keys t t' ∨ ∀ e ∈ f.exprs, e.Local)

include ht

theorem Shuffled.values {ys : List α} (hy : (f.value (.vector xs) t).1 = .ok ys) :
    ∃ ys', (f'.value (.vector xs') t').1 = .ok ys' ∧ Moved s ys ys' := by
  obtain ⟨hp, hp'⟩ := h.shapes hx
  rw [value_apply, if_pos hp] at hy
  rw [value_apply, if_pos hp']
  exact h.exprs.mapM (fun _ he => (h.answers hx ht he).1) hy

theorem Shuffled.slopes {format : MatrixFormat} {j : Jacobian α}
    (hj : (f.jacobian format (.vector xs) t).1 = .ok j) :
    ∃ j', (f'.jacobian format (.vector xs') t').1 = .ok j' ∧ MovedRows s j.toRows j'.toRows := by
  obtain ⟨hp, hp'⟩ := h.shapes hx
  have hsize : f.size = n := h.keys.length
  have hsize' : f'.size = n := h.keys.length_moved
  rw [jacobian_apply, if_pos hp] at hj
  rw [jacobian_apply, if_pos hp']
  obtain ⟨items, hi, rfl⟩ := map_eq_ok.1 hj
  have hd : f'.Differentiable (Binding.ofList (t'.bind f'.keys xs')) :=
    h.differentiable hx ht (differentiable_of_entries hi)
  obtain ⟨items', hi'⟩ := hd.entries_ok
  refine ⟨_, map_eq_ok.2 ⟨items', hi', rfl⟩, ?_⟩
  rw [toRows_matrix f format (nodup_of_entries hi), toRows_matrix f' format (nodup_of_entries hi'),
    hsize, hsize']
  refine ⟨.table _, .table _, fun a b => ?_⟩
  rw [cell_table _ a.isLt b.isLt, cell_table _ (s a).isLt (s b).isLt,
    h.stored_eq hx ht hi hi']

end

end Flat

/-! ## Problems -/

namespace Problem

variable [Scalar α]

/-- What is bound is the same outside of the keys, or no expression reads anything else. -/
def Comparable (keys : List Key) (p : Problem (Scratch α) α) (t t' : Scratch α) : Prop :=
  Scratch.Alike keys t t' ∨ ∀ e ∈ p.residuals, e.Local

/-- A problem that has the components of another one in other places. -/
structure Reordered {n : Nat} (s : Equiv.Perm (Fin n)) (keys : List Key)
    (p p' : Problem (Scratch α) α) : Prop where
  lower : Moved s p.lower p'.lower
  upper : Moved s p.upper p'.upper
  start : Moved s p.start p'.start
  vars : Moved s p.vars p'.vars
  residuals : Moved s p.residuals p'.residuals
  values : ∀ {xs xs' : List α} {t t' : Scratch α}, Moved s xs xs' → p.Comparable keys t t' →
    ∀ {g : Grid α}, (p.value xs t).1 = .ok g → ∃ ys ys', g = .vector ys ∧
      (p'.value xs' t').1 = .ok (.vector ys') ∧ Moved s ys ys'
  slopes : ∀ {xs xs' : List α} {t t' : Scratch α}, Moved s xs xs' → p.Comparable keys t t' →
    ∀ {j : Jacobian α}, (p.jacobian xs t).1 = .ok j →
      ∃ j', (p'.jacobian xs' t').1 = .ok j' ∧ Flat.MovedRows s j.toRows j'.toRows
  alike : ∀ {xs xs' : List α} {t t' : Scratch α}, Scratch.Alike keys t t' →
    Scratch.Alike keys (p.value xs t).2 (p'.value xs' t').2 ∧
      Scratch.Alike keys (p.jacobian xs t).2 (p'.jacobian xs' t').2

def component (v : Variable α) : Key × α × α × α := (v.key, v.bounds)

theorem reordered_ofFlat {n : Nat} {s : Equiv.Perm (Fin n)} {f f' : Flat α}
    (h : f.Shuffled s f') {vars vars' : List (Variable α)}
    (hv : Moved s (vars.map component) (vars'.map component)) (format : MatrixFormat) :
    Reordered s f.keys (ofFlat vars f format) (ofFlat vars' f' format) := by
  have hpart {β : Type} (part : Key × α × α × α → β) :
      Moved s (vars.map fun v => part (component v)) (vars'.map fun v => part (component v)) := by
    have := hv.map part
    rwa [List.map_map, List.map_map] at this
  refine ⟨hpart (·.2.1), hpart (·.2.2.1), hpart (·.2.2.2), hpart (·.1), h.exprs, ?_, ?_, ?_⟩
  · intro xs xs' t t' hx ht g hg
    rw [value_apply] at hg
    obtain ⟨ys, hy, rfl⟩ := map_eq_ok.1 hg
    obtain ⟨ys', hy', hmoved⟩ := h.values hx ht hy
    refine ⟨ys, ys', rfl, ?_, hmoved⟩
    rw [value_apply, hy']
    rfl
  · intro xs xs' t t' hx ht j hj
    exact h.slopes hx ht hj
  · intro xs xs' t t' ht
    rw [value_apply, value_apply]
    exact ⟨ht.of_outside h.keys (f.outside_value _ t) (f'.outside_value _ t'),
      ht.of_outside h.keys (f.outside_jacobian format _ t) (f'.outside_jacobian format _ t')⟩

theorem ofFlat_eq {n : Nat} {f f' : Flat α} (h : f.Shuffled (Equiv.refl (Fin n)) f')
    {vars vars' : List (Variable α)}
    (hv : Moved (Equiv.refl (Fin n)) (vars.map component) (vars'.map component))
    (format : MatrixFormat) : ofFlat vars' f' format = ofFlat vars f format := by
  have hpart {β : Type} (part : Key × α × α × α → β) :
      vars'.map (fun v => part (component v)) = vars.map fun v => part (component v) := by
    have := congrArg (List.map part) hv.eq
    rwa [List.map_map, List.map_map] at this
  have hf : f' = f := by
    cases f
    cases f'
    exact congrArg₂ Flat.mk h.keys.eq h.exprs.eq
  have hlower : vars'.map (·.lower) = vars.map (·.lower) := hpart (·.2.1)
  have hupper : vars'.map (·.upper) = vars.map (·.upper) := hpart (·.2.2.1)
  have hstart : vars'.map (·.start) = vars.map (·.start) := hpart (·.2.2.2)
  have hkey : vars'.map (·.key) = vars.map (·.key) := hpart (·.1)
  rw [ofFlat, ofFlat, hf, hlower, hupper, hstart, hkey]

end Problem

/-! ## Models -/

namespace Model

/-- The same variables and residuals are registered, in any order. -/
structure SameParts (m m' : Model α) : Prop where
  vars : (m'.registry.entries.map fun e => (e.1, Problem.component e.2)).Perm
    (m.registry.entries.map fun e => (e.1, Problem.component e.2))
  residuals : (m'.residuals.items.map fun f => (f.key, f.expr)).Perm
    (m.residuals.items.map fun f => (f.key, f.expr))

namespace SameParts

variable {m m' : Model α} (h : m.SameParts m')

include h

theorem contains_key {k : Key} (hk : m.registry.keys.contains k = true) :
    m'.registry.keys.contains k = true := by
  obtain ⟨e, he, hek, -⟩ := m.registry.get_of_contains hk
  have hmem := h.vars.mem_iff.2 (List.mem_map_of_mem he)
  obtain ⟨e', he', hee⟩ := List.mem_map.1 hmem
  exact Key.contains_iff.2 ⟨e'.1, List.mem_map_of_mem he', by rw [congrArg Prod.fst hee, hek]⟩

theorem component_get {k : Key} (hk : m.registry.keys.contains k = true) :
    (m'.registry.get k).map Problem.component = (m.registry.get k).map Problem.component := by
  obtain ⟨e, he, hek, hget⟩ := m.registry.get_of_contains hk
  have hmem := h.vars.mem_iff.2 (List.mem_map_of_mem he)
  obtain ⟨e', he', hee⟩ := List.mem_map.1 hmem
  obtain ⟨hkey, hcomponent⟩ := Prod.mk.inj hee
  have hget' : m'.registry.get k = .ok e'.2 := m'.registry.get_eq he' (by rw [hkey, hek])
  rw [hget, hget']
  exact congrArg Except.ok hcomponent

theorem expr_get {k : Key} (hk : m.residuals.keys.contains k = true) :
    (m'.residuals.get k).map Residual.expr = (m.residuals.get k).map Residual.expr := by
  obtain ⟨f, hf, hfk, hget⟩ := m.residuals.get_of_contains hk
  have hmem := h.residuals.mem_iff.2 (List.mem_map_of_mem hf)
  obtain ⟨f', hf', hff⟩ := List.mem_map.1 hmem
  obtain ⟨hkey, hexpr⟩ := Prod.mk.inj hff
  have hget' : m'.residuals.get k = .ok f' := m'.residuals.get_eq hf' (by rw [hkey, hfk])
  rw [hget, hget']
  exact congrArg Except.ok hexpr

end SameParts

theorem components_of_paired {m : Model α} {vars : List (Variable α)}
    (h : Problem.paired m.registry m.pairing = .ok vars) :
    m.pairing.vars.mapM (fun k => (m.registry.get k).map Problem.component) =
      .ok (vars.map Problem.component) := by
  rw [← map_mapM]
  exact congrArg (Except.map (List.map Problem.component)) h

theorem exprs_of_flat {m : Model α} {flat : Flat α}
    (h : Flat.ofPairs m.residuals m.pairing = .ok flat) :
    m.pairing.residuals.mapM (fun k => (m.residuals.get k).map Residual.expr) =
      .ok flat.exprs := by
  obtain ⟨items, hi, he⟩ := bind_eq_ok.1 h
  cases he
  rw [← map_mapM, hi]
  rfl

variable [Scalar α]

section

variable {m m' : Model α} (hv : m.Valid) (hparts : m.SameParts m') {vars vars' : List (Variable α)}
  {flat flat' : Flat α}

include hv hparts

variable {n : Nat} {s : Equiv.Perm (Fin n)} (hs : Moved s m.pairing.pairs m'.pairing.pairs)

include hs

theorem components_moved (hvars : Problem.paired m.registry m.pairing = .ok vars)
    (hvars' : Problem.paired m'.registry m'.pairing = .ok vars') :
    Moved s (vars.map Problem.component) (vars'.map Problem.component) := by
  have hkeys : Moved s m.pairing.vars m'.pairing.vars := hs.map Pair.var
  obtain ⟨_, hz, hmoved⟩ := hkeys.mapM (fun k hk => hparts.component_get (hv.known k hk))
    (components_of_paired hvars)
  cases hz.symm.trans (components_of_paired hvars')
  exact hmoved

theorem shuffled (hflat : Flat.ofPairs m.residuals m.pairing = .ok flat)
    (hflat' : Flat.ofPairs m'.residuals m'.pairing = .ok flat') : flat.Shuffled s flat' := by
  have hkeys := Flat.keys_of_ofPairs hflat
  have hkeys' := Flat.keys_of_ofPairs hflat'
  have hresiduals : Moved s m.pairing.residuals m'.pairing.residuals := hs.map Pair.res
  obtain ⟨_, hz, hmoved⟩ := hresiduals.mapM
    (fun k hk => hparts.expr_get (hv.residualsKnown k hk)) (exprs_of_flat hflat)
  cases hz.symm.trans (exprs_of_flat hflat')
  refine ⟨?_, hmoved, ?_, ?_, hv.closed hflat⟩
  · rw [hkeys, hkeys']
    exact hs.map Pair.var
  · rw [hkeys]
    exact m.pairing.proper_vars
  · rw [hkeys']
    exact m'.pairing.proper_vars

theorem unflatten_moved (hv' : m'.Valid) {xs xs' : List α} (hx : Moved s xs xs') :
    ∃ r r', unflatten xs m = (.ok (), { m with registry := r }) ∧
      unflatten xs' m' = (.ok (), { m' with registry := r' }) ∧
      ∀ k, m.registry.keys.contains k = true → ∃ v v' x, r.get k = .ok v ∧ r'.get k = .ok v' ∧
        v.value = some x ∧ v'.value = some x := by
  have hkeys : Moved s m.pairing.vars m'.pairing.vars := hs.map Pair.var
  have hl : xs.length = m.pairing.size := hx.length.trans hs.length.symm
  have hl' : xs'.length = m'.pairing.size := hx.length_moved.trans hs.length_moved.symm
  refine ⟨_, _, unflatten_eq hv.known hl, unflatten_eq hv'.known hl', fun k hk => ?_⟩
  have hpaired : m.pairing.vars.contains k = true := by
    obtain ⟨a, ha, hak⟩ := Key.contains_iff.1 hk
    exact Key.contains_of_contains (hv.paired a ha) hak
  have hpaired' := (hkeys.contains_eq k).trans hpaired
  -- Storing reads a point like binding does, so the values are compared as if they were bound.
  have hbound := Scratch.ofList_moved hkeys m.pairing.proper_vars m'.pairing.proper_vars hx [] []
    hpaired
  obtain ⟨x, hfind, hfind₀⟩ := Binding.find?_zip m.pairing.proper_vars
    (hl.trans m.pairing.length_vars.symm) (Scratch.outside [] m.pairing.vars) hpaired
  obtain ⟨x', hfind', hfind₀'⟩ := Binding.find?_zip m'.pairing.proper_vars
    (hl'.trans m'.pairing.length_vars.symm) (Scratch.outside [] m'.pairing.vars) hpaired'
  have hfixed := m.pairing.proper_vars.fixed_of_contains hpaired
  rw [Scratch.bind_eq, Scratch.bind_eq, Binding.ofList_eq hfixed hfind₀,
    Binding.ofList_eq hfixed hfind₀', Except.ok.injEq] at hbound
  have hk' := hparts.contains_key hk
  obtain ⟨e, -, -, hget⟩ := m.registry.get_of_contains hk
  obtain ⟨e', -, -, hget'⟩ := m'.registry.get_of_contains hk'
  refine ⟨_, _, x.2, m.registry.get_settled hget hk hfind,
    m'.registry.get_settled hget' hk' hfind', rfl, ?_⟩
  exact congrArg some hbound

end

/-- Valid models with the same variables and residuals pose the same problem up to the order of
their pairs. -/
theorem reordered_of_pairs {m m' : Model α} (hv : m.validate = .ok ()) (hv' : m'.validate = .ok ())
    (hparts : m.SameParts m') {n : Nat} (s : Equiv.Perm (Fin n))
    (hs : Moved s m.pairing.pairs m'.pairing.pairs) :
    (∀ text format, MatrixFormat.ofText text = .ok format →
      ∃ p p', m.problem text = .ok p ∧ m'.problem text = .ok p' ∧
        p.Reordered s m.pairing.vars p' ∧ p'.Reordered s.symm m'.pairing.vars p ∧
        (m'.pairing.pairs = m.pairing.pairs → p' = p)) ∧
    ∀ xs xs' : List α, Moved s xs xs' →
      ∃ r r', unflatten xs m = (.ok (), { m with registry := r }) ∧
        unflatten xs' m' = (.ok (), { m' with registry := r' }) ∧
        ∀ k, m.registry.keys.contains k = true → ∃ v v' x, r.get k = .ok v ∧ r'.get k = .ok v' ∧
          v.value = some x ∧ v'.value = some x := by
  have hv := valid_of_validate hv
  have hv' := valid_of_validate hv'
  refine ⟨fun text format hformat => ?_, fun xs xs' hx => unflatten_moved hv hparts hs hv' hx⟩
  obtain ⟨vars, flat, hvars, hflat, -⟩ := hv.posed_ok
  obtain ⟨vars', flat', hvars', hflat', -⟩ := hv'.posed_ok
  have hp : m.problem text = .ok (Problem.ofFlat vars flat format) := by
    rw [problem, Problem.ofPairs, hvars, hflat, hformat]
    rfl
  have hp' : m'.problem text = .ok (Problem.ofFlat vars' flat' format) := by
    rw [problem, Problem.ofPairs, hvars', hflat', hformat]
    rfl
  have hmoved := components_moved hv hparts hs hvars hvars'
  have hshuffled := shuffled hv hparts hs hflat hflat'
  refine ⟨_, _, hp, hp', ?_, ?_, fun hpairs => ?_⟩
  · rw [← Flat.keys_of_ofPairs hflat]
    exact Problem.reordered_ofFlat hshuffled hmoved format
  · rw [← Flat.keys_of_ofPairs hflat']
    exact Problem.reordered_ofFlat hshuffled.symm hmoved.symm format
  · have hstay : Moved (Equiv.refl (Fin n)) m.pairing.pairs m'.pairing.pairs := by
      rw [hpairs]
      exact ⟨hs.length, hs.length, fun _ => rfl⟩
    exact Problem.ofFlat_eq (shuffled hv hparts hstay hflat hflat')
      (components_moved hv hparts hstay hvars hvars') format

end Model

def twoPairs : List (Operation Float) :=
  [.addVariable (.text "x") none {},
    .addVariable (.text "y") none { upper := .float 1.0 },
    .addExpression (.text "F") (.expr (.binary .sub (.ref ⟨"x", []⟩) (.ref ⟨"y", []⟩))) none
      (.text ""),
    .addExpression (.text "G") (.expr (.ref ⟨"y", []⟩)) none (.text ""),
    .correspond (.key ⟨"F", []⟩) (.key ⟨"x", []⟩),
    .correspond (.key ⟨"G", []⟩) (.key ⟨"y", []⟩)]

def twoPairsSwapped : List (Operation Float) :=
  [.addVariable (.text "y") none { upper := .float 1.0 },
    .addVariable (.text "x") none {},
    .addExpression (.text "G") (.expr (.ref ⟨"y", []⟩)) none (.text ""),
    .addExpression (.text "F") (.expr (.binary .sub (.ref ⟨"x", []⟩) (.ref ⟨"y", []⟩))) none
      (.text ""),
    .correspond (.list [.key ⟨"G", []⟩, .key ⟨"F", []⟩]) (.list [.key ⟨"y", []⟩, .key ⟨"x", []⟩])]

theorem reordered_of_twoPairs :
    let m := Operation.runAll (.empty "m" "" .empty .unsolved) twoPairs
    let m' := Operation.runAll (.empty "m" "" .empty .unsolved) twoPairsSwapped
    m.validate = .ok () ∧ m'.validate = .ok () ∧ m.SameParts m' ∧ m.pairing.size = 2 ∧
      ∃ p p', m.problem "dense" = .ok p ∧ m'.problem "dense" = .ok p' ∧
        p.Reordered (Equiv.swap (0 : Fin 2) 1) m.pairing.vars p' := by
  intro m m'
  have hv : m.validate = .ok () := eq_ok_of_isOk (by decide +kernel)
  have hv' : m'.validate = .ok () := eq_ok_of_isOk (by decide +kernel)
  have hparts : m.SameParts m' := ⟨.swap _ _ [], .swap _ _ []⟩
  have hpairs : m.pairing.pairs = [⟨⟨"F", []⟩, ⟨"x", []⟩⟩, ⟨⟨"G", []⟩, ⟨"y", []⟩⟩] := rfl
  have hpairs' : m'.pairing.pairs = [⟨⟨"G", []⟩, ⟨"y", []⟩⟩, ⟨⟨"F", []⟩, ⟨"x", []⟩⟩] := rfl
  have hs : Moved (Equiv.swap (0 : Fin 2) 1) m.pairing.pairs m'.pairing.pairs := by
    rw [hpairs, hpairs']
    exact ⟨rfl, rfl, fun i => by fin_cases i <;> rfl⟩
  obtain ⟨hproblem, -⟩ := Model.reordered_of_pairs hv hv' hparts _ hs
  obtain ⟨p, p', hp, hp', hr, -⟩ := hproblem "dense" .dense rfl
  exact ⟨hv, hv', hparts, rfl, p, p', hp, hp', hr⟩

end Equilibria
