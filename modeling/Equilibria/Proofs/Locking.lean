import Equilibria.Proofs.Callbacks
import Equilibria.Proofs.Changes
import Equilibria.Proofs.Solves

/-!
# The lock

A model that has been solved, well or not, refuses to be changed until it is reset. So all solves
up to the next reset are of one problem.
-/

namespace Equilibria

open Calls Fallible

variable {α : Type}

/-! ## Refusals -/

/-- The computation is refused because the model is locked, and leaves it as it is. -/
def Refuses {β : Type} (c : Call (Model α) β) (m : Model α) : Prop :=
  ∃ reason, c m = (.error (.locked reason), m)

namespace Refuses

variable {β γ : Type} {m : Model α}

theorem bind {c : Call (Model α) β} {f : β → Call (Model α) γ} (h : Refuses c m) :
    Refuses (c >>= f) m := by
  obtain ⟨reason, h⟩ := h
  exact ⟨reason, by rw [bind_apply, h]⟩

theorem map {c : Call (Model α) β} (f : β → γ) (h : Refuses c m) : Refuses (f <$> c) m := by
  obtain ⟨reason, h⟩ := h
  exact ⟨reason, by rw [map_apply, h]; rfl⟩

theorem required (h : m.status ≠ .unsolved) (action : String) :
    ∃ reason, m.requireUnsolved action = .error (.locked reason) := by
  have hs : (m.status == .unsolved) = false := by simpa using h
  exact ⟨_, by rw [Model.requireUnsolved, hs]; rfl⟩

theorem asked (h : m.status ≠ .unsolved) (action : String)
    (rest : Model α → Unit → Call (Model α) β) :
    Refuses (get >>= fun m => liftM (m.requireUnsolved action) >>= rest m) m := by
  obtain ⟨reason, hr⟩ := required h action
  exact ⟨reason, by rw [get_bind, bind_apply, lift_apply, hr]⟩

theorem edit [Scalar α] (h : m.status ≠ .unsolved) {place : Nat} (hp : place < m.registry.size)
    {e : Variable.Edit} {rest : List Variable.Edit} (he : e.bound?.isSome = true) :
    Refuses (Model.edit place (e :: rest)) m := by
  obtain ⟨field, hf⟩ := Option.isSome_iff_exists.1 he
  obtain ⟨v, hv⟩ : ∃ v, m.registry.at? place = some v := by
    rw [Registry.at?, Registry.vars, List.getElem?_map, List.getElem?_eq_getElem hp]
    exact ⟨_, rfl⟩
  obtain ⟨reason, hr⟩ := required h (Registry.action v field)
  refine ⟨reason, ?_⟩
  have hedit : Registry.edit (m := Id) (fun action => m.requireUnsolved action) place e
      m.registry = .error (.locked reason) := by
    simp only [Registry.edit, hv, hf, Option.elim_some, hr]
    rfl
  have hall : Registry.editAll (m := Id) (fun action => m.requireUnsolved action) place (e :: rest)
      m.registry = (.error (.locked reason), m.registry) := by
    simp only [Registry.editAll, hedit]
    rfl
  rw [Model.edit, get_bind]
  simp only [Id.run, hall]
  rfl

end Refuses

namespace Operation

variable [Scalar α]

/-- The operations that would change what a solver is given. -/
def alters : Operation α → Bool
  | .addSets sets => !sets.isEmpty
  | .edit _ edits => (edits.head?.bind Variable.Edit.bound?).isSome
  | .solve .. | .dispatch .. | .reset => false
  | _ => true

def isFor (m : Model α) : Operation α → Prop
  | .edit place _ => place < m.registry.size
  | _ => True

theorem refuses_run {m : Model α} (h : m.status ≠ .unsolved) {op : Operation α}
    (ha : op.alters = true) (hp : op.isFor m) : Refuses op.run m := by
  cases op with
  | addSet s => exact (Refuses.asked h _ _).bind
  | addSets sets =>
    cases sets with
    | nil => cases ha
    | cons s rest => exact (Refuses.bind (Refuses.asked h _ _)).bind
  | addVariable name index f => exact (Refuses.asked h _ _).map _
  | addVariables name domains f => exact (Refuses.asked h _ _).map _
  | addExpression name e index d => exact (Refuses.asked h _ _).map _
  | addExpressions name rule domains d => exact (Refuses.asked h _ _).map _
  | correspond rs vs => exact (Refuses.asked h _ _).map _
  | complements source target name => exact (Refuses.asked h _ _).map _
  | setOption name value => exact (Refuses.asked h _ _).bind
  | setOptions entries => exact (Refuses.asked h _ _).bind
  | loadOptions path text => exact (Refuses.asked h _ _).bind
  | setStart c value => exact (Refuses.asked h _ _).map _
  | fix c value => exact (Refuses.asked h _ _).map _
  | unfix c lower upper => exact (Refuses.asked h _ _).map _
  | edit place edits =>
    cases edits with
    | nil => cases ha
    | cons e rest => exact (Refuses.edit h hp ha).map _
  | solve | dispatch | reset => cases ha

end Operation

/-! ## What a locked model keeps -/

namespace Registry

/-- The same keys, each with the same bounds and the same start. -/
structure SameBounds (r r' : Registry α) : Prop where
  keys : r'.keys = r.keys
  bounds : r'.bounds = r.bounds

theorem SameBounds.refl (r : Registry α) : SameBounds r r := ⟨rfl, rfl⟩

theorem SameBounds.trans {a b c : Registry α} (h : SameBounds a b) (h' : SameBounds b c) :
    SameBounds a c :=
  ⟨h'.keys.trans h.keys, h'.bounds.trans h.bounds⟩

theorem sameBounds_settled (r : Registry α) (xs : List (Key × α)) :
    SameBounds r (r.settled xs) := by
  refine ⟨r.keys_settled xs, ?_⟩
  simp only [bounds, vars, settled, List.map_map]
  refine List.map_congr_left fun e _ => ?_
  simp only [Function.comp_apply, settle]
  split <;> rfl

variable [Scalar α]

theorem sameBounds_editAll {guard : String → Id (Except Error Unit)}
    (hg : ∀ action, guard action ≠ .ok ()) (i : Nat) (edits : List Variable.Edit)
    (r : Registry α) : SameBounds r (Id.run (editAll guard i edits r)).2 := by
  refine editAll_keeps SameBounds.refl (fun _ _ _ h h' => h.trans h') ?_ r
  intro e _ a b he
  obtain ⟨v, v', hv, hv', rfl, hf⟩ := edit_ok he
  have hb : e.bound? = none := by
    cases hbound : e.bound? with
    | none => rfl
    | some field => exact absurd (hf field hbound) (hg _)
  exact ⟨keys_modify a i _, map_vars_put hv (Variable.bounds_of_edit hv' hb)⟩

omit [Scalar α] in
theorem get_bounds {r r' : Registry α} (h : SameBounds r r') (k : Key) :
    (r'.get k).map (·.bounds) = (r.get k).map (·.bounds) := by
  have hp : r'.position k = r.position k := by
    rw [position, position, position?, position?, h.keys]
  have hv (i : Nat) : (r'.at? i).map (·.bounds) = (r.at? i).map (·.bounds) := by
    rw [at?, at?, ← List.getElem?_map, ← List.getElem?_map]
    exact congrArg (·[i]?) h.bounds
  rw [get, get, hp]
  cases r.position k with
  | error e => rfl
  | ok i =>
    have := hv i
    simp only [bind, Except.bind]
    cases ha : r.at? i with
    | none =>
      rw [ha, Option.map_none, Option.map_eq_none_iff] at this
      rw [this]
    | some v =>
      rw [ha, Option.map_some, Option.map_eq_some_iff] at this
      obtain ⟨v', hv', hb⟩ := this
      rw [hv']
      exact congrArg Except.ok hb

omit [Scalar α] in
theorem paired_bounds {r r' : Registry α} (h : SameBounds r r') {t : Pairing}
    {vars vars' : List (Variable α)} (hv : Problem.paired r t = .ok vars)
    (hv' : Problem.paired r' t = .ok vars') : vars'.map (·.bounds) = vars.map (·.bounds) := by
  have hm : (Problem.paired r' t).map (List.map (·.bounds)) =
      (Problem.paired r t).map (List.map (·.bounds)) := by
    rw [Problem.paired, Problem.paired, map_mapM, map_mapM]
    exact congrArg (t.vars.mapM ·) (funext (get_bounds h))
  rw [hv, hv'] at hm
  exact Except.ok.inj hm

end Registry

namespace Model

/-- What cannot be changed in a locked model. -/
structure Kept (m m' : Model α) : Prop where
  catalog : m'.catalog = m.catalog
  registry : m.registry.SameBounds m'.registry
  residuals : m'.residuals = m.residuals
  pairing : m'.pairing = m.pairing
  options : m'.options = m.options

theorem Kept.refl (m : Model α) : Kept m m := ⟨rfl, .refl _, rfl, rfl, rfl⟩

theorem Kept.trans {a b c : Model α} (h : Kept a b) (h' : Kept b c) : Kept a c :=
  ⟨h'.catalog.trans h.catalog, h.registry.trans h'.registry, h'.residuals.trans h.residuals,
    h'.pairing.trans h.pairing, h'.options.trans h.options⟩

variable [Scalar α]

theorem kept_of_ending {solver : Solver α} {options : Options} {m m' : Model α}
    {r : Except Error (Solved α)} (h : Ending solver options m (r, m')) : Kept m m' := by
  cases h with
  | refused => exact .refl m
  | failed => exact ⟨rfl, .refl _, rfl, rfl, rfl⟩
  | solved => exact ⟨rfl, Registry.sameBounds_settled _ _, rfl, rfl, rfl⟩

theorem locked_of_ending {solver : Solver α} {options : Options} {m m' : Model α}
    {s : Solved α} (h : Ending solver options m (.ok s, m')) : m'.status ≠ .unsolved := by
  cases h <;> simp [found]

theorem Ending.valid {solver : Solver α} {options : Options} {m m' : Model α}
    {r : Except Error (Solved α)} (h : Ending solver options m (r, m'))
    (hm : m.status ≠ .unsolved → m.Valid) (hs : m'.status ≠ .unsolved) : m.Valid := by
  cases h with
  | refused => exact hm hs
  | failed p s scratch hp => exact valid_of_posed hp
  | solved p o trace hp => exact valid_of_posed hp

theorem kept_edit {m : Model α} (h : m.status ≠ .unsolved) (place : Nat)
    (edits : List Variable.Edit) : Kept m (edit place edits m).2 := by
  refine ⟨rfl, Registry.sameBounds_editAll ?_ place edits m.registry, rfl, rfl, rfl⟩
  intro action hg
  obtain ⟨reason, hr⟩ := Refuses.required h action
  cases hr.symm.trans hg

theorem Kept.valid {m m' : Model α} (h : Kept m m') (hv : m.Valid) : m'.Valid := by
  refine ⟨⟨?_, ?_⟩, ⟨?_, ?_⟩, ?_, ?_⟩
  · rw [h.registry.keys, h.pairing]
    exact hv.paired
  · rw [h.residuals, h.pairing]
    exact hv.residualsPaired
  · rw [h.registry.keys, h.pairing]
    exact hv.known
  · rw [h.residuals, h.pairing]
    exact hv.residualsKnown
  · intro v' hv'
    have hb : v'.bounds ∈ m.registry.bounds := by
      rw [← h.registry.bounds]
      exact List.mem_map_of_mem hv'
    obtain ⟨v, hm, hb⟩ := List.mem_map.1 hb
    have := hv.bounds v hm
    simp only [Variable.bounds, Prod.mk.injEq] at hb
    rwa [Registry.isCrossed, hb.1, hb.2.1] at this
  · rw [h.registry.keys, h.residuals]
    exact hv.references

end Model

/-! ## One problem -/

variable [Scalar α]

namespace Problem

/-- The same bounds and starts, and callbacks that answer alike. -/
structure SameTask (keys : List Key) (p q : Problem (Scratch α) α) : Prop where
  lower : q.lower = p.lower
  upper : q.upper = p.upper
  start : q.start = p.start
  value : q.value = p.value
  jacobian : q.jacobian = p.jacobian
  values : ∀ (x : List α) (s s' : Scratch α), s.outside keys = s'.outside keys →
    (q.value x s').1 = (p.value x s).1
  slopes : ∀ (x : List α) (s s' : Scratch α), s.outside keys = s'.outside keys →
    (q.jacobian x s').1 = (p.jacobian x s).1

theorem sameTask_of_bounds {vars vars' : List (Variable α)}
    (h : vars'.map (·.bounds) = vars.map (·.bounds)) (flat : Flat α) (format : MatrixFormat) :
    SameTask flat.keys (ofFlat vars flat format) (ofFlat vars' flat format) := by
  have hp {β : Type} (part : α × α × α → β) :
      vars'.map (fun v => part v.bounds) = vars.map fun v => part v.bounds := by
    have := congrArg (List.map part) h
    rwa [List.map_map, List.map_map] at this
  refine ⟨hp (·.1), hp (·.2.1), hp (·.2.2), rfl, rfl, ?_, ?_⟩
  · intro x s s' hs
    rw [value_apply, value_apply]
    exact congrArg (Except.map Grid.vector) (flat.value_congr _ hs).symm
  · intro x s s' hs
    exact (flat.jacobian_congr format _ hs).symm

end Problem

theorem Model.Kept.sameTask {m m' : Model α} (h : m.Kept m') {p : Problem (Scratch α) α}
    (hp : m.posed = .ok p) :
    ∃ q, m'.posed = .ok q ∧ Problem.SameTask m.pairing.vars p q := by
  have hv := Model.valid_of_posed hp
  obtain ⟨vars, flat, hvars, hflat, hm⟩ := hv.posed_ok
  obtain ⟨vars', flat', hvars', hflat', hm'⟩ := (h.valid hv).posed_ok
  rw [h.residuals, h.pairing] at hflat'
  rw [h.pairing] at hvars'
  cases hp.symm.trans hm
  cases hflat.symm.trans hflat'
  have hb := Registry.paired_bounds h.registry hvars hvars'
  have hk : flat.keys = m.pairing.vars := Flat.keys_of_ofPairs hflat
  exact ⟨_, hm', hk ▸ Problem.sameTask_of_bounds hb flat .dense⟩

/-! ## Runs -/

namespace Operation

theorem ending_of_solve {op : Operation α} (h : op.isSolve = true) (m : Model α) :
    ∃ solver options r, m.Ending solver options (r, op.step m) ∧
      (op.run m).1 = r.map .solved := by
  cases op with
  | solve solver given =>
    have hrun : (Operation.solve solver given).run m =
        ((Model.solve solver given m).1.map .solved, (Model.solve solver given m).2) := by
      rw [run, map_apply]
    rw [step, hrun]
    exact ⟨solver, _, _, Model.solve_ending solver given m, rfl⟩
  | dispatch solver options =>
    have hrun : (Operation.dispatch solver options).run m =
        ((Model.dispatch solver options m).1.map .solved, (Model.dispatch solver options m).2) := by
      rw [run, map_apply]
    rw [step, hrun]
    exact ⟨solver, options, _, Model.dispatch_ending solver options m, rfl⟩
  | _ => cases h

theorem kept_of_alters {m : Model α} (h : m.status ≠ .unsolved) {op : Operation α}
    (ha : op.alters = true) (hp : op.isFor m) : m.Kept (op.step m) := by
  obtain ⟨reason, hr⟩ := refuses_run h ha hp
  rw [step, hr]
  exact .refl m

theorem kept_step {m : Model α} (h : m.status ≠ .unsolved) {op : Operation α}
    (hr : op.isReset = false) : m.Kept (op.step m) ∧ (op.step m).status ≠ .unsolved := by
  rcases op.kind with hs | rfl | hop
  · obtain ⟨solver, options, r, he, -⟩ := ending_of_solve hs m
    refine ⟨Model.kept_of_ending he, ?_⟩
    cases r with
    | error e =>
      generalize op.step m = m' at he
      cases he
      exact h
    | ok s => exact Model.locked_of_ending he
  · cases hr
  · have hb := built_step hop m
    refine ⟨?_, by rw [hb.status]; exact h⟩
    cases op with
    | edit place edits =>
      have : (Operation.edit place edits).step m = (Model.edit place edits m).2 := by
        rw [step, run, map_apply]
      rw [this]
      exact Model.kept_edit h place edits
    | addSets sets =>
      cases sets with
      | nil => exact .refl m
      | cons s rest => exact kept_of_alters h rfl trivial
    | solve | dispatch | reset => cases hop
    | _ => exact kept_of_alters h rfl trivial

theorem kept_runAll {m : Model α} (h : m.status ≠ .unsolved) {ops : List (Operation α)}
    (hr : ∀ op ∈ ops, op.isReset = false) :
    m.Kept (runAll m ops) ∧ (runAll m ops).status ≠ .unsolved := by
  induction ops generalizing m with
  | nil => exact ⟨.refl m, h⟩
  | cons op rest ih =>
    obtain ⟨hk, hs⟩ := kept_step h (hr op List.mem_cons_self)
    obtain ⟨hk', hs'⟩ := ih hs fun o ho => hr o (List.mem_cons_of_mem _ ho)
    exact ⟨hk.trans hk', hs'⟩

theorem valid_step {m : Model α} (h : m.status ≠ .unsolved → m.Valid) (op : Operation α)
    (hs : (op.step m).status ≠ .unsolved) : (op.step m).Valid := by
  rcases op.kind with hsolve | rfl | hop
  · obtain ⟨solver, options, r, he, -⟩ := ending_of_solve hsolve m
    exact (Model.kept_of_ending he).valid (he.valid h hs)
  · exact absurd rfl hs
  · have hm : m.status ≠ .unsolved := by
      rw [← (built_step hop m).status]
      exact hs
    exact (kept_step hm (isReset_of_isBuilding hop)).1.valid (h hm)

theorem valid_runAll {m : Model α} (h : m.status ≠ .unsolved → m.Valid)
    (ops : List (Operation α)) : (runAll m ops).status ≠ .unsolved → (runAll m ops).Valid := by
  induction ops generalizing m with
  | nil => exact h
  | cons op rest ih => exact ih (valid_step h op)

end Operation

/-- The model refuses every operation that would alter the problem. -/
structure Model.Locked (m : Model α) : Prop where
  refuses : ∀ op : Operation α, op.alters = true → op.isFor m → Refuses op.run m
  skips : (Operation.addSets []).run m = (.ok (.sets m.catalog.names), m)

theorem Model.locked_of_status {m : Model α} (h : m.status ≠ .unsolved) : m.Locked :=
  ⟨fun _ ha hp => Operation.refuses_run h ha hp, rfl⟩

/-- A solved model stays locked until it is reset, and all solves until then are of one problem. -/
theorem lock_of_run (name description : String) (options : Options)
    (before : List (Operation α)) :
    let m := Operation.runAll (.empty name description options .unsolved) before
    (m.status ≠ .unsolved → m.Locked) ∧
      ∀ first : Operation α, first.isSolve = true → (first.step m).status ≠ .unsolved →
        ∀ between : List (Operation α), (∀ op ∈ between, op.isReset = false) →
          let later := Operation.runAll (first.step m) between
          later.Locked ∧ ∃ p q, m.posed = .ok p ∧ later.posed = .ok q ∧
            Problem.SameTask m.pairing.vars p q := by
  intro m
  refine ⟨Model.locked_of_status, ?_⟩
  intro first hf hs between hb later
  obtain ⟨solver, options, r, he, -⟩ := Operation.ending_of_solve hf m
  obtain ⟨hk, hl⟩ := Operation.kept_runAll hs hb
  have hk := (Model.kept_of_ending he).trans hk
  have hv : m.Valid := he.valid (Operation.valid_runAll (fun h => absurd rfl h) before) hs
  obtain ⟨vars, flat, -, -, hp⟩ := hv.posed_ok
  obtain ⟨q, hq, ht⟩ := hk.sameTask hp
  exact ⟨Model.locked_of_status hl, _, q, hp, hq, ht⟩

/-! ## A run -/

def staying : Solver Float where
  name := "staying"
  classifier := .standard
  solve p _ := pure (.finish p.start .solved "" 0 none)

theorem lock_of_onePair :
    let m := Operation.runAll (.empty "m" "" .empty .unsolved) onePair
    let solved := (Operation.solve staying .empty).step m
    solved.status = .solved ∧ solved.Locked ∧
      ∃ p q, m.posed = .ok p ∧ solved.posed = .ok q ∧
        Problem.SameTask m.pairing.vars p q := by
  intro m solved
  have h : solved.status = .solved := by decide +kernel
  have hs : solved.status ≠ .unsolved := by rw [h]; decide
  exact ⟨h, (lock_of_run "m" "" .empty onePair).2 (.solve staying .empty) rfl hs [] (by simp)⟩

end Equilibria
