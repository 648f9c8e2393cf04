import Equilibria.Proofs.Histories
import Equilibria.Proofs.Reading

/-!
# Repeated calls

A callback binds the variables of its pairs and no others. What an expression reads besides them is
what other callbacks of the model have bound last. So a callback repeats itself as long as none of
these binds such a key, and a later one may turn a failure into an answer.
-/

namespace Equilibria

open Calls Fallible

variable {α : Type}

/-! ## What is bound -/

namespace Scratch

def keys (s : Scratch α) : List Key := s.map (·.1)

theorem bind_nil (s : Scratch α) : s.bind [] [] = s := by
  simp [bind]

theorem contains_outside (s : Scratch α) (keys : List Key) (k : Key) :
    (keys.contains k || (s.outside keys).keys.contains k) =
      (keys.contains k || s.keys.contains k) := by
  cases hk : keys.contains k with
  | true => rfl
  | false =>
    rw [Bool.false_or, Bool.false_or, Bool.eq_iff_iff, Key.contains_iff, Key.contains_iff]
    constructor
    · rintro ⟨a, ha, hak⟩
      obtain ⟨e, he, rfl⟩ := List.mem_map.1 ha
      exact ⟨e.1, List.mem_map_of_mem (List.mem_of_mem_filter he), hak⟩
    · rintro ⟨a, ha, hak⟩
      obtain ⟨e, he, rfl⟩ := List.mem_map.1 ha
      refine ⟨e.1, List.mem_map_of_mem (List.mem_filter.2 ⟨he, ?_⟩), hak⟩
      cases hc : keys.contains e.1 with
      | false => rfl
      | true => rw [Key.contains_of_contains hc hak] at hk; cases hk

theorem contains_bind (s : Scratch α) {keys : List Key} {xs : List α}
    (h : xs.length = keys.length) (k : Key) :
    (s.bind keys xs).keys.contains k = (keys.contains k || s.keys.contains k) := by
  have hz : (keys.zip xs).map (·.1) = keys := List.map_fst_zip (Nat.le_of_eq h.symm)
  rw [← contains_outside, bind_eq, Scratch.keys, List.map_append, hz, List.contains_append]
  rfl

theorem ofList_bind_of_contains (s s' : Scratch α) {keys : List Key} {xs : List α}
    (h : xs.length = keys.length) {k : Key} (hk : keys.contains k = true) :
    Binding.ofList (s.bind keys xs) k = Binding.ofList (s'.bind keys xs) k := by
  have hz : (keys.zip xs).map (·.1) = keys := List.map_fst_zip (Nat.le_of_eq h.symm)
  have hfind : ((keys.zip xs).find? (·.1 == k)).isSome = true := by
    rw [← hz] at hk
    obtain ⟨a, ha, hak⟩ := Key.contains_iff.1 hk
    obtain ⟨e, he, rfl⟩ := List.mem_map.1 ha
    exact List.find?_isSome.2 ⟨e, he, hak⟩
  obtain ⟨e, he⟩ := Option.isSome_iff_exists.1 hfind
  simp only [Binding.ofList, bind_eq, List.find?_append, he, Option.some_or]

end Scratch

/-! ## Uses -/

variable [Scalar α]

namespace Use

def isSolve : Use α → Bool
  | .operation op => op.isSolve
  | _ => false

/-- The keys that a call binds, which are none if the point is misshapen. -/
def binds : Use α → List Key
  | .value f point | .jacobian f _ point => if point.shape = [f.size] then f.keys else []
  | .operation _ => []

theorem scratch_step (m : Model α) {u : Use α} (h : u.isSolve = false) :
    ∃ xs : List α, xs.length = u.binds.length ∧
      (step m u).scratch = m.scratch.bind u.binds xs := by
  cases u with
  | value f point =>
    simp only [step, Flat.scratched_apply, Flat.value_apply, binds]
    split
    · rename_i hp
      exact ⟨point.data, Grid.length_of_shape hp, rfl⟩
    · exact ⟨[], rfl, m.scratch.bind_nil.symm⟩
  | jacobian f format point =>
    simp only [step, Flat.scratched_apply, Flat.jacobian_apply, binds]
    split
    · rename_i hp
      exact ⟨point.data, Grid.length_of_shape hp, rfl⟩
    · exact ⟨[], rfl, m.scratch.bind_nil.symm⟩
  | operation op =>
    refine ⟨[], rfl, Eq.trans ?_ m.scratch.bind_nil.symm⟩
    rcases op.kind with hs | rfl | hb
    · exact absurd hs (by simpa [isSolve] using h)
    · rfl
    · have hchange := Operation.change_step hb m
      change (op.step m).scratch = m.scratch
      generalize op.step m = m' at hchange
      cases hchange <;> rfl

variable {m : Model α} {uses : List (Use α)} (h : ∀ u ∈ uses, u.isSolve = false)

include h

theorem contains_runAll (k : Key) : (runAll m uses).scratch.keys.contains k = true ↔
    m.scratch.keys.contains k = true ∨ ∃ u ∈ uses, u.binds.contains k = true := by
  induction uses generalizing m with
  | nil => simp [runAll]
  | cons u r ih =>
    obtain ⟨xs, hx, hs⟩ := scratch_step m (h u List.mem_cons_self)
    have hr := ih (m := step m u) fun v hv => h v (List.mem_cons_of_mem _ hv)
    rw [runAll, List.foldl_cons]
    rw [runAll] at hr
    rw [hr, hs, Scratch.contains_bind _ hx, Bool.or_eq_true, List.exists_mem_cons_iff]
    tauto

theorem keeps_runAll {P : Scratch α → Prop} (hm : P m.scratch)
    (hk : ∀ u ∈ uses, ∀ (s : Scratch α) (xs : List α), P s → P (s.bind u.binds xs)) :
    P (runAll m uses).scratch := by
  induction uses generalizing m with
  | nil => exact hm
  | cons u r ih =>
    obtain ⟨xs, -, hs⟩ := scratch_step m (h u List.mem_cons_self)
    refine ih (m := step m u) (fun v hv => h v (List.mem_cons_of_mem _ hv)) ?_
      fun v hv => hk v (List.mem_cons_of_mem _ hv)
    rw [hs]
    exact hk u List.mem_cons_self m.scratch xs hm

theorem ofList_runAll {k : Key} (hk : ∀ u ∈ uses, u.binds.contains k = false) :
    Binding.ofList (runAll m uses).scratch k = Binding.ofList m.scratch k :=
  keeps_runAll (P := fun s => Binding.ofList s k = Binding.ofList m.scratch k) h rfl
    fun u hu s xs hs => (s.ofList_bind xs (hk u hu)).trans hs

theorem outside_runAll {keys : List Key} (hk : ∀ u ∈ uses, ∀ k ∈ u.binds, keys.contains k = true) :
    (runAll m uses).scratch.outside keys = m.scratch.outside keys :=
  keeps_runAll (P := fun s => s.outside keys = m.scratch.outside keys) h rfl
    fun u hu s xs hs => (s.outside_bind_of_subset xs (hk u hu)).trans hs

end Use

/-! ## Callbacks -/

namespace Flat

/-- What the expressions read besides the variables of the pairs. -/
def loose (f : Flat α) : List Key :=
  (f.exprs.flatMap Expr.reads).filter fun k => !f.keys.contains k

/-- The callbacks have the same results on two models. -/
structure Repeats (f : Flat α) (m m' : Model α) : Prop where
  values : ∀ point, (Model.scratched (f.value point) m).1 = (Model.scratched (f.value point) m').1
  slopes : ∀ format point, (Model.scratched (f.jacobian format point) m).1 =
    (Model.scratched (f.jacobian format point) m').1

variable {f : Flat α} {m m' : Model α}

omit [Scalar α] in
theorem mem_loose {k : Key} :
    k ∈ f.loose ↔ (∃ e ∈ f.exprs, k ∈ e.reads) ∧ f.keys.contains k = false := by
  simp [loose]

theorem repeats_of_outside (h : m'.scratch.outside f.keys = m.scratch.outside f.keys) :
    f.Repeats m m' where
  values point := f.value_congr point h.symm
  slopes format point := f.jacobian_congr format point h.symm

omit [Scalar α] in
theorem agree_bind {s s' : Scratch α} (h : (Binding.ofList s).Agree (Binding.ofList s') f.loose)
    {xs : List α} (hx : xs.length = f.size) {e : Expr α} (he : e ∈ f.exprs) :
    (Binding.ofList (s.bind f.keys xs)).Agree (Binding.ofList (s'.bind f.keys xs)) e.reads := by
  intro k hk
  cases hc : f.keys.contains k with
  | true => exact s.ofList_bind_of_contains s' hx hc
  | false =>
    rw [Scratch.ofList_bind s xs hc, Scratch.ofList_bind s' xs hc]
    exact h k (mem_loose.2 ⟨⟨e, he, hk⟩, hc⟩)

theorem entry_congr {b b' : Binding α} (h : ∀ e ∈ f.exprs, e.Local ∧ b.Agree b' e.reads)
    (place : Nat × Nat) : f.entry b place = f.entry b' place := by
  unfold entry
  split
  · rename_i e k he hk
    obtain ⟨hlocal, hagree⟩ := h e (List.mem_of_getElem? he)
    rw [Expr.derivative_congr k e hlocal hagree]
  · rfl

theorem repeats_of_agree (hl : ∀ e ∈ f.exprs, e.Local)
    (h : (Binding.ofList m.scratch).Agree (Binding.ofList m'.scratch) f.loose) :
    f.Repeats m m' where
  values point := by
    simp only [scratched_apply, value_apply]
    split
    · rename_i hp
      exact mapM_congr fun e he =>
        e.evaluate_congr (hl e he) (agree_bind h (Grid.length_of_shape hp) he)
    · rfl
  slopes format point := by
    simp only [scratched_apply, jacobian_apply]
    split
    · rename_i hp
      refine congrArg (Except.map (f.matrix format)) (mapM_congr fun place _ => ?_)
      exact entry_congr (fun e he => ⟨hl e he, agree_bind h (Grid.length_of_shape hp) he⟩) place
    · rfl

/-! ## Answers -/

def Algebraic (f : Flat α) : Prop :=
  ∀ e ∈ f.exprs, (∀ x ∈ e.nodes, x.isAlgebraic = true) ∧ ∀ k ∈ e.reads, k.isFixed = true

theorem answers_or_unbound (h : f.Algebraic) {point : Grid α} (hp : point.shape = [f.size])
    (m : Model α) :
    ((∀ k ∈ f.loose, m.scratch.keys.contains k = true) ∧
      ∃ ys, (Model.scratched (f.value point) m).1 = .ok ys) ∨
    ∃ k ∈ f.loose, m.scratch.keys.contains k = false ∧
      (Model.scratched (f.value point) m).1 = .error (.unbound k) := by
  have hbound : ∀ k, (m.scratch.bind f.keys point.data).keys.contains k =
      (f.keys.contains k || m.scratch.keys.contains k) :=
    m.scratch.contains_bind (Grid.length_of_shape hp)
  rw [scratched_apply, value_apply, if_pos hp]
  cases hr : f.exprs.mapM fun e =>
      e.evaluate (Binding.ofList (m.scratch.bind f.keys point.data)) with
  | ok ys =>
    refine .inl ⟨fun k hk => ?_, ys, rfl⟩
    obtain ⟨⟨e, he, hke⟩, hfree⟩ := mem_loose.1 hk
    obtain ⟨i, hi⟩ := List.getElem?_of_mem he
    obtain ⟨y, -, hy⟩ := getElem?_of_mapM hr hi
    obtain ⟨x, hx⟩ := Expr.covers_of_evaluate (h e he).1 hy k hke
    rcases Binding.ofList_cases (m.scratch.bind f.keys point.data) ((h e he).2 k hke) with
      ⟨hc, -⟩ | ⟨-, hno⟩
    · have hin := (hbound k).symm.trans hc
      rwa [hfree, Bool.false_or] at hin
    · cases hx.symm.trans hno
  | error error =>
    obtain ⟨e, he, hfails⟩ := error_of_mapM hr
    obtain ⟨k, hke, hb⟩ := Expr.unbound_of_error (h e he).1 hfails
    rcases Binding.ofList_cases (m.scratch.bind f.keys point.data) ((h e he).2 k hke) with
      ⟨-, x, hx⟩ | ⟨hc, hno⟩
    · cases hb.symm.trans hx
    · cases hb.symm.trans hno
      have hfree := (hbound k).symm.trans hc
      rw [Bool.or_eq_false_iff] at hfree
      exact .inr ⟨k, mem_loose.2 ⟨⟨e, he, hke⟩, hfree.1⟩, hfree.2, rfl⟩

end Flat

/-! ## Histories -/

/-- After a history without a solve a callback answers as before, if none of its loose keys has been
bound. Algebraic ones answer just if all of these are bound. -/
theorem repeats_of_history (f : Flat α) (m : Model α) {uses : List (Use α)}
    (h : ∀ u ∈ uses, u.isSolve = false) :
    let m' := Use.runAll m uses
    let bound k := m.scratch.keys.contains k = true ∨ ∃ u ∈ uses, u.binds.contains k = true
    ((∀ u ∈ uses, ∀ k ∈ u.binds, f.keys.contains k = true) → f.Repeats m m') ∧
    ((∀ e ∈ f.exprs, e.Local) → (∀ u ∈ uses, ∀ k ∈ f.loose, u.binds.contains k = false) →
      f.Repeats m m') ∧
    (f.Algebraic → ∀ point : Grid α, point.shape = [f.size] →
      ((∀ k ∈ f.loose, bound k) ∧ ∃ ys, (Model.scratched (f.value point) m').1 = .ok ys) ∨
      ∃ k ∈ f.loose, ¬ bound k ∧
        (Model.scratched (f.value point) m').1 = .error (.unbound k)) := by
  intro m' bound
  have hbound k : bound k ↔ m'.scratch.keys.contains k = true := (Use.contains_runAll h k).symm
  refine ⟨fun hin => Flat.repeats_of_outside (Use.outside_runAll h hin), fun hl hspared => ?_, ?_⟩
  · exact Flat.repeats_of_agree hl fun k hk =>
      (Use.ofList_runAll h fun u hu => hspared u hu k hk).symm
  · intro ha point hp
    rcases Flat.answers_or_unbound ha hp m' with ⟨hall, hys⟩ | ⟨k, hk, hfree, herror⟩
    · exact .inl ⟨fun k hk => (hbound k).2 (hall k hk), hys⟩
    · refine .inr ⟨k, hk, ?_, herror⟩
      rw [hbound, hfree]
      exact Bool.false_ne_true

/-! ## A model that is half paired -/

/-- The variables `x` and `y` and the residual `x y`, which is paired with `x`. -/
def halfPaired : List (Operation Float) :=
  [.addVariable (.text "x") none {}, .addVariable (.text "y") none {},
    .addExpression (.text "F") (.expr (.binary .mul (.ref ⟨"x", []⟩) (.ref ⟨"y", []⟩))) none
      (.text ""),
    .correspond (.key ⟨"F", []⟩) (.key ⟨"x", []⟩)]

def halfFlat : Flat Float :=
  ⟨[⟨"x", []⟩], [.binary .mul (.ref ⟨"x", []⟩) (.ref ⟨"y", []⟩)]⟩

/-- The callback for `x` asks in vain for `y` again and again. -/
theorem repeats_of_halfPaired :
    let m := Operation.runAll (.empty "m" "" .empty .unsolved) halfPaired
    Flat.ofPairs m.residuals m.pairing = .ok halfFlat ∧ ∀ n : ℕ,
      let m' := Use.runAll m (.replicate n (.value halfFlat (.vector [2])))
      halfFlat.Repeats m m' ∧
      (Model.scratched (halfFlat.value (.vector [2])) m').1 = .error (.unbound ⟨"y", []⟩) := by
  intro m
  refine ⟨rfl, fun n => ?_⟩
  have huse : ∀ u ∈ List.replicate n (Use.value halfFlat (.vector [2])),
      u.isSolve = false ∧ ∀ k ∈ u.binds, halfFlat.keys.contains k = true := by
    intro u hu
    rw [List.eq_of_mem_replicate hu]
    exact ⟨rfl, fun k hk => Key.contains_of_mem hk⟩
  obtain ⟨hwithin, -⟩ := repeats_of_history halfFlat m fun u hu => (huse u hu).1
  have hrepeats := hwithin fun u hu => (huse u hu).2
  exact ⟨hrepeats, (hrepeats.values _).symm⟩

def otherHalf : List (Operation Float) :=
  [.addExpression (.text "G") (.expr (.ref ⟨"y", []⟩)) none (.text ""),
    .correspond (.key ⟨"G", []⟩) (.key ⟨"y", []⟩)]

/-- Once `y` has been paired and called, the callback for `x` answers at the same point. -/
theorem answers_of_otherHalf :
    let m := Operation.runAll (.empty "m" "" .empty .unsolved) halfPaired
    let m' := Operation.runAll m otherHalf
    let call := halfFlat.value (.vector [2])
    Flat.ofPairs m.residuals m.pairing = .ok halfFlat ∧
      (∃ e : Error, e.kind = "KeyError" ∧ (Model.scratched call m).1 = .error e) ∧
      ∃ both, Flat.ofPairs m'.residuals m'.pairing = .ok both ∧
        let uses := .value halfFlat (.vector [2]) :: otherHalf.map .operation ++
          [.value both (.vector [2, 5])]
        (Model.scratched call (Use.runAll m uses)).1 = .ok [2 * 5] :=
  ⟨rfl, ⟨_, rfl, rfl⟩, _, rfl, rfl⟩

end Equilibria
