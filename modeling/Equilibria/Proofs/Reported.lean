import Equilibria.Path.External
import Equilibria.Proofs.Storing

/-!
# What an external program reports

A success of the external program is believed whatever comes with it. Places for which the report
has a number get that number, and all others keep their starts. So the point of a success is a
reported one just if the report has a number for every place.
-/

namespace Equilibria

open Calls Fallible

variable {σ α : Type}

namespace Path

/-! ## Reports -/

namespace Report

def number? (r : Report α) (i : ℕ) : Option α := (r.solution.bind fun xs => xs[i]?).join

/-- The entries of a point are the numbers of a report, and the starts where it has none. -/
structure Fills (r : Report α) (start : List α) (x : Grid α) : Prop where
  shape : x.shape = [start.length]
  entry : ∀ {i : ℕ} {s : α}, start[i]? = some s → x.data[i]? = some ((r.number? i).getD s)

variable {r : Report α} {start : List α} {x : Grid α}

theorem Fills.reported_iff (h : r.Fills start x) :
    (∀ i < start.length, ∃ y, r.number? i = some y ∧ x.data[i]? = some y) ↔
      ∀ i < start.length, ∃ y, r.number? i = some y := by
  constructor
  · intro hall i hi
    obtain ⟨y, hy, -⟩ := hall i hi
    exact ⟨y, hy⟩
  · intro hall i hi
    obtain ⟨y, hy⟩ := hall i hi
    refine ⟨y, hy, ?_⟩
    rw [h.entry (List.getElem?_eq_getElem hi), hy]
    rfl

theorem fills_point (hc : codeOf r.termination = Termination.solved.code) (start : List α) :
    r.Fills start (.vector (r.point start)) := by
  have hentry {i : ℕ} {s : α} (hs : start[i]? = some s) :
      (r.point start)[i]? = some ((r.number? i).getD s) := by
    rw [point, number?]
    cases r.solution with
    | none => exact hs
    | some xs => simp [hc, hs]
  refine ⟨?_, hentry⟩
  rw [point]
  cases r.solution <;> simp [hc, Grid.vector]

end Report

/-! ## Runs -/

variable [Scalar α]

/-- Run on the conditions of a problem, the program makes the report. -/
def External.Reports (e : External α) (p : Problem σ α) (o : Options) (r : Report α) : Prop :=
  ∃ cs, conditions p = .ok cs ∧ e.run cs o = .ok r

theorem reports_of_solve {e : External α} {p : Problem σ α} {o : Options} {t t' : Trace σ α}
    {out : Output α} (hn : p.size ≠ 0) (h : solve e p o t = (.ok out, t')) :
    ∃ r, e.Reports p o r ∧ out = r.output p.start := by
  have hempty : (p.size == 0) = false := beq_false_of_ne hn
  have hok : (solve e p o t).1 = .ok out := congrArg Prod.fst h
  unfold solve at hok
  rw [hempty, if_neg Bool.false_ne_true] at hok
  obtain ⟨cs, hcs, hrest⟩ := ok_of_lift_bind hok
  rw [hrest] at hok
  dsimp only at hok
  split at hok
  · cases hok
  split at hok
  · cases hok
  obtain ⟨-, s, -, hrest⟩ := ok_of_bind hok
  rw [hrest] at hok
  obtain ⟨r, hr, hrest⟩ := ok_of_lift_bind hok
  rw [hrest] at hok
  exact ⟨r, ⟨cs, hcs, hr⟩, (Except.ok.inj hok).symm⟩

theorem solve_of_reports {e : External α} {p : Problem σ α} {o : Options} {r : Report α}
    {cs : List (Condition α)} (hn : p.size ≠ 0) (hcs : conditions p = .ok cs)
    (ha : cs.all Condition.isAccepted = true) (hv : e.isAvailable = true)
    (hr : e.run cs o = .ok r) (t : Trace σ α) :
    (solve e p o t).1 = .ok (r.output p.start) := by
  have hempty : (p.size == 0) = false := beq_false_of_ne hn
  unfold solve
  rw [hempty, if_neg Bool.false_ne_true, lift_bind_ok hcs]
  simp only [ha, hv, Bool.not_true, if_neg Bool.false_ne_true]
  rw [Run.note, bind_apply, modify_apply]
  simp only
  rw [lift_bind_ok hr]
  rfl

theorem fills_of_solve {e : External α} {p : Problem σ α} {o : Options} {t t' : Trace σ α}
    {out : Output α} (hn : p.size ≠ 0) (h : solve e p o t = (.ok out, t'))
    (hc : out.code = Termination.solved.code) : ∃ r, e.Reports p o r ∧ r.Fills p.start out.x := by
  obtain ⟨r, hr, rfl⟩ := reports_of_solve hn h
  exact ⟨r, hr, r.fills_point hc p.start⟩

end Path

/-! ## Models -/

variable [Scalar α]

namespace Model

theorem get_found {m : Model α} {p : Problem (Scratch α) α} {o : Output α} {r : Path.Report α}
    (hp : m.posed = .ok p) (hx : isProper o p.size = true) (hr : r.Fills p.start o.x)
    (scratch : Scratch α) {i : ℕ} {pair : Pair} (hi : m.pairing.pairs[i]? = some pair) :
    ∃ v, m.registry.get pair.var = .ok v ∧ (m.found o.x.data scratch).registry.get pair.var =
      .ok { v with value := some ((r.number? i).getD v.start) } := by
  rcases m.posed_cases with ⟨vars, flat, hv, hvars, hflat, hp'⟩ | ⟨e, hp', -⟩
  · cases hp.symm.trans hp'
    obtain ⟨-, ⟨v, hget, hvi⟩, -⟩ := place_of_pair hvars hflat hi
    have hstart : (Problem.ofFlat vars flat .dense).start[i]? = some v.start := by
      rw [Problem.ofFlat, List.getElem?_map, hvi]
      rfl
    obtain ⟨w, hw, hstored⟩ := get_stored hv.known (length_of_isProper hp hx) (var_of_pair hi)
      (hr.entry hstart)
    cases hget.symm.trans hw
    exact ⟨v, hget, hstored⟩
  · cases hp.symm.trans hp'

theorem stored_of_solve {e : Path.External α} {m m' : Model α} {given : Options}
    {s : Solved α} (hn : m.pairing.size ≠ 0) (h : solve (Path.solver e) given m = (.ok s, m'))
    (ho : s.outcome.isOptimal = true) :
    ∃ p r, m.posed = .ok p ∧ e.Reports p (m.options.merge given) r ∧
      ∀ (i : ℕ) (pair : Pair), m.pairing.pairs[i]? = some pair →
        ∃ v, m.registry.get pair.var = .ok v ∧ m'.registry.get pair.var =
          .ok { v with value := some ((r.number? i).getD v.start) } := by
  have hend := solve_ending (Path.solver e) given m
  rw [h] at hend
  cases hend with
  | failed p s scratch posed kind =>
    rw [kind] at ho
    cases ho
  | solved p o trace posed ran kind proper =>
    have hsize : p.size ≠ 0 := by rwa [size_of_posed posed]
    obtain ⟨r, hr, hfills⟩ := Path.fills_of_solve hsize ran (code_of_classify rfl kind)
    exact ⟨p, r, posed, hr, fun i pair hi => get_found posed proper hfills _ hi⟩

end Model

/-- An optimal point has the numbers of the report as entries, and the starts where the report has
none. -/
theorem starts_of_unreported (e : Path.External α) :
    (∀ {σ : Type} (p : Problem σ α) (o : Options) (t t' : Trace σ α) (out : Output α),
      p.size ≠ 0 → Path.solve e p o t = (.ok out, t') → out.code = Termination.solved.code →
      ∃ r, e.Reports p o r ∧ r.Fills p.start out.x ∧
        ((∀ i < p.size, ∃ y, r.number? i = some y ∧ out.x.data[i]? = some y) ↔
          ∀ i < p.size, ∃ y, r.number? i = some y)) ∧
    ∀ (m m' : Model α) (given : Options) (s : Model.Solved α), m.pairing.size ≠ 0 →
      Model.solve (Path.solver e) given m = (.ok s, m') → s.outcome.isOptimal = true →
      ∃ p r, m.posed = .ok p ∧ e.Reports p (m.options.merge given) r ∧
        ∀ (i : ℕ) (pair : Pair), m.pairing.pairs[i]? = some pair →
          ∃ v, m.registry.get pair.var = .ok v ∧ m'.registry.get pair.var =
            .ok { v with value := some ((r.number? i).getD v.start) } := by
  refine ⟨fun p o t t' out hn h hc => ?_, fun m m' given s hn h ho => ?_⟩
  · obtain ⟨r, hr, hfills⟩ := Path.fills_of_solve hn h hc
    exact ⟨r, hr, hfills, hfills.reported_iff⟩
  · exact Model.stored_of_solve hn h ho

/-! ## A report without a solution -/

def Path.External.always (r : Path.Report α) : Path.External α := ⟨"path", true, fun _ _ => .ok r⟩

def startsAtOne : List (Operation Float) :=
  [.addVariable (.text "x") none { start := .float 1 },
    .addExpression (.text "F") (.expr (.ref ⟨"x", []⟩)) none (.text ""),
    .correspond (.key ⟨"F", []⟩) (.key ⟨"x", []⟩)]

def fromOne : Problem (Scratch Float) Float :=
  .ofFlat [⟨⟨"x", []⟩, 0, Double.infinity, 1, "", none⟩] ⟨[⟨"x", []⟩], [.ref ⟨"x", []⟩]⟩ .dense

/-- A success without a solution stores the start, where the residual is not zero. -/
theorem start_of_emptyReport :
    let m := Operation.runAll (.empty "m" "" .empty .unsolved) startsAtOne
    let r : Path.Report Float := ⟨"optimal", "ok", none⟩
    (∀ i, r.number? i = none) ∧
      ∃ s m' v, Model.solve (Path.solver (.always r)) .empty m = (.ok s, m') ∧
        s.outcome.isOptimal = true ∧ m'.registry.get ⟨"x", []⟩ = .ok v ∧ v.value = some 1 := by
  intro m r
  have hv : m.validate = .ok () := eq_ok_of_isOk (by decide +kernel)
  have hp : m.posed = .ok fromOne := by
    rw [Model.posed, hv]
    rfl
  have hcs : Path.conditions fromOne = .ok [⟨.atMost (.number 0) (.variable 0),
      .atMost (.number 0) (.variable 0)⟩] := rfl
  have hran := Path.solve_of_reports (e := .always r) (o := m.options.merge .empty) (by decide) hcs
    rfl rfl rfl ⟨m.scratch, []⟩
  have hproper : Model.isProper (r.output fromOne.start) fromOne.size = true := by decide +kernel
  have ho : (Model.classify (Path.solver (.always r)) (r.output fromOne.start)
      fromOne.size).isOptimal = true := Model.isOptimal_classify rfl rfl hproper
  exact ⟨fun _ => rfl, _, _, _, Model.solve_of_ran hp (Prod.ext hran rfl) ho, ho, rfl, rfl⟩

end Equilibria
