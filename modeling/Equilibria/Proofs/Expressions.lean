import Equilibria.Expr.Evaluate
import Equilibria.Fallible
import Equilibria.Proofs.Keys

/-!
# What expressions depend on

The values and derivatives of an expression depend on the keys that it reads and on nothing else,
if that holds of its leaves. Leaves that never fail give it values and derivatives wherever these
keys are bound.
-/

namespace Equilibria

open Fallible

variable {α : Type}

/-! ## Bindings -/

namespace Binding

/-- Each of the keys has a value. -/
def Covers (b : Binding α) (keys : List Key) : Prop := ∀ k ∈ keys, ∃ x, b k = .ok x

/-- Two bindings give the same value to each of the keys. -/
def Agree (b b' : Binding α) (keys : List Key) : Prop := ∀ k ∈ keys, b k = b' k

theorem ofList_eq {pairs : List (Key × α)} {k : Key} {e : Key × α} (hf : k.isFixed = true)
    (h : pairs.find? (·.1 == k) = some e) : ofList pairs k = .ok e.2 := by
  simp [ofList, hf, h]

theorem find?_zip {keys : List Key} (hk : Key.Proper keys) {xs : List α}
    (hl : xs.length = keys.length) (rest : List (Key × α)) {k : Key}
    (h : keys.contains k = true) :
    ∃ e, (keys.zip xs).find? (·.1 == k) = some e ∧
      (keys.zip xs ++ rest).find? (·.1 == k) = some e := by
  have hm : (keys.zip xs).map (·.1) = keys := List.map_fst_zip (Nat.le_of_eq hl.symm)
  obtain ⟨a, ha, hak⟩ := Key.contains_iff.1 h
  rw [← hm] at ha
  obtain ⟨e, he, rfl⟩ := List.mem_map.1 ha
  have hp : Key.Proper ((keys.zip xs).map (·.1)) := by rw [hm]; exact hk
  have hfind := hp.find?_eq he hak
  exact ⟨e, hfind, by rw [List.find?_append, hfind]; rfl⟩

theorem ofList_zip {keys : List Key} (hk : Key.Proper keys) {xs : List α}
    (hl : xs.length = keys.length) (rest : List (Key × α)) {k : Key}
    (h : keys.contains k = true) :
    ∃ x, ofList (keys.zip xs ++ rest) k = .ok x ∧ ofList (keys.zip xs) k = .ok x := by
  obtain ⟨e, he, he'⟩ := find?_zip hk hl rest h
  have hf := hk.fixed_of_contains h
  exact ⟨e.2, ofList_eq hf he', ofList_eq hf he⟩

end Binding

/-! ## Leaves -/

variable [Scalar α]

/-- An evaluator that reads the variables that it names and no others. -/
structure Evaluator.Local (e : Evaluator α) : Prop where
  evaluate_congr : ∀ {b b' : Binding α}, b.Agree b' e.vars → e.evaluate b = e.evaluate b'
  derivative_congr : ∀ {b b' : Binding α} (k : Key), b.Agree b' e.vars →
    e.derivative k b = e.derivative k b'

/-- A black box that never fails for `n` numbers. -/
structure BlackBox.Honest (f : BlackBox α) (n : Nat) : Prop where
  apply : ∀ xs : List α, xs.length = n → ∃ y, f.apply xs = .ok y
  derivativeAt : ∀ (xs : List α) (pos : Nat), xs.length = n → pos < n →
    ∃ d, f.derivativeAt pos xs = .ok d

/-- An evaluator that also never fails where its variables are bound, and has no slope in others. -/
structure Evaluator.Honest (e : Evaluator α) : Prop extends e.Local where
  evaluate_ok : ∀ {b : Binding α}, b.Covers e.vars → ∃ y, e.evaluate b = .ok y
  derivative_ok : ∀ {b : Binding α} (k : Key), b.Covers e.vars → ∃ d, e.derivative k b = .ok d
  flat : ∀ {b : Binding α} {k : Key}, b.Covers e.vars → e.vars.contains k = false →
    e.derivative k b = .ok 0

namespace Expr

mutual

def Local : Expr α → Prop
  | .const _ | .ref _ | .blackBox .. => True
  | .binary _ l r => Local l ∧ Local r
  | .unary _ a => Local a
  | .sum terms => AllLocal terms
  | .custom e => e.Local

def AllLocal : List (Expr α) → Prop
  | [] => True
  | t :: r => Local t ∧ AllLocal r

end

mutual

/-- All black boxes and foreign evaluators of an expression are honest. -/
def Honest : Expr α → Prop
  | .const _ | .ref _ => True
  | .binary _ l r => Honest l ∧ Honest r
  | .unary _ a => Honest a
  | .sum terms => AllHonest terms
  | .blackBox f args => f.Honest args.length
  | .custom e => e.Honest

def AllHonest : List (Expr α) → Prop
  | [] => True
  | t :: r => Honest t ∧ AllHonest r

end

mutual

theorem Honest.isLocal : ∀ {e : Expr α}, e.Honest → e.Local
  | .const _, _ | .ref _, _ | .blackBox .., _ => trivial
  | .binary .., h => ⟨h.1.isLocal, h.2.isLocal⟩
  | .unary _ a, h => (show a.Honest from h).isLocal
  | .sum terms, h => (show AllHonest terms from h).isLocal
  | .custom _, h => h.toLocal

theorem AllHonest.isLocal : ∀ {terms : List (Expr α)}, AllHonest terms → AllLocal terms
  | [], _ => trivial
  | _ :: _, h => ⟨h.1.isLocal, h.2.isLocal⟩

end

/-! ## Variables -/

theorem contains_distinct (keys : List Key) (k : Key) :
    (distinct keys).contains k = keys.contains k := by
  have h : ∀ (keys seen : List Key),
      (keys.foldl (fun seen k => if seen.contains k then seen else seen ++ [k]) seen).contains k =
        (seen.contains k || keys.contains k) := by
    intro keys
    induction keys with
    | nil => simp
    | cons a r ih =>
      intro seen
      rw [List.foldl_cons, ih, List.contains_cons]
      split
      · rename_i ha
        cases hka : k == a with
        | false => simp
        | true => simp [Key.contains_of_contains ha (BEq.symm hka)]
      · simp [List.contains_cons, Bool.or_assoc]
  rw [distinct, h, List.contains_nil, Bool.false_or]

/-! ## Values -/

mutual

theorem evaluate_congr {b b' : Binding α} : ∀ (e : Expr α), e.Local → b.Agree b' e.reads →
    e.evaluate b = e.evaluate b'
  | .const _, _, _ => rfl
  | .ref k, _, h => h k List.mem_cons_self
  | .binary op l r, hh, h => by
    simp only [reads, Binding.Agree, List.forall_mem_append] at h
    simp only [evaluate, evaluate_congr l hh.1 h.1, evaluate_congr r hh.2 h.2]
  | .unary op a, hh, h => by
    simp only [evaluate, evaluate_congr a hh h]
  | .sum terms, hh, h => by
    simp only [evaluate]
    exact evaluateSum_congr terms 0 hh h
  | .blackBox f args, _, h => by
    have hm : args.mapM b = args.mapM b' := mapM_congr h
    simp only [evaluate, BlackBox.evaluate, hm]
  | .custom e, hh, h => hh.evaluate_congr h

theorem evaluateSum_congr {b b' : Binding α} : ∀ (terms : List (Expr α)) (acc : α),
    AllLocal terms → b.Agree b' (readsAll terms) → evaluateSum b acc terms = evaluateSum b' acc terms
  | [], _, _, _ => rfl
  | t :: r, acc, hh, h => by
    simp only [readsAll, Binding.Agree, List.forall_mem_append] at h
    simp only [evaluateSum, evaluate_congr t hh.1 h.1]
    exact bind_congr fun x => evaluateSum_congr r (acc + x) hh.2 h.2

end

mutual

theorem evaluate_ok {b : Binding α} : ∀ (e : Expr α), e.Honest → b.Covers e.reads →
    ∃ y, e.evaluate b = .ok y
  | .const x, _, _ => ⟨x, rfl⟩
  | .ref k, _, h => h k List.mem_cons_self
  | .binary op l r, hh, h => by
    simp only [reads, Binding.Covers, List.forall_mem_append] at h
    obtain ⟨x, hx⟩ := evaluate_ok l hh.1 h.1
    obtain ⟨y, hy⟩ := evaluate_ok r hh.2 h.2
    exact ⟨op.apply x y, by simp only [evaluate, hx, hy]; rfl⟩
  | .unary op a, hh, h => by
    obtain ⟨x, hx⟩ := evaluate_ok a hh h
    exact ⟨op.apply x, by simp only [evaluate, hx]; rfl⟩
  | .sum terms, hh, h => evaluateSum_ok terms 0 hh h
  | .blackBox f args, hh, h => by
    obtain ⟨xs, hxs⟩ := mapM_ok_of_forall h
    obtain ⟨y, hy⟩ := hh.apply xs (length_of_mapM hxs)
    exact ⟨y, bind_eq_ok.2 ⟨xs, hxs, hy⟩⟩
  | .custom e, hh, h => hh.evaluate_ok h

theorem evaluateSum_ok {b : Binding α} : ∀ (terms : List (Expr α)) (acc : α),
    AllHonest terms → b.Covers (readsAll terms) → ∃ y, evaluateSum b acc terms = .ok y
  | [], acc, _, _ => ⟨acc, rfl⟩
  | t :: r, acc, hh, h => by
    simp only [readsAll, Binding.Covers, List.forall_mem_append] at h
    obtain ⟨x, hx⟩ := evaluate_ok t hh.1 h.1
    obtain ⟨y, hy⟩ := evaluateSum_ok r (acc + x) hh.2 h.2
    exact ⟨y, by simp only [evaluateSum, hx]; exact hy⟩

end

/-! ## Derivatives -/

mutual

theorem derivative_congr {b b' : Binding α} (k : Key) : ∀ (e : Expr α), e.Local →
    b.Agree b' e.reads → e.derivative k b = e.derivative k b'
  | .const _, _, _ => rfl
  | .ref _, _, _ => rfl
  | .binary op l r, hh, h => by
    simp only [reads, Binding.Agree, List.forall_mem_append] at h
    simp only [derivative, derivative_congr k l hh.1 h.1, derivative_congr k r hh.2 h.2,
      evaluate_congr l hh.1 h.1, evaluate_congr r hh.2 h.2]
  | .unary op a, hh, h => by
    simp only [derivative, derivative_congr k a hh h, evaluate_congr a hh h]
  | .sum terms, hh, h => by
    simp only [derivative, derivativeSum_congr k terms 0 hh h]
  | .blackBox f args, _, h => by
    have hm : args.mapM b = args.mapM b' := mapM_congr h
    simp only [derivative, BlackBox.derivative, hm]
  | .custom e, hh, h => by
    simp only [derivative, hh.derivative_congr k h]

theorem derivativeSum_congr {b b' : Binding α} (k : Key) : ∀ (terms : List (Expr α)) (acc : α),
    AllLocal terms → b.Agree b' (readsAll terms) →
      derivativeSum k b acc terms = derivativeSum k b' acc terms
  | [], _, _, _ => rfl
  | t :: r, acc, hh, h => by
    simp only [readsAll, Binding.Agree, List.forall_mem_append] at h
    simp only [derivativeSum, derivative_congr k t hh.1 h.1,
      fun x => derivativeSum_congr k r x hh.2 h.2]

end

mutual

theorem derivative_ok {b : Binding α} (k : Key) : ∀ (e : Expr α), e.Honest → b.Covers e.reads →
    ∃ d, e.derivative k b = .ok d
  | .const _, _, _ => by
    simp only [derivative]
    split <;> exact ⟨_, rfl⟩
  | .ref _, _, _ => by
    simp only [derivative]
    split <;> exact ⟨_, rfl⟩
  | .binary op l r, hh, h => by
    simp only [reads, Binding.Covers, List.forall_mem_append] at h
    obtain ⟨x, hx⟩ := evaluate_ok l hh.1 h.1
    obtain ⟨y, hy⟩ := evaluate_ok r hh.2 h.2
    obtain ⟨dx, hdx⟩ := derivative_ok k l hh.1 h.1
    obtain ⟨dy, hdy⟩ := derivative_ok k r hh.2 h.2
    simp only [derivative, hx, hy, hdx, hdy]
    split
    · cases op <;> exact ⟨_, rfl⟩
    · exact ⟨_, rfl⟩
  | .unary op a, hh, h => by
    obtain ⟨x, hx⟩ := evaluate_ok a hh h
    obtain ⟨dx, hdx⟩ := derivative_ok k a hh h
    simp only [derivative, hx, hdx]
    split
    · cases op <;> exact ⟨_, rfl⟩
    · exact ⟨_, rfl⟩
  | .sum terms, hh, h => by
    obtain ⟨d, hd⟩ := derivativeSum_ok k terms 0 hh h
    simp only [derivative, hd]
    split <;> exact ⟨_, rfl⟩
  | .blackBox f args, hh, h => by
    simp only [derivative]
    split
    · rename_i hk
      have hk : args.contains k = true := by simpa [isForeign, mentions, reads] using hk
      obtain ⟨a, ha, hak⟩ := Key.contains_iff.1 hk
      have hlt : args.findIdx (· == k) < args.length := List.findIdx_lt_length_of_exists ⟨a, ha, hak⟩
      obtain ⟨xs, hxs⟩ := mapM_ok_of_forall h
      have hl := length_of_mapM hxs
      obtain ⟨d, hd⟩ := hh.derivativeAt xs _ hl hlt
      exact ⟨d, bind_eq_ok.2 ⟨xs, hxs, hd⟩⟩
    · exact ⟨_, rfl⟩
  | .custom e, hh, h => by
    obtain ⟨d, hd⟩ := hh.derivative_ok k h
    simp only [derivative, hd]
    split <;> exact ⟨_, rfl⟩

theorem derivativeSum_ok {b : Binding α} (k : Key) : ∀ (terms : List (Expr α)) (acc : α),
    AllHonest terms → b.Covers (readsAll terms) → ∃ d, derivativeSum k b acc terms = .ok d
  | [], acc, _, _ => ⟨acc, rfl⟩
  | t :: r, acc, hh, h => by
    simp only [readsAll, Binding.Covers, List.forall_mem_append] at h
    obtain ⟨dx, hdx⟩ := derivative_ok k t hh.1 h.1
    simp only [derivativeSum, hdx]
    split
    · exact derivativeSum_ok k r (acc + dx) hh.2 h.2
    · exact derivativeSum_ok k r acc hh.2 h.2

end

theorem derivative_of_not_mentions {b : Binding α} {k : Key} {e : Expr α}
    (hf : e.isForeign = false) (hk : e.mentions k = false) : e.derivative k b = .ok 0 := by
  rw [derivative.eq_def, hf, hk]
  rfl

theorem derivative_eq_zero {b : Binding α} {k : Key} {e : Expr α} (hh : e.Honest)
    (h : b.Covers e.reads) (hk : e.mentions k = false) : e.derivative k b = .ok 0 := by
  cases e with
  | custom e => exact hh.flat h hk
  | _ => exact derivative_of_not_mentions rfl hk

end Expr

end Equilibria
