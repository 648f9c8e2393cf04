import Equilibria.Proofs.Calls
import Equilibria.Proofs.Keys
import Equilibria.Solver.Flat

/-!
# What callbacks read and change

A call binds the variables of the pairs to a point and answers by that. It changes nothing but
what is bound, and of that only what it binds itself.
-/

namespace Equilibria

open Calls Fallible

variable {α : Type}

/-! ## What is bound -/

namespace Scratch

/-- What is bound to other keys. -/
def outside (s : Scratch α) (keys : List Key) : Scratch α := s.filter fun e => !keys.contains e.1

theorem bind_eq (s : Scratch α) (keys : List Key) (xs : List α) :
    s.bind keys xs = keys.zip xs ++ s.outside keys := rfl

theorem outside_bind_of_subset (s : Scratch α) {keys all : List Key} (xs : List α)
    (h : ∀ k ∈ keys, all.contains k = true) : (s.bind keys xs).outside all = s.outside all := by
  have hz : (keys.zip xs).filter (fun e => !all.contains e.1) = [] := by
    rw [List.filter_eq_nil_iff]
    intro e he
    simp [h e.1 (List.of_mem_zip he).1]
  rw [bind_eq, outside, List.filter_append, hz, List.nil_append, outside, List.filter_filter]
  refine List.filter_congr fun e _ => ?_
  cases hc : keys.contains e.1 with
  | false => simp
  | true =>
    obtain ⟨a, ha, hae⟩ := Key.contains_iff.1 hc
    simp [Key.contains_of_contains (h a ha) hae]

theorem outside_bind (s : Scratch α) (keys : List Key) (xs : List α) :
    (s.bind keys xs).outside keys = s.outside keys :=
  s.outside_bind_of_subset xs fun _ hk => Key.contains_of_mem hk

theorem ofList_outside (s : Scratch α) {keys : List Key} {k : Key}
    (h : keys.contains k = false) :
    Binding.ofList (s.outside keys) k = Binding.ofList s k := by
  have hf : (s.outside keys).find? (·.1 == k) = s.find? (·.1 == k) := by
    rw [outside, List.find?_filter]
    congr 1
    funext e
    cases he : e.1 == k with
    | false => simp
    | true =>
      cases hc : keys.contains e.1 with
      | false => rfl
      | true => rw [Key.contains_of_contains hc he] at h; cases h
  rw [Binding.ofList, Binding.ofList, hf]

theorem ofList_bind (s : Scratch α) {keys : List Key} (xs : List α) {k : Key}
    (h : keys.contains k = false) :
    Binding.ofList (s.bind keys xs) k = Binding.ofList s k := by
  have hn : (keys.zip xs).find? (·.1 == k) = none := by
    rw [List.find?_eq_none]
    intro e he hk
    rw [Key.contains_iff.2 ⟨e.1, (List.of_mem_zip he).1, hk⟩] at h
    cases h
  rw [← ofList_outside s h, bind_eq, Binding.ofList, Binding.ofList, List.find?_append, hn,
    Option.none_or]

end Scratch

namespace Flat

theorem bind_apply (f : Flat α) (point : Grid α) (s : Scratch α) :
    f.bind point s =
      if point.shape = [f.size] then
        (.ok (Binding.ofList (s.bind f.keys point.data)), s.bind f.keys point.data)
      else (.error (.pointShape f.size point.shape), s) := by
  unfold bind
  by_cases h : point.shape = [f.size]
  · have hb : (point.shape != [f.size]) = false := by simp [h]
    rw [if_pos h, hb]
    rfl
  · have hb : (point.shape != [f.size]) = true := by simpa using h
    rw [if_neg h, hb]
    rfl

theorem keys_of_ofPairs {residuals : Residuals α} {t : Pairing} {f : Flat α}
    (h : ofPairs residuals t = .ok f) : f.keys = t.vars := by
  obtain ⟨items, -, h⟩ := bind_eq_ok.1 h
  cases h
  rfl

variable [Scalar α]

theorem value_apply (f : Flat α) (point : Grid α) (s : Scratch α) :
    f.value point s =
      if point.shape = [f.size] then
        (f.exprs.mapM fun e => e.evaluate (Binding.ofList (s.bind f.keys point.data)),
          s.bind f.keys point.data)
      else (.error (.pointShape f.size point.shape), s) := by
  rw [value, Calls.bind_apply, bind_apply]
  by_cases h : point.shape = [f.size]
  · simp only [if_pos h]
    exact mapM_lift_apply _ _ _
  · simp only [if_neg h]

def matrix (f : Flat α) (format : MatrixFormat) (entries : List (Nat × Nat × α)) : Jacobian α :=
  match format with
  | .dense => .dense (fill f.size entries)
  | .entries => .entries f.size entries

theorem jacobian_apply (f : Flat α) (format : MatrixFormat) (point : Grid α) (s : Scratch α) :
    f.jacobian format point s =
      if point.shape = [f.size] then
        ((f.places.mapM (f.entry (Binding.ofList (s.bind f.keys point.data)))).map (f.matrix format),
          s.bind f.keys point.data)
      else (.error (.pointShape f.size point.shape), s) := by
  rw [jacobian, Calls.bind_apply, bind_apply]
  by_cases h : point.shape = [f.size]
  · simp only [if_pos h]
    rw [Calls.bind_apply, mapM_lift_apply]
    cases f.places.mapM (f.entry (Binding.ofList (s.bind f.keys point.data))) with
    | error e => rfl
    | ok entries => cases format <;> rfl
  · simp only [if_neg h]

/-! ## Answers and what is bound outside -/

theorem outside_value (f : Flat α) (point : Grid α) (s : Scratch α) :
    Scratch.outside (f.value point s).2 f.keys = s.outside f.keys := by
  rw [value_apply]
  split
  · exact s.outside_bind f.keys point.data
  · rfl

theorem outside_jacobian (f : Flat α) (format : MatrixFormat) (point : Grid α) (s : Scratch α) :
    Scratch.outside (f.jacobian format point s).2 f.keys = s.outside f.keys := by
  rw [jacobian_apply]
  split
  · exact s.outside_bind f.keys point.data
  · rfl

theorem value_congr (f : Flat α) (point : Grid α) {s s' : Scratch α}
    (h : s.outside f.keys = s'.outside f.keys) : (f.value point s).1 = (f.value point s').1 := by
  have hb : s.bind f.keys point.data = s'.bind f.keys point.data := by
    rw [Scratch.bind_eq, Scratch.bind_eq, h]
  rw [value_apply, value_apply, hb]
  split <;> rfl

theorem jacobian_congr (f : Flat α) (format : MatrixFormat) (point : Grid α) {s s' : Scratch α}
    (h : s.outside f.keys = s'.outside f.keys) :
    (f.jacobian format point s).1 = (f.jacobian format point s').1 := by
  have hb : s.bind f.keys point.data = s'.bind f.keys point.data := by
    rw [Scratch.bind_eq, Scratch.bind_eq, h]
  rw [jacobian_apply, jacobian_apply, hb]
  split <;> rfl

end Flat

/-! ## Problems -/

namespace Problem

variable [Scalar α] (vars : List (Variable α)) (flat : Flat α) (format : MatrixFormat)

theorem value_apply (x : List α) (s : Scratch α) :
    (ofFlat vars flat format).value x s =
      ((flat.value (.vector x) s).1.map .vector, (flat.value (.vector x) s).2) := by
  change ((flat.value (.vector x)) >>= fun f => pure (Grid.vector f)) s = _
  rw [bind_apply]
  rcases flat.value (.vector x) s with ⟨_ | _, _⟩ <;> rfl

theorem jacobian_apply (x : List α) (s : Scratch α) :
    (ofFlat vars flat format).jacobian x s = flat.jacobian format (.vector x) s := rfl

end Problem

end Equilibria
