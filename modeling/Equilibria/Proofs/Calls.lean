import Equilibria.Fallible

/-!
# Computations that change a state

What a computation that may fail answers and leaves, step by step. A failure ends it, but the
changes before the failure stay.
-/

namespace Equilibria.Calls

variable {ε σ β γ : Type}

/-! ## One step -/

theorem get_apply (s : σ) : (get : ExceptT ε (StateM σ) σ) s = (.ok s, s) := rfl

theorem modify_apply (f : σ → σ) (s : σ) :
    (modify f : ExceptT ε (StateM σ) PUnit) s = (.ok ⟨⟩, f s) := rfl

theorem lift_apply (x : Except ε β) (s : σ) : (liftM x : ExceptT ε (StateM σ) β) s = (x, s) := rfl

theorem bind_apply (c : ExceptT ε (StateM σ) β) (f : β → ExceptT ε (StateM σ) γ) (s : σ) :
    (c >>= f) s = match c s with
      | (.ok b, s') => f b s'
      | (.error e, s') => (.error e, s') := by
  change (match c s with | (r, s') => ExceptT.bindCont f r s') = _
  rcases c s with ⟨_ | _, _⟩ <;> rfl

theorem map_apply (f : β → γ) (c : ExceptT ε (StateM σ) β) (s : σ) :
    (f <$> c) s = ((c s).1.map f, (c s).2) := by
  rw [map_eq_pure_bind, bind_apply]
  rcases c s with ⟨_ | _, _⟩ <;> rfl

theorem tryCatch_apply (c : ExceptT ε (StateM σ) β) (handle : ε → ExceptT ε (StateM σ) β) (s : σ) :
    (tryCatch c handle) s = match c s with
      | (.ok b, s') => (.ok b, s')
      | (.error e, s') => handle e s' := by
  change (match c s with | (r, s') => (match r with
    | .ok b => (pure (.ok b) : StateM σ (Except ε β))
    | .error e => handle e) s') = _
  rcases c s with ⟨_ | _, _⟩ <;> rfl

theorem mapM_lift_apply (f : β → Except ε γ) (xs : List β) (s : σ) :
    (xs.mapM fun x => (liftM (f x) : ExceptT ε (StateM σ) γ)) s = (xs.mapM f, s) := by
  induction xs with
  | nil => rfl
  | cons x r ih =>
    rw [List.mapM_cons, List.mapM_cons, bind_apply, lift_apply]
    cases f x with
    | error e => rfl
    | ok y =>
      simp only
      rw [bind_apply, ih]
      cases r.mapM f <;> rfl

theorem lift_bind_ok {x : Except ε β} {b : β} (h : x = .ok b) (f : β → ExceptT ε (StateM σ) γ)
    (s : σ) : (liftM x >>= f) s = f b s := by
  rw [bind_apply, lift_apply, h]

theorem ok_of_bind {c : ExceptT ε (StateM σ) β} {f : β → ExceptT ε (StateM σ) γ} {s : σ} {d : γ}
    (h : ((c >>= f) s).1 = .ok d) : ∃ b s', c s = (.ok b, s') ∧ (c >>= f) s = f b s' := by
  rw [bind_apply] at h ⊢
  rcases hc : c s with ⟨_ | b, s'⟩
  · rw [hc] at h
    cases h
  · exact ⟨b, s', rfl, rfl⟩

theorem ok_of_lift_bind {x : Except ε β} {f : β → ExceptT ε (StateM σ) γ} {s : σ} {c : γ}
    (h : ((liftM x >>= f) s).1 = .ok c) : ∃ b, x = .ok b ∧ (liftM x >>= f) s = f b s := by
  rw [bind_apply, lift_apply] at h ⊢
  cases x with
  | error e => cases h
  | ok b => exact ⟨b, rfl, rfl⟩

/-! ## What is left -/

section

variable {P : σ → Prop} {s : σ}

theorem get_bind (f : σ → ExceptT ε (StateM σ) γ) (s : σ) : (get >>= f) s = f s s := rfl

theorem set_bind (s' : σ) (f : PUnit → ExceptT ε (StateM σ) γ) (s : σ) :
    (set s' >>= f) s = f ⟨⟩ s' := rfl

theorem leaves_map {c : ExceptT ε (StateM σ) β} (f : β → γ) (h : P (c s).2) :
    P ((f <$> c) s).2 := by
  rw [map_apply]
  exact h

theorem leaves_lift {x : Except ε β} {f : β → ExceptT ε (StateM σ) γ} (h : P s)
    (hf : ∀ b, x = .ok b → P (f b s).2) : P ((liftM x >>= f) s).2 := by
  rw [bind_apply, lift_apply]
  cases x with
  | error e => exact h
  | ok b => exact hf b rfl

theorem leaves_bind {c : ExceptT ε (StateM σ) β} {f : β → ExceptT ε (StateM σ) γ}
    (h : P (c s).2) (hf : ∀ b s', P s' → P (f b s').2) : P ((c >>= f) s).2 := by
  rw [bind_apply]
  rcases hc : c s with ⟨_ | b, s'⟩
  · rw [hc] at h
    exact h
  · rw [hc] at h
    exact hf b s' h

end

/-! ## All or nothing -/

/-- A computation that fails leaves the state as it is. -/
def Atomic (c : ExceptT ε (StateM σ) β) (s : σ) : Prop := ∀ e, (c s).1 = .error e → (c s).2 = s

namespace Atomic

variable {c : ExceptT ε (StateM σ) β} {s : σ}

theorem of_ok {b : β} (h : (c s).1 = .ok b) : Atomic c s := by
  intro e he
  rw [h] at he
  cases he

theorem get_bind {f : σ → ExceptT ε (StateM σ) γ} (h : Atomic (f s) s) : Atomic (get >>= f) s := h

theorem throw (e : ε) : Atomic (MonadExcept.throw e : ExceptT ε (StateM σ) β) s := fun _ _ => rfl

theorem map (f : β → γ) (h : Atomic c s) : Atomic (f <$> c) s := by
  intro e he
  rw [map_apply] at he ⊢
  rcases hc : (c s).1 with e' | b
  · exact h e' hc
  · rw [hc] at he
    cases he

theorem lift_bind {x : Except ε β} {f : β → ExceptT ε (StateM σ) γ}
    (h : ∀ b, x = .ok b → Atomic (f b) s) : Atomic (liftM x >>= f) s := by
  intro e he
  rw [bind_apply, lift_apply] at he ⊢
  cases x with
  | error _ => rfl
  | ok b => exact h b rfl e he

theorem bind_ok {f : β → ExceptT ε (StateM σ) γ} (h : Atomic c s)
    (hf : ∀ b s', ∃ d, (f b s').1 = .ok d) : Atomic (c >>= f) s := by
  intro e he
  rw [bind_apply] at he ⊢
  rcases hc : c s with ⟨e' | b, s'⟩
  · have hs : (c s).2 = s := h e' (by rw [hc])
    rw [hc] at hs
    exact hs
  · obtain ⟨d, hd⟩ := hf b s'
    rw [hc] at he
    cases hd.symm.trans he

end Atomic

/-! ## What is kept and answered -/

/-- From a state of `I`, a computation leaves one of `I` and answers with `Q`. -/
def Ensures (I : σ → Prop) (c : ExceptT ε (StateM σ) β) (Q : β → Prop) : Prop :=
  ∀ s, I s → I (c s).2 ∧ ∀ b, (c s).1 = .ok b → Q b

namespace Ensures

variable {I : σ → Prop} {c : ExceptT ε (StateM σ) β} {Q Q' : β → Prop} {R : γ → Prop}

theorem pure {b : β} (h : Q b) : Ensures I (Pure.pure b : ExceptT ε (StateM σ) β) Q := by
  refine fun s hs => ⟨hs, fun a ha => ?_⟩
  cases ha
  exact h

theorem throw (e : ε) : Ensures I (MonadExcept.throw e : ExceptT ε (StateM σ) β) Q := by
  refine fun s hs => ⟨hs, fun a ha => ?_⟩
  cases ha

theorem bind {f : β → ExceptT ε (StateM σ) γ} (hc : Ensures I c Q)
    (hf : ∀ b, Q b → Ensures I (f b) R) : Ensures I (c >>= f) R := by
  intro s hs
  obtain ⟨hs', hq⟩ := hc s hs
  rw [bind_apply]
  rcases hr : c s with ⟨_ | b, s'⟩
  · rw [hr] at hs'
    refine ⟨hs', fun a ha => ?_⟩
    cases ha
  · rw [hr] at hs' hq
    exact hf b (hq b rfl) s' hs'

theorem lift {x : Except ε β} (h : ∀ b, x = .ok b → Q b) :
    Ensures I (liftM x : ExceptT ε (StateM σ) β) Q := by
  refine fun s hs => ⟨hs, fun a ha => ?_⟩
  rw [lift_apply] at ha
  exact h a ha

theorem mono (hc : Ensures I c Q) (h : ∀ b, Q b → Q' b) : Ensures I c Q' := by
  refine fun s hs => ⟨(hc s hs).1, fun b hb => ?_⟩
  exact h b ((hc s hs).2 b hb)

end Ensures

/-! ## How a computation ends -/

/-- An answer that `Q` holds of, or a failure that `E` holds of. -/
inductive Settled (E : ε → Prop) (Q : β → Prop) : Except ε β → Prop
  | ok {b : β} (answer : Q b) : Settled E Q (.ok b)
  | error {e : ε} (failure : E e) : Settled E Q (.error e)

namespace Settled

variable {E E' : ε → Prop} {Q Q' : β → Prop} {r : Except ε β}

theorem of_ok {b : β} (h : Settled E Q (.ok b)) : Q b := by
  cases h with
  | ok answer => exact answer

theorem of_error {e : ε} (h : Settled E Q (.error e)) : E e := by
  cases h with
  | error failure => exact failure

theorem mono (h : Settled E Q r) (he : ∀ e, E e → E' e) (hq : ∀ b, Q b → Q' b) :
    Settled E' Q' r := by
  cases h with
  | ok answer => exact .ok (hq _ answer)
  | error failure => exact .error (he _ failure)

end Settled

/-- From a state of `I`, a computation leaves one of `I` and is settled. -/
def Settles (I : σ → Prop) (c : ExceptT ε (StateM σ) β) (E : ε → Prop) (Q : β → Prop) : Prop :=
  ∀ s, I s → I (c s).2 ∧ Settled E Q (c s).1

namespace Settles

variable {I : σ → Prop} {c : ExceptT ε (StateM σ) β} {E E' : ε → Prop} {Q Q' : β → Prop}
  {R : γ → Prop}

theorem pure {b : β} (h : Q b) : Settles I (Pure.pure b : ExceptT ε (StateM σ) β) E Q :=
  fun _ hs => ⟨hs, .ok h⟩

theorem throw {e : ε} (h : E e) : Settles I (MonadExcept.throw e : ExceptT ε (StateM σ) β) E Q :=
  fun _ hs => ⟨hs, .error h⟩

theorem bind {f : β → ExceptT ε (StateM σ) γ} (hc : Settles I c E Q)
    (hf : ∀ b, Q b → Settles I (f b) E R) : Settles I (c >>= f) E R := by
  intro s hs
  obtain ⟨hi, h⟩ := hc s hs
  rw [bind_apply]
  rcases hr : c s with ⟨e | b, s'⟩
  · rw [hr] at hi h
    exact ⟨hi, .error h.of_error⟩
  · rw [hr] at hi h
    exact hf b h.of_ok s' hi

theorem mono (hc : Settles I c E Q) (he : ∀ e, E e → E' e) (hq : ∀ b, Q b → Q' b) :
    Settles I c E' Q' := fun s hs => ⟨(hc s hs).1, (hc s hs).2.mono he hq⟩

theorem reached (hc : Settles I c E Q) :
    Settles I c E fun b => Q b ∧ ∃ s, I s ∧ (c s).1 = .ok b := by
  intro s hs
  obtain ⟨hi, h⟩ := hc s hs
  refine ⟨hi, ?_⟩
  cases hr : (c s).1 with
  | error e =>
    rw [hr] at h
    exact .error h.of_error
  | ok b =>
    rw [hr] at h
    exact .ok ⟨h.of_ok, s, hs, hr⟩

end Settles

end Equilibria.Calls
