import Equilibria.Proofs.Pairs

/-!
# Pairings are one-to-one

A table of pairs is a partial bijection after every run of calls, failing ones among them. A call
is accepted if and only if its batch keeps the table one-to-one, and one that is refused says what
is in the way.
-/

namespace Equilibria

open Calls

namespace Pairing

/-! ## Keys in the way -/

/-- A key that is paired already, or stands twice in the batch. -/
def Obstructs (taken keys : List Key) (k : Key) : Prop :=
  taken.contains k = true ∨ 2 ≤ keys.countP (· == k)

/-- The keys of a batch that are in the way, each once. -/
structure Obstacles (taken keys found : List Key) : Prop where
  among : ∀ k ∈ found, k ∈ keys
  once : found.Pairwise fun a b => (a == b) = false
  all : ∀ k, found.contains k = true ↔ keys.contains k = true ∧ Obstructs taken keys k

theorem contains_congr {keys : List Key} {k l : Key} (h : (k == l) = true) :
    keys.contains k = keys.contains l := by
  rw [Bool.eq_iff_iff]
  constructor
  · exact fun hk => Key.contains_of_contains hk h
  · exact fun hl => Key.contains_of_contains hl (BEq.symm h)

theorem countP_pos_iff_contains {keys : List Key} {k : Key} :
    0 < keys.countP (· == k) ↔ keys.contains k = true := by
  rw [List.countP_pos_iff, Key.contains_iff]

theorem obstructs_cons {taken seen : List Key} {x k : Key} : Obstructs taken (x :: seen) k ↔
    Obstructs taken seen k ∨ ((x == k) = true ∧ seen.contains k = true) := by
  have hcount (n : Nat) : 2 ≤ n + 1 ↔ 2 ≤ n ∨ 0 < n := by omega
  rw [Obstructs, Obstructs, List.countP_cons]
  cases x == k with
  | true => simp only [if_true, true_and, hcount, or_assoc, countP_pos_iff_contains]
  | false => simp

theorem contains_note {found : List Key} {x k : Key} {inTheWay : Bool} :
    (if inTheWay && !found.contains x then found ++ [x] else found).contains k = true ↔
      found.contains k = true ∨ ((x == k) = true ∧ inTheWay = true) := by
  have hfound : (x == k) = true → found.contains x = found.contains k := contains_congr
  split
  · rename_i h
    rw [List.contains_append, Bool.or_eq_true, List.contains_cons, List.contains_nil,
      Bool.or_false, BEq.comm, (Bool.and_eq_true_iff.1 h).1]
    simp
  · grind

theorem Obstacles.step {taken seen found : List Key} (h : Obstacles taken seen found) (x : Key) :
    Obstacles taken (x :: seen)
      (if (taken.contains x || seen.contains x) && !found.contains x then found ++ [x]
        else found) := by
  refine ⟨?_, ?_, fun k => ?_⟩
  · intro k hk
    split at hk
    · rcases List.mem_append.1 hk with hk | hk
      · exact List.mem_cons_of_mem _ (h.among k hk)
      · exact List.mem_cons.2 (.inl (List.mem_singleton.1 hk))
    · exact List.mem_cons_of_mem _ (h.among k hk)
  · split
    · rename_i hnew
      rw [Bool.and_eq_true, Bool.not_eq_true', Bool.eq_false_iff, Ne, Key.contains_iff] at hnew
      refine List.pairwise_append.2 ⟨h.once, List.pairwise_singleton .., fun a ha b hb => ?_⟩
      rw [List.mem_singleton.1 hb, Bool.eq_false_iff]
      exact fun hax => hnew.2 ⟨a, ha, hax⟩
    · exact h.once
  · have hseen : Obstructs taken seen k ↔ taken.contains k = true ∨ 2 ≤ seen.countP (· == k) := .rfl
    have hcount : 2 ≤ seen.countP (· == k) → seen.contains k = true := fun hc =>
      countP_pos_iff_contains.1 (Nat.lt_of_lt_of_le Nat.zero_lt_two hc)
    have hkx : (k == x) = (x == k) := BEq.comm
    rw [contains_note, h.all k, obstructs_cons, List.contains_cons, Bool.or_eq_true, hkx]
    cases hk : x == k with
    | true =>
      rw [contains_congr hk, contains_congr hk, Bool.or_eq_true]
      tauto
    | false => simp

theorem Obstacles.run {taken seen found : List Key} (h : Obstacles taken seen found)
    (keys : List Key) : Obstacles taken (keys.reverse ++ seen) (repeated taken seen found keys) := by
  induction keys generalizing seen found with
  | nil => exact h
  | cons x r ih =>
    have hstep := h.step x
    rw [repeated, List.reverse_cons, List.append_assoc, List.singleton_append]
    split
    · rename_i hadd
      rw [if_pos hadd] at hstep
      exact ih hstep
    · rename_i hkeep
      rw [if_neg hkeep] at hstep
      exact ih hstep

theorem obstacles_repeated (taken keys : List Key) :
    Obstacles taken keys (repeated taken [] [] keys) := by
  have hempty : Obstacles taken [] [] := by
    refine ⟨fun _ hk => hk, .nil, fun k => ?_⟩
    simp
  have h := hempty.run keys
  rw [List.append_nil] at h
  refine ⟨fun k hk => List.mem_reverse.1 (h.among k hk), h.once, fun k => ?_⟩
  rw [h.all k, Obstructs, Obstructs, List.contains_reverse, List.countP_reverse]

theorem Obstacles.eq_nil_iff {taken keys found : List Key} (h : Obstacles taken keys found) :
    found = [] ↔ ∀ k ∈ keys, ¬ Obstructs taken keys k := by
  constructor
  · rintro rfl k hk ho
    have := (h.all k).2 ⟨Key.contains_of_mem hk, ho⟩
    cases this
  · intro hnone
    cases found with
    | nil => rfl
    | cons k r =>
      have hk := (h.all k).1 (Key.contains_of_mem List.mem_cons_self)
      exact absurd hk.2 (hnone k (h.among k List.mem_cons_self))

theorem proper_append_iff {taken keys : List Key} (ht : Key.Proper taken) :
    Key.Proper (taken ++ keys) ↔
      keys.all Key.isFixed = true ∧ repeated taken [] [] keys = [] := by
  constructor
  · intro h
    obtain ⟨-, hd, hnew⟩ := List.pairwise_append.1 h.distinct
    refine ⟨List.all_eq_true.2 fun k hk => h.fixed k (List.mem_append_right _ hk), ?_⟩
    refine repeated_of_proper hd fun k hk => ⟨?_, List.contains_nil⟩
    rw [Bool.eq_false_iff, Ne, Key.contains_iff]
    rintro ⟨a, ha, hak⟩
    rw [hnew a ha k hk] at hak
    cases hak
  · rintro ⟨hf, hr⟩
    exact proper_of_repeated hr hf ht

/-! ## Batches -/

structure Batch where
  residuals : List Key
  vars : List Key

namespace Batch

def pairs (b : Batch) : List Pair := List.zipWith Pair.mk b.residuals b.vars

def record (b : Batch) : Call Pairing (List Pair) := do
  let t ← get
  let (t', pairs) ← t.correspond b.residuals b.vars
  set t'
  return pairs

def Fixed (b : Batch) : Prop :=
  (∀ k ∈ b.residuals, k.isFixed = true) ∧ ∀ k ∈ b.vars, k.isFixed = true

theorem fixed_iff (b : Batch) :
    b.Fixed ↔ b.residuals.all Key.isFixed = true ∧ b.vars.all Key.isFixed = true := by
  rw [Fixed, List.all_eq_true, List.all_eq_true]

def Free (b : Batch) (t : Pairing) : Prop :=
  (∀ k ∈ b.residuals, ¬ Obstructs t.residuals b.residuals k) ∧
    ∀ k ∈ b.vars, ¬ Obstructs t.vars b.vars k

theorem free_iff (b : Batch) (t : Pairing) :
    b.Free t ↔ repeated t.vars [] [] b.vars = [] ∧ repeated t.residuals [] [] b.residuals = [] := by
  rw [(obstacles_repeated ..).eq_nil_iff, (obstacles_repeated ..).eq_nil_iff, and_comm]
  exact Iff.rfl

/-- What a call does to the table, with the reason if it is refused. -/
inductive Effect (b : Batch) (t : Pairing) : Except Error (List Pair) × Pairing → Prop
  | recorded (t' : Pairing) (aligned : b.residuals.length = b.vars.length) (fixed : b.Fixed)
      (free : b.Free t) (pairs : t'.pairs = t.pairs ++ b.pairs) : Effect b t (.ok b.pairs, t')
  | unaligned (lengths : b.residuals.length ≠ b.vars.length) :
      Effect b t (.error (.cardinality b.residuals.length b.vars.length), t)
  | unusable (aligned : b.residuals.length = b.vars.length) (unfixed : ¬ b.Fixed) :
      Effect b t (.error .wrongType, t)
  | obstructed (aligned : b.residuals.length = b.vars.length) (fixed : b.Fixed)
      (obstructed : ¬ b.Free t) (vs rs : List Key) (vars : Obstacles t.vars b.vars vs)
      (residuals : Obstacles t.residuals b.residuals rs) :
      Effect b t (.error (.alreadyPaired vs rs), t)

theorem correspond_free {b : Batch} {t : Pairing} (hl : b.residuals.length = b.vars.length)
    (hf : b.Fixed) (h : b.Free t) :
    ∃ t', t.correspond b.residuals b.vars = .ok (t', b.pairs) ∧ t'.pairs = t.pairs ++ b.pairs := by
  obtain ⟨hv, hr⟩ := (b.free_iff t).1 h
  unfold correspond
  rw [dif_pos hl, dif_pos (b.fixed_iff.1 hf)]
  split
  · exact ⟨_, rfl, rfl⟩
  · rename_i hne
    exact absurd hr (hne hv)

theorem correspond_obstructed {b : Batch} {t : Pairing} (hl : b.residuals.length = b.vars.length)
    (hf : b.Fixed) (h : ¬ b.Free t) : t.correspond b.residuals b.vars =
      .error (.alreadyPaired (repeated t.vars [] [] b.vars)
        (repeated t.residuals [] [] b.residuals)) := by
  unfold correspond
  rw [dif_pos hl, dif_pos (b.fixed_iff.1 hf)]
  split
  · rename_i hv hr
    exact absurd ((b.free_iff t).2 ⟨hv, hr⟩) h
  · rfl

theorem record_apply (b : Batch) (t : Pairing) :
    b.record t = match t.correspond b.residuals b.vars with
      | .ok (t', pairs) => (.ok pairs, t')
      | .error e => (.error e, t) := by
  unfold record
  rw [get_bind, bind_apply, lift_apply]
  cases t.correspond b.residuals b.vars <;> rfl

theorem effect_record (b : Batch) (t : Pairing) : Effect b t (b.record t) := by
  rw [record_apply]
  by_cases hl : b.residuals.length = b.vars.length
  · by_cases hf : b.Fixed
    · by_cases h : b.Free t
      · obtain ⟨t', ht, hpairs⟩ := correspond_free hl hf h
        rw [ht]
        exact .recorded t' hl hf h hpairs
      · rw [correspond_obstructed hl hf h]
        exact .obstructed hl hf h _ _ (obstacles_repeated ..) (obstacles_repeated ..)
    · rw [correspond, dif_pos hl, dif_neg fun h => hf (b.fixed_iff.2 h)]
      exact .unusable hl hf
  · rw [correspond, dif_neg hl]
    exact .unaligned hl

theorem free_iff_proper (b : Batch) (t : Pairing) :
    b.Fixed ∧ b.Free t ↔
      Key.Proper (t.residuals ++ b.residuals) ∧ Key.Proper (t.vars ++ b.vars) := by
  rw [free_iff, fixed_iff, proper_append_iff t.proper_residuals, proper_append_iff t.proper_vars]
  tauto

theorem accepted_iff (b : Batch) (t : Pairing) :
    (∃ pairs, (b.record t).1 = .ok pairs) ↔
      b.residuals.length = b.vars.length ∧ b.Fixed ∧ b.Free t := by
  have h := effect_record b t
  generalize b.record t = r at h
  cases h with
  | recorded t' aligned fixed free pairs =>
    exact ⟨fun _ => ⟨aligned, fixed, free⟩, fun _ => ⟨_, rfl⟩⟩
  | unaligned lengths => exact ⟨fun ⟨_, h⟩ => (nomatch h), fun h => absurd h.1 lengths⟩
  | unusable aligned unfixed => exact ⟨fun ⟨_, h⟩ => (nomatch h), fun h => absurd h.2.1 unfixed⟩
  | obstructed aligned fixed obstructed vs rs vars residuals =>
    exact ⟨fun ⟨_, h⟩ => (nomatch h), fun h => absurd h.2.2 obstructed⟩

end Batch

/-! ## Looking up -/

/-- One side of a table: `has` finds its keys and `other` their partners. -/
structure Side (t : Pairing) (here there : Pair → Key) (has : Key → Except Error Bool)
    (other : Key → Except Error Key) (missing : Key → Error) : Prop where
  distinct : (t.pairs.map here).Pairwise fun a b => (a == b) = false
  has_iff : ∀ k, has k = .ok true ↔ ∃ p ∈ t.pairs, (here p == k) = true
  other_iff : ∀ k l, other k = .ok l ↔ ∃ p ∈ t.pairs, (here p == k) = true ∧ there p = l
  absent : ∀ k, k.isFixed = true → (∀ p ∈ t.pairs, (here p == k) = false) →
    has k = .ok false ∧ other k = .error (missing k) ∧ (missing k).kind = "KeyError"
  unusable : ∀ k, k.isFixed = false → has k = .error .wrongType ∧ other k = .error .wrongType

theorem side {t : Pairing} {here there : Pair → Key} {other : Key → Except Error Key}
    {missing : Key → Error} (hproper : Key.Proper (t.pairs.map here))
    (hother : ∀ k, other k = if !k.isFixed then .error .wrongType else
      match t.pairs.find? (here · == k) with
      | some p => .ok (there p)
      | none => .error (missing k))
    (hkind : ∀ k, (missing k).kind = "KeyError") :
    Side t here there (lookUp (t.pairs.map here)) other missing := by
  have hfixed : ∀ k, ∀ p ∈ t.pairs, (here p == k) = true → k.isFixed = true := by
    intro k p hp hk
    rw [← Key.fixed_of_beq hk]
    exact hproper.fixed _ (List.mem_map_of_mem hp)
  have hfind : ∀ k, ∀ p ∈ t.pairs, (here p == k) = true → other k = .ok (there p) := by
    intro k p hp hk
    rw [hother, hfixed k p hp hk, hproper.find?_eq hp hk]
    rfl
  have hcontains : ∀ k, (t.pairs.map here).contains k = true ↔
      ∃ p ∈ t.pairs, (here p == k) = true := by
    intro k
    simp only [Key.contains_iff, List.mem_map, exists_exists_and_eq_and]
  refine ⟨hproper.distinct, fun k => ?_, fun k l => ⟨fun h => ?_, ?_⟩, fun k hk hnone => ?_,
    fun k hk => ?_⟩
  · rw [← hcontains, lookUp]
    split
    · rw [Except.ok.injEq]
    · rename_i hunfixed
      constructor
      · intro h
        cases h
      · intro h
        obtain ⟨p, hp, hpk⟩ := (hcontains k).1 h
        exact absurd (hfixed k p hp hpk) hunfixed
  · rw [hother] at h
    split at h
    · cases h
    · split at h
      · rename_i p hp
        have hpk := List.find?_some (p := fun p => here p == k) hp
        cases h
        exact ⟨p, List.mem_of_find?_eq_some hp, hpk, rfl⟩
      · cases h
  · rintro ⟨p, hp, hk, rfl⟩
    exact hfind k p hp hk
  · have hno : (t.pairs.map here).contains k = false := by
      rw [Bool.eq_false_iff, Ne, hcontains]
      rintro ⟨p, hp, hpk⟩
      rw [hnone p hp] at hpk
      cases hpk
    have hfind? : t.pairs.find? (here · == k) = none := by
      rw [List.find?_eq_none]
      intro p hp
      rw [hnone p hp]
      exact Bool.false_ne_true
    rw [lookUp, if_pos hk, hno, hother, hk, hfind?]
    exact ⟨rfl, rfl, hkind k⟩
  · rw [lookUp, hother, hk]
    exact ⟨rfl, rfl⟩

/-- A partial bijection between the keys on the two sides. -/
structure OneToOne (t : Pairing) : Prop where
  aligned : t.residuals.length = t.vars.length
  vars : Side t (·.var) (·.res) t.hasVariable t.residualFor .variableUnpaired
  residuals : Side t (·.res) (·.var) t.hasResidual t.variableFor .residualUnpaired
  var_back : ∀ v r, t.residualFor v = .ok r → ∃ v', t.variableFor r = .ok v' ∧ (v' == v) = true
  residual_back : ∀ r v, t.variableFor r = .ok v →
    ∃ r', t.residualFor v = .ok r' ∧ (r' == r) = true

theorem oneToOne (t : Pairing) : t.OneToOne := by
  have hvars : Side t (·.var) (·.res) t.hasVariable t.residualFor .variableUnpaired :=
    side t.proper_vars (fun _ => rfl) fun _ => rfl
  have hresiduals : Side t (·.res) (·.var) t.hasResidual t.variableFor .residualUnpaired :=
    side t.proper_residuals (fun _ => rfl) fun _ => rfl
  refine ⟨?_, hvars, hresiduals, fun v r h => ?_, fun r v h => ?_⟩
  · rw [vars, residuals, List.length_map, List.length_map]
  · obtain ⟨p, hp, hv, rfl⟩ := (hvars.other_iff v r).1 h
    exact ⟨p.var, (hresiduals.other_iff _ _).2 ⟨p, hp, BEq.rfl, rfl⟩, hv⟩
  · obtain ⟨p, hp, hr, rfl⟩ := (hresiduals.other_iff r v).1 h
    exact ⟨p.res, (hvars.other_iff _ _).2 ⟨p, hp, BEq.rfl, rfl⟩, hr⟩

/-! ## Runs -/

def after (t : Pairing) (batches : List Batch) : Pairing :=
  batches.foldl (fun t b => (b.record t).2) t

def accepted : Pairing → List Batch → List Batch
  | _, [] => []
  | t, b :: rest =>
    match b.record t with
    | (.ok _, t') => b :: accepted t' rest
    | (.error _, t') => accepted t' rest

theorem pairs_after (t : Pairing) (batches : List Batch) :
    (after t batches).pairs = t.pairs ++ (accepted t batches).flatMap Batch.pairs := by
  induction batches generalizing t with
  | nil => exact (List.append_nil _).symm
  | cons b rest ih =>
    have hrun : after t (b :: rest) = after (b.record t).2 rest := rfl
    have h := b.effect_record t
    rw [hrun, ih, accepted]
    generalize b.record t = r at h
    cases h with
    | recorded t' _ _ _ pairs => rw [pairs, List.flatMap_cons, List.append_assoc]
    | unaligned | unusable | obstructed => rfl

/-- After every run of calls the table is one-to-one, and the next call is accepted just if no key
is in its way. -/
theorem oneToOne_after (batches : List Batch) (b : Batch) :
    let t := after .empty batches
    let aligned := b.residuals.length = b.vars.length
    t.OneToOne ∧ b.Effect t (b.record t) ∧
      ((∃ pairs, (b.record t).1 = .ok pairs) ↔ aligned ∧ b.Fixed ∧ b.Free t) ∧
      ((∃ pairs, (b.record t).1 = .ok pairs) ↔ aligned ∧
        Key.Proper (t.residuals ++ b.residuals) ∧ Key.Proper (t.vars ++ b.vars)) := by
  intro t aligned
  refine ⟨t.oneToOne, b.effect_record t, b.accepted_iff t, ?_⟩
  rw [b.accepted_iff, b.free_iff_proper]

def listIndexed : Batch := ⟨[⟨"F", [.list []]⟩], [⟨"x", []⟩]⟩

/-- A key that cannot be looked up is of the wrong type for every question about it. -/
theorem refused_of_listIndexed :
    let t := after .empty []
    ¬ ((∃ pairs, (listIndexed.record t).1 = .ok pairs) ↔
        listIndexed.residuals.length = listIndexed.vars.length ∧ listIndexed.Free t) ∧
      ¬ ∃ e, t.variableFor ⟨"F", [.list []]⟩ = .error e ∧ e.kind = "KeyError" := by
  intro t
  constructor
  · intro h
    have hfree : listIndexed.Free t := (Batch.free_iff ..).2 ⟨rfl, rfl⟩
    obtain ⟨pairs, hpairs⟩ := h.2 ⟨rfl, hfree⟩
    cases hpairs
  · rintro ⟨e, he, hkind⟩
    cases he
    revert hkind
    decide

end Pairing

end Equilibria
