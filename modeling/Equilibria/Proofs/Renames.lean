import Equilibria.Proofs.Changes

/-!
# Variables that are renamed

A registry finds each variable under the key that it was registered with. A key that is assigned to
the variable later is its own only: the registry does not learn of it. A variable with another key
can be registered once more, and is then at several places at once.
-/

namespace Equilibria

open Fallible

namespace Registry

variable {α : Type}

/-! ## Looking up -/

theorem position_iff (r : Registry α) {i : Nat} {k : Key} :
    r.position k = .ok i ↔ ∃ a, r.keys[i]? = some a ∧ (a == k) = true := by
  refine ⟨?_, fun ⟨a, hi, hk⟩ => r.position_eq hi hk⟩
  intro h
  obtain ⟨found, hfound, h⟩ := bind_eq_ok.1 h
  unfold position? at hfound
  split at hfound
  · cases found with
    | none => cases h
    | some j =>
      cases h
      obtain ⟨hj, hk, -⟩ := List.findIdx?_eq_some_iff_getElem.1 (Except.ok.inj hfound)
      exact ⟨_, List.getElem?_eq_getElem hj, hk⟩
  · cases hfound

theorem place_eq (r : Registry α) {i j : Nat} {a b : Key} (hi : r.keys[i]? = some a)
    (hj : r.keys[j]? = some b) (h : (a == b) = true) : i = j :=
  Except.ok.inj ((r.position_eq hi h).symm.trans (r.position_eq hj BEq.rfl))

theorem at?_eq {r : Registry α} {i : Nat} : r.at? i = r.entries[i]?.map (·.2) :=
  List.getElem?_map

theorem lt_size {r : Registry α} {i : Nat} {v : Variable α} (hv : r.at? i = some v) :
    i < r.size := by
  have hi := (List.getElem?_eq_some_iff.1 hv).1
  rwa [vars, List.length_map] at hi

theorem keys_getElem? {r : Registry α} {i : Nat} {e : Key × Variable α}
    (he : r.entries[i]? = some e) : r.keys[i]? = some e.1 := by
  rw [keys, List.getElem?_map, he]
  rfl

theorem entries_left {r r' : Registry α} {vs : List (Variable α)}
    (h : r'.entries = r.entries ++ vs.map fun v => (v.key, v)) {i : Nat} (hi : i < r.size) :
    r'.entries[i]? = r.entries[i]? := by
  rw [h, List.getElem?_append_left hi]

theorem entries_right {r r' : Registry α} {vs : List (Variable α)}
    (h : r'.entries = r.entries ++ vs.map fun v => (v.key, v)) {i : Nat} (hi : r.size ≤ i) :
    r'.entries[i]? = vs[i - r.size]?.map fun v => (v.key, v) := by
  rw [h, List.getElem?_append_right hi, List.getElem?_map]
  rfl

theorem size_of_addAll {r r' : Registry α} {vs : List (Variable α)} (h : r.addAll vs = .ok r') :
    r'.size = r.size + vs.length := by
  rw [size, entries_of_addAll h, List.length_append, List.length_map, size]

/-- Each variable has the same key as the one that it is registered under. -/
def InStep (r : Registry α) : Prop := ∀ e ∈ r.entries, (e.1 == e.2.key) = true

/-! ## Handles -/

def spread (r : Registry α) (here : Nat → Bool) (v : Variable α) : Registry α where
  entries := r.entries.mapIdx fun j e => if here j then (e.1, v) else e
  proper := by
    have h : (r.entries.mapIdx fun j e => if here j then (e.1, v) else e).map (·.1) = r.keys := by
      apply List.ext_getElem?
      intro j
      rw [List.getElem?_map, List.getElem?_mapIdx, keys, List.getElem?_map]
      cases r.entries[j]? <;> simp [apply_ite]
    rw [h]
    exact r.proper

theorem entries_spread (r : Registry α) (here : Nat → Bool) (v : Variable α) (j : Nat) :
    (r.spread here v).entries[j]? =
      r.entries[j]?.map fun e => if here j then (e.1, v) else e := by
  rw [spread, List.getElem?_mapIdx]

@[simp] theorem keys_spread (r : Registry α) (here : Nat → Bool) (v : Variable α) :
    (r.spread here v).keys = r.keys := by
  apply List.ext_getElem?
  intro j
  rw [keys, List.getElem?_map, entries_spread, keys, List.getElem?_map]
  cases r.entries[j]? <;> simp [apply_ite]

theorem spread_put (r : Registry α) {here : Nat → Bool} {i : Nat} (hi : here i = true)
    (v : Variable α) : (r.put i v).spread here v = r.spread here v := by
  apply ext
  apply List.ext_getElem?
  intro j
  rw [entries_spread, entries_spread, put, modify, List.getElem?_modify]
  cases r.entries[j]? with
  | none => rfl
  | some e =>
    by_cases hij : i = j
    · subst hij
      simp [hi]
    · simp [hij]

/-- A registry, and for each of its places the first place of the handle that is there. -/
structure Shared (α : Type) where
  registry : Registry α
  firsts : List Nat

/-- What is registered: a new variable, or once more the one that is at a place. -/
inductive Handle (α : Type) where
  | new (v : Variable α)
  | old (place : Nat)

namespace Shared

def empty : Shared α := ⟨Registry.empty, []⟩

def first (s : Shared α) (i : Nat) : Nat := s.firsts.getD i i

def read (s : Shared α) : Handle α → Except Error (Variable α)
  | .new v => .ok v
  | .old i => (s.registry.at? i).elim (.error .noItem) .ok

theorem read_old {s : Shared α} {i : Nat} {v : Variable α} (h : s.read (.old i) = .ok v) :
    s.registry.at? i = some v := by
  rw [read] at h
  cases hi : s.registry.at? i with
  | none =>
    rw [hi] at h
    cases h
  | some w =>
    rw [hi] at h
    cases h
    rfl

def firstAt (s : Shared α) (place : Nat) : Handle α → Nat
  | .new _ => place
  | .old i => s.first i

def join (s : Shared α) (batch : List (Handle α)) (r : Registry α) : Shared α :=
  ⟨r, s.firsts ++ batch.mapIdx fun j h => s.firstAt (s.registry.size + j) h⟩

def put (s : Shared α) (i : Nat) (v : Variable α) (r : Registry α) : Shared α :=
  { s with registry := r.spread (fun j => s.first j == s.first i) v }

theorem put_again (s : Shared α) (i : Nat) (v : Variable α) :
    s.put i v (s.registry.put i v) = s.put i v s.registry := by
  rw [put, spread_put]
  · rfl
  · exact BEq.rfl

theorem size_put (s : Shared α) (i : Nat) (w : Variable α) (r : Registry α) :
    (s.put i w r).registry.size = r.size := by
  rw [put, spread, size, List.length_mapIdx]
  rfl

theorem at?_put_eq (s : Shared α) (i j : Nat) (w : Variable α) :
    (s.put i w s.registry).registry.at? j =
      (s.registry.at? j).map fun v => if s.first j = s.first i then w else v := by
  rw [at?_eq, put, entries_spread, at?_eq, Option.map_map, Option.map_map]
  congr 1
  funext e
  by_cases h : s.first j = s.first i
  · simp [h]
  · simp [h]

/-! ## Keys of variables -/

/-- All places of a handle have the same variable. It has the key that it was given last, or else
the one that it was registered under at first. -/
structure Logged (log : List (Nat × Key)) (s : Shared α) : Prop where
  length : s.firsts.length = s.registry.size
  first_le : ∀ i, s.first i ≤ i
  first_first : ∀ i, s.first (s.first i) = s.first i
  shared : ∀ i, s.registry.at? i = s.registry.at? (s.first i)
  key : ∀ i e, s.registry.entries[i]? = some e → s.first i = i →
    e.2.key = (log.lookup i).getD e.1
  once : ∀ i, log.lookup (s.first i) = none → s.first i = i
  placed : ∀ p ∈ log, p.1 < s.registry.size

theorem logged_empty : Logged [] (empty : Shared α) where
  length := rfl
  first_le i := Nat.le_refl i
  first_first i := rfl
  shared i := rfl
  key i e h := by cases h
  once i h := rfl
  placed p hp := by cases hp

theorem lookup_of_placed {log : List (Nat × Key)} {n i : Nat} (h : ∀ p ∈ log, p.1 < n)
    (hi : n ≤ i) : log.lookup i = none := by
  rw [List.lookup_eq_none_iff]
  intro p hp
  have := h p hp
  simp only [bne_iff_ne]
  omega

namespace Logged

variable {log : List (Nat × Key)} {s : Shared α}

/-! ### Registering -/

section Join

variable {batch : List (Handle α)} {vs : List (Variable α)} {r : Registry α}

theorem first_lt (h : Logged log s) {i : Nat} (hi : i < s.registry.size) :
    s.first i < s.registry.size := Nat.lt_of_le_of_lt (h.first_le i) hi

theorem first_join_of_lt (h : Logged log s) {i : Nat} (hi : i < s.registry.size) :
    (s.join batch r).first i = s.first i := by
  rw [← h.length] at hi
  rw [first, first, join, List.getD_eq_getElem?_getD, List.getElem?_append_left hi,
    List.getD_eq_getElem?_getD]

theorem at?_join_of_lt (added : s.registry.addAll vs = .ok r) {i : Nat}
    (hi : i < s.registry.size) : (s.join batch r).registry.at? i = s.registry.at? i := by
  rw [at?_eq, join, entries_left (entries_of_addAll added) hi, at?_eq]

theorem first_join (h : Logged log s) (read : batch.mapM s.read = .ok vs)
    (added : s.registry.addAll vs = .ok r) {i : Nat} (hi : s.registry.size ≤ i) :
    (s.join batch r).first i = i ∨ ∃ p v, s.registry.at? p = some v ∧
      (s.join batch r).first i = s.first p ∧ r.entries[i]? = some (v.key, v) := by
  have hfirst : (s.join batch r).first i =
      (batch[i - s.registry.size]?.map fun b => s.firstAt i b).getD i := by
    have hplace : s.registry.size + (i - s.registry.size) = i := by omega
    rw [first, join, List.getD_eq_getElem?_getD, List.getElem?_append_right (h.length ▸ hi),
      List.getElem?_mapIdx, h.length, hplace]
  cases hb : batch[i - s.registry.size]? with
  | none =>
    rw [hb] at hfirst
    exact .inl hfirst
  | some b =>
    rw [hb] at hfirst
    cases b with
    | new v => exact .inl hfirst
    | old p =>
      obtain ⟨v, hv, hread⟩ := getElem?_of_mapM read hb
      refine .inr ⟨p, v, read_old hread, hfirst, ?_⟩
      rw [entries_right (entries_of_addAll added) hi, hv]
      rfl

/-- A handle that was never renamed cannot be registered once more, as its key is taken. -/
theorem ne_old (h : Logged log s) (added : s.registry.addAll vs = .ok r) {i p : Nat}
    {v : Variable α} (hi : s.registry.size ≤ i) (hv : s.registry.at? p = some v)
    (hentry : r.entries[i]? = some (v.key, v)) : log.lookup (s.first p) ≠ none := by
  intro hlog
  have hfirst : s.first p = p := h.once p hlog
  rw [hfirst] at hlog
  obtain ⟨e, he, rfl⟩ := Option.map_eq_some_iff.1 (at?_eq.symm.trans hv)
  have hkey : e.2.key = e.1 := by
    rw [h.key p e he hfirst, hlog]
    rfl
  have hp := (entries_left (entries_of_addAll added) (lt_size hv)).trans he
  have hpi : p = i := r.place_eq (keys_getElem? hp) (keys_getElem? hentry) (hkey ▸ BEq.rfl)
  have := lt_size hv
  omega

theorem join (h : Logged log s) (read : batch.mapM s.read = .ok vs)
    (added : s.registry.addAll vs = .ok r) : Logged log (s.join batch r) where
  length := by
    rw [Shared.join, List.length_append, List.length_mapIdx, h.length, size_of_addAll added,
      length_of_mapM read]
  first_le i := by
    rcases Nat.lt_or_ge i s.registry.size with hi | hi
    · rw [h.first_join_of_lt hi]
      exact h.first_le i
    · rcases h.first_join read added hi with hnew | ⟨p, v, hv, hold, -⟩
      · exact Nat.le_of_eq hnew
      · rw [hold]
        exact Nat.le_of_lt (Nat.lt_of_lt_of_le (h.first_lt (lt_size hv)) hi)
  first_first i := by
    rcases Nat.lt_or_ge i s.registry.size with hi | hi
    · rw [h.first_join_of_lt hi, h.first_join_of_lt (h.first_lt hi), h.first_first]
    · rcases h.first_join read added hi with hnew | ⟨p, v, hv, hold, -⟩
      · rw [hnew, hnew]
      · rw [hold, h.first_join_of_lt (h.first_lt (lt_size hv)), h.first_first]
  shared i := by
    rcases Nat.lt_or_ge i s.registry.size with hi | hi
    · rw [h.first_join_of_lt hi, at?_join_of_lt added hi, at?_join_of_lt added (h.first_lt hi)]
      exact h.shared i
    · rcases h.first_join read added hi with hnew | ⟨p, v, hv, hold, hentry⟩
      · rw [hnew]
      · rw [hold, at?_join_of_lt added (h.first_lt (lt_size hv)), ← h.shared p, hv, at?_eq]
        exact congrArg (Option.map (·.2)) hentry
  key i e he hi := by
    have hentries := entries_of_addAll added
    rcases Nat.lt_or_ge i s.registry.size with hlt | hge
    · rw [h.first_join_of_lt hlt] at hi
      exact h.key i e ((entries_left hentries hlt).symm.trans he) hi
    -- The log says nothing about a new place: all that it names were there before.
    · obtain ⟨v, -, rfl⟩ := Option.map_eq_some_iff.1 ((entries_right hentries hge).symm.trans he)
      rw [lookup_of_placed h.placed hge]
      rfl
  once i hlog := by
    rcases Nat.lt_or_ge i s.registry.size with hi | hi
    · rw [h.first_join_of_lt hi] at hlog ⊢
      exact h.once i hlog
    · rcases h.first_join read added hi with hnew | ⟨p, v, hv, hold, hentry⟩
      · exact hnew
      · rw [hold] at hlog
        exact absurd hlog (h.ne_old added hi hv hentry)
  placed p hp := Nat.lt_of_lt_of_le (h.placed p hp) (size_of_addAll added ▸ Nat.le_add_right ..)

end Join

/-! ### Editing -/

section Put

variable {i : Nat} {v : Variable α}

theorem shared_put (h : Logged log s) (j : Nat) (w : Variable α) :
    (s.put i w s.registry).registry.at? j = (s.put i w s.registry).registry.at? (s.first j) := by
  rw [at?_put_eq, at?_put_eq, h.first_first, ← h.shared]

theorem entry_put (h : Logged log s) (hv : s.registry.at? i = some v) {w : Variable α} {j : Nat}
    {e : Key × Variable α} (he : (s.put i w s.registry).registry.entries[j]? = some e)
    (hj : s.first j = j) :
    (j = s.first i ∧ s.registry.entries[j]? = some (e.1, v) ∧ e.2 = w) ∨
      (j ≠ s.first i ∧ s.registry.entries[j]? = some e) := by
  rw [Shared.put, entries_spread, hj] at he
  obtain ⟨d, hd, rfl⟩ := Option.map_eq_some_iff.1 he
  by_cases hji : j = s.first i
  · have hvar : s.registry.at? j = some v := by rw [hji, ← h.shared, hv]
    rw [at?_eq, hd] at hvar
    cases hvar
    exact .inl ⟨hji, by simpa [hji] using hd, by simp [hji]⟩
  · exact .inr ⟨hji, by simpa [hji] using hd⟩

theorem put (h : Logged log s) (hv : s.registry.at? i = some v) {w : Variable α}
    (hkey : w.key = v.key) : Logged log (s.put i w s.registry) where
  length := h.length.trans (s.size_put i w s.registry).symm
  first_le := h.first_le
  first_first := h.first_first
  shared j := h.shared_put j w
  key j e he hj := by
    rcases h.entry_put hv he hj with ⟨-, hd, hw⟩ | ⟨-, hd⟩
    · rw [hw, hkey]
      exact h.key j _ hd hj
    · exact h.key j e hd hj
  once := h.once
  placed p hp := (s.size_put i w s.registry).symm ▸ h.placed p hp

theorem rename (h : Logged log s) (hv : s.registry.at? i = some v) (w : Variable α) :
    Logged ((s.first i, w.key) :: log) (s.put i w s.registry) where
  length := h.length.trans (s.size_put i w s.registry).symm
  first_le := h.first_le
  first_first := h.first_first
  shared j := h.shared_put j w
  key j e he hj := by
    rcases h.entry_put hv he hj with ⟨rfl, -, hw⟩ | ⟨hne, hd⟩
    · rw [hw, List.lookup_cons_self]
      rfl
    · rw [List.lookup_cons, beq_eq_false_iff_ne.2 hne]
      exact h.key j e hd hj
  once j hlog := by
    rw [List.lookup_cons] at hlog
    split at hlog
    · cases hlog
    · exact h.once j hlog
  placed p hp := by
    rw [size_put]
    rcases List.mem_cons.1 hp with rfl | hp
    · exact h.first_lt (lt_size hv)
    · exact h.placed p hp

end Put

end Logged

/-! ## What a registry knows -/

/-- What a registry knows of the variable at a place. The log has the keys that handles were given,
the last ones first. -/
structure Entered (s : Shared α) (log : List (Nat × Key)) (i : Nat) (k : Key) (v : Variable α) :
    Prop where
  position : s.registry.position k = .ok i
  get : s.registry.get k = .ok v
  first : s.first i ≤ i
  same : ∀ j, s.first j = s.first i → s.registry.at? j = some v
  key : ∃ a, s.registry.keys[s.first i]? = some a ∧ v.key = (log.lookup (s.first i)).getD a
  found : s.registry.position v.key = .ok i ↔ (k == v.key) = true
  answers : (∃ j, s.first j = s.first i ∧ s.registry.position v.key = .ok j) ↔
    ∃ j a, s.first j = s.first i ∧ s.registry.keys[j]? = some a ∧ (a == v.key) = true

namespace Logged

variable {log : List (Nat × Key)} {s s' : Shared α}

theorem key_eq (h : Logged log s) {i : Nat} {e : Key × Variable α}
    (he : s.registry.entries[i]? = some e) :
    ∃ a, s.registry.keys[s.first i]? = some a ∧ e.2.key = (log.lookup (s.first i)).getD a := by
  have hi : s.registry.at? (s.first i) = some e.2 := by rw [← h.shared, at?_eq, he]; rfl
  obtain ⟨d, hd, hde⟩ := Option.map_eq_some_iff.1 (at?_eq.symm.trans hi)
  rw [← hde]
  exact ⟨d.1, keys_getElem? hd, h.key _ d hd (h.first_first i)⟩

theorem entered (h : Logged log s) {i : Nat} {e : Key × Variable α}
    (he : s.registry.entries[i]? = some e) : s.Entered log i e.1 e.2 where
  position := s.registry.position_eq (keys_getElem? he) BEq.rfl
  get := s.registry.get_eq (List.mem_of_getElem? he) BEq.rfl
  first := h.first_le i
  same j hj := by
    rw [h.shared j, hj, ← h.shared i, at?_eq, he]
    rfl
  key := h.key_eq he
  found := by simp [position_iff, keys_getElem? he]
  answers := by simp only [position_iff, exists_and_left]

theorem inStep_iff (h : Logged log s) : s.registry.InStep ↔ ∀ i a k,
    s.registry.keys[i]? = some a → log.lookup (s.first i) = some k → (a == k) = true := by
  constructor
  · intro hstep i a k ha hk
    rw [keys, List.getElem?_map] at ha
    obtain ⟨e, he, rfl⟩ := Option.map_eq_some_iff.1 ha
    obtain ⟨b, -, hkey⟩ := h.key_eq he
    rw [hk] at hkey
    have hsame := hstep e (List.mem_of_getElem? he)
    rwa [hkey] at hsame
  · intro hlog e hmem
    obtain ⟨i, he⟩ := List.getElem?_of_mem hmem
    obtain ⟨b, hb, hkey⟩ := h.key_eq he
    cases hk : log.lookup (s.first i) with
    | none =>
      rw [h.once i hk, keys_getElem? he] at hb
      cases hb
      rw [hkey, hk]
      exact BEq.rfl
    | some k =>
      rw [hkey, hk]
      exact hlog i e.1 k (keys_getElem? he) hk

theorem tied (h : Logged [] s) : s.registry.Tied := by
  rw [Tied, vars, keys, List.map_map]
  refine List.map_congr_left ?_
  intro e hmem
  obtain ⟨i, he⟩ := List.getElem?_of_mem hmem
  exact h.key i e he (h.once i rfl)

end Logged

/-! ## Changes -/

/-- How a registry changes, and the renaming if it is one. -/
inductive Changed (s : Shared α) : Option (Nat × Key) → Shared α → Prop where
  | same : Changed s none s
  | joined (batch : List (Handle α)) (vs : List (Variable α)) (r : Registry α)
    (read : batch.mapM s.read = .ok vs) (added : s.registry.addAll vs = .ok r) :
    Changed s none (s.join batch r)
  | edited (i : Nat) (v v' : Variable α) (found : s.registry.at? i = some v)
    (key : v'.key = v.key) : Changed s none (s.put i v' s.registry)
  | renamed (i : Nat) (v v' : Variable α) (found : s.registry.at? i = some v) :
    Changed s (some (s.first i, v'.key)) (s.put i v' s.registry)

theorem Changed.keys {s s' : Shared α} {given : Option (Nat × Key)} (h : Changed s given s') :
    s.registry.keys <+: s'.registry.keys := by
  cases h with
  | same => exact List.prefix_rfl
  | joined batch vs r read added =>
    rw [Registry.keys, Registry.keys, join, entries_of_addAll added, List.map_append]
    exact List.prefix_append _ _
  | edited i v v' | renamed i v v' =>
    simp only [put, keys_spread, List.prefix_rfl]

theorem Logged.changed {log : List (Nat × Key)} {s s' : Shared α}
    {given : Option (Nat × Key)} (h : Logged log s) (hc : Changed s given s') :
    Logged (given.toList ++ log) s' := by
  cases hc with
  | same => exact h
  | joined batch vs r read added => exact h.join read added
  | edited i v v' hv key => exact h.put hv key
  | renamed i v v' hv => exact h.rename hv v'

end Shared

/-! ## Runs -/

variable [Scalar α]

inductive Change (α : Type) where
  | add (key : Key) (fields : Variable.Fields)
  | addAll (batch : List (Handle α))
  | edit (guard : String → Id (Except Error Unit)) (place : Nat) (edit : Variable.Edit)

namespace Shared

/-- An edit of the variable at a place is one of all places that have its handle. -/
def change (s : Shared α) : Change α → Except Error (Shared α)
  | .add key fields => do return ⟨← s.registry.add key fields, s.firsts ++ [s.registry.size]⟩
  | .addAll batch => do return s.join batch (← s.registry.addAll (← batch.mapM s.read))
  | .edit guard place e => do
    let r ← Id.run (Registry.edit guard place e s.registry)
    return (r.at? place).elim s fun v => s.put place v r

def step (s : Shared α) (c : Change α) : Shared α :=
  match s.change c with
  | .ok s' => s'
  | .error _ => s

def runAll (s : Shared α) (changes : List (Change α)) : Shared α := changes.foldl step s

def renaming? (s : Shared α) : Change α → Option (Nat × Key)
  | .edit _ place (.key value) =>
    (s.registry.at? place).bind fun _ =>
      (Variable.keyField value).get.toOption.map fun key => (s.first place, key)
  | _ => none

/-- All renamings of a run, the last one first. -/
def renamings (s : Shared α) : List (Change α) → List (Nat × Key)
  | [] => []
  | c :: rest => renamings (s.step c) rest ++ (s.renaming? c).toList

theorem change_edit {s s' : Shared α} {guard : String → Id (Except Error Unit)} {i : Nat}
    {e : Variable.Edit} (h : s.change (.edit guard i e) = .ok s') :
    ∃ v v', s.registry.at? i = some v ∧ v.edit e = .ok v' ∧ s' = s.put i v' s.registry := by
  obtain ⟨r, hr, h⟩ := bind_eq_ok.1 h
  obtain ⟨v, v', hv, hedit, rfl, -⟩ := edit_ok hr
  rw [at?_put hv] at h
  cases h
  exact ⟨v, v', hv, hedit, s.put_again i v'⟩

theorem change_key {s : Shared α} {i : Nat} {v : Variable α} (hv : s.registry.at? i = some v)
    (guard : String → Id (Except Error Unit)) (value : Value) :
    s.change (.edit guard i (.key value)) =
      (Variable.keyField value).get.map fun key => s.put i { v with key := key } s.registry := by
  have hedit : Id.run (Registry.edit guard i (.key value) s.registry) =
      (v.edit (.key value)).map (s.registry.put i) := by
    rw [Registry.edit, hv]
    rfl
  rw [change, hedit, Variable.edit]
  cases (Variable.keyField value).get with
  | error e => rfl
  | ok key =>
    change Except.ok (((s.registry.put i { v with key := key }).at? i).elim s _) = _
    rw [at?_put hv]
    exact congrArg Except.ok (s.put_again i _)

theorem change_missing {s : Shared α} {i : Nat} (hv : s.registry.at? i = none)
    (guard : String → Id (Except Error Unit)) (e : Variable.Edit) :
    s.change (.edit guard i e) = .error .noItem := by
  rw [change, Registry.edit, hv]
  rfl

theorem changed_key (s : Shared α) (guard : String → Id (Except Error Unit)) (i : Nat)
    (value : Value) :
    Changed s (s.renaming? (.edit guard i (.key value))) (s.step (.edit guard i (.key value))) := by
  rw [step, renaming?]
  cases hv : s.registry.at? i with
  | none =>
    rw [change_missing hv]
    exact .same
  | some v =>
    rw [change_key hv, Option.bind_some]
    cases (Variable.keyField value).get with
    | error e => exact .same
    | ok key => exact .renamed i v { v with key := key } hv

theorem changed_of_change {s : Shared α} {c : Change α}
    (h : ∀ s', s.change c = .ok s' → Changed s none s') : Changed s none (s.step c) := by
  unfold step
  cases hc : s.change c with
  | error e => exact .same
  | ok s' => exact h s' hc

theorem changed_edit (s : Shared α) (guard : String → Id (Except Error Unit)) (i : Nat)
    {e : Variable.Edit} (he : e.renames = false) :
    Changed s none (s.step (.edit guard i e)) := by
  refine changed_of_change fun s' h => ?_
  obtain ⟨v, v', hv, hedit, rfl⟩ := change_edit h
  exact .edited i v v' hv (Variable.key_of_edit hedit he)

theorem changed_step (s : Shared α) (c : Change α) : Changed s (s.renaming? c) (s.step c) := by
  cases c with
  | add key fields =>
    refine changed_of_change fun s' h => ?_
    obtain ⟨r, hr, h⟩ := bind_eq_ok.1 h
    obtain ⟨v, -, hadd⟩ := of_add hr
    cases h
    exact .joined [.new v] [v] r rfl hadd
  | addAll batch =>
    refine changed_of_change fun s' h => ?_
    obtain ⟨vs, hread, h⟩ := bind_eq_ok.1 h
    obtain ⟨r, hadd, h⟩ := bind_eq_ok.1 h
    cases h
    exact .joined batch vs r hread hadd
  | edit guard i e =>
    cases e with
    | key value => exact s.changed_key guard i value
    | bound | toStart | description | derived | unknown => exact s.changed_edit guard i rfl

theorem keys_runAll (s : Shared α) (changes : List (Change α)) :
    s.registry.keys <+: (s.runAll changes).registry.keys := by
  induction changes generalizing s with
  | nil => exact List.prefix_rfl
  | cons c rest ih => exact (s.changed_step c).keys.trans (ih (s.step c))

theorem Logged.runAll {log : List (Nat × Key)} {s : Shared α} (h : Logged log s)
    (changes : List (Change α)) : Logged (s.renamings changes ++ log) (s.runAll changes) := by
  induction changes generalizing log s with
  | nil => exact h
  | cons c rest ih =>
    rw [renamings, List.append_assoc]
    exact ih (h.changed (s.changed_step c))

end Shared

/-- Whatever is done, a variable is found where it was registered and has the key that its handle
was given last. The registry is in step just if that is the registered one. -/
theorem entered_of_run (changes : List (Change α)) :
    let s : Shared α := Shared.empty.runAll changes
    let log := Shared.empty.renamings changes
    (∀ i e, s.registry.entries[i]? = some e → s.Entered log i e.1 e.2) ∧
      (s.registry.InStep ↔ ∀ i a k, s.registry.keys[i]? = some a →
        log.lookup (s.first i) = some k → (a == k) = true) ∧
      (log = [] → s.registry.Tied) ∧
      ∀ more, s.registry.keys <+: (Shared.empty.runAll (changes ++ more)).registry.keys := by
  intro s log
  have h : Shared.Logged log s := by
    have := Shared.logged_empty.runAll changes
    rwa [List.append_nil] at this
  refine ⟨fun i e he => h.entered he, h.inStep_iff, ?_, ?_⟩
  · intro hlog
    rw [hlog] at h
    exact h.tied
  · intro more
    rw [Shared.runAll, List.foldl_append]
    exact s.keys_runAll more

end Registry

def renameFirst (name : String) : Registry.Change Float :=
  .edit (fun _ => .ok ()) 0 (.key (.map [(.text "name", .text name)]))

/-- A handle that is registered under two names has the third one at both places. -/
example :
    let changes := [.add ⟨"x", []⟩ {}, renameFirst "y", .addAll [.old 0], renameFirst "z"]
    let s := Registry.Shared.empty.runAll changes
    s.registry.keys = [⟨"x", []⟩, ⟨"y", []⟩] ∧
      s.registry.vars.map (·.key) = [⟨"z", []⟩, ⟨"z", []⟩] := ⟨rfl, rfl⟩

def renamedOnce : List (Registry.Change Float) := [.add ⟨"x", []⟩ {}, renameFirst "y"]

/-- The registry lists the old name and finds the variable by it, which does not answer to it. -/
theorem parted_of_renamedOnce :
    let r := (Registry.Shared.empty.runAll renamedOnce).registry
    r.keys = [⟨"x", []⟩] ∧ r.vars.map (·.key) = [⟨"y", []⟩] ∧
      (r.get ⟨"x", []⟩).map (·.key) = .ok ⟨"y", []⟩ ∧
      r.position ⟨"y", []⟩ = .error (.variableMissing ⟨"y", []⟩) ∧ ¬ r.InStep := by
  refine ⟨rfl, rfl, rfl, rfl, ?_⟩
  intro h
  have hsame := h _ List.mem_cons_self
  revert hsame
  decide +kernel

end Equilibria
