import Equilibria.Options.Basic

/-!
# Layers of options

Options are laid over one another. A later text takes the place of an earlier one under the same
name, and new names follow in their order. So it does not matter how layers are grouped, and the
text under a name is that of the last layer that has the name.
-/

namespace Equilibria

namespace Options

variable {entries updates : List (String × String)} {name text : String}

/-! ## Names -/

def namesOf (entries : List (String × String)) : List String := entries.map (·.1)

/-- Puts the text in an entry of that name. -/
def swap (name text : String) (e : String × String) : String × String :=
  if e.1 == name then (e.1, text) else e

@[simp]
theorem swap_fst (e : String × String) : (swap name text e).1 = e.1 := by
  unfold swap
  split <;> rfl

theorem swap_of_eq {e : String × String} (h : e.1 = name) : swap name text e = (e.1, text) := by
  simp [swap, h]

theorem swap_of_ne {e : String × String} (h : e.1 ≠ name) : swap name text e = e := by
  simp [swap, h]

@[simp]
theorem namesOf_map_swap : namesOf (entries.map (swap name text)) = namesOf entries := by
  simp [namesOf]

theorem any_iff_mem : entries.any (·.1 == name) = true ↔ name ∈ namesOf entries := by
  simp [namesOf]

theorem put_of_mem (h : name ∈ namesOf entries) :
    put entries name text = entries.map (swap name text) := if_pos (any_iff_mem.2 h)

theorem put_of_not_mem (h : name ∉ namesOf entries) :
    put entries name text = entries ++ [(name, text)] := if_neg fun hany => h (any_iff_mem.1 hany)

theorem map_swap_of_not_mem (h : name ∉ namesOf entries) :
    entries.map (swap name text) = entries := by
  refine (List.map_congr_left fun e he => ?_).trans (List.map_id entries)
  apply swap_of_ne
  rintro rfl
  exact h (List.mem_map_of_mem he)

theorem namesOf_put : namesOf (put entries name text) =
    if name ∈ namesOf entries then namesOf entries else namesOf entries ++ [name] := by
  split
  · rw [put_of_mem ‹_›, namesOf_map_swap]
  · rw [put_of_not_mem ‹_›]
    simp [namesOf]

theorem mem_namesOf_put {n : String} :
    n ∈ namesOf (put entries name text) ↔ n ∈ namesOf entries ∨ n = name := by
  rw [namesOf_put]
  split
  · rename_i h
    constructor
    · exact .inl
    · rintro (hn | rfl)
      · exact hn
      · exact h
  · simp

theorem putAll_cons (e : String × String) :
    putAll entries (e :: updates) = putAll (put entries e.1 e.2) updates := rfl

theorem putAll_append (later : List (String × String)) :
    putAll entries (updates ++ later) = putAll (putAll entries updates) later := List.foldl_append

theorem mem_namesOf_putAll {n : String} :
    n ∈ namesOf (putAll entries updates) ↔ n ∈ namesOf entries ∨ n ∈ namesOf updates := by
  induction updates generalizing entries with
  | nil => simp [putAll, namesOf]
  | cons e rest ih =>
    rw [putAll_cons, ih, mem_namesOf_put, or_assoc]
    simp [namesOf]

theorem namesOf_putAll : namesOf (putAll entries updates) =
    namesOf entries ++ ((namesOf updates).filter (· ∉ namesOf entries)).eraseDups := by
  induction updates generalizing entries with
  | nil => simp [putAll, namesOf]
  | cons e rest ih =>
    have hcons : namesOf (e :: rest) = e.1 :: namesOf rest := rfl
    rw [putAll_cons, ih, hcons, namesOf_put]
    by_cases h : e.1 ∈ namesOf entries
    · simp [h]
    · simp only [h, if_false, not_false_eq_true, decide_true, List.filter_cons_of_pos,
        List.eraseDups_cons, List.append_assoc, List.singleton_append, List.filter_filter]
      congr 3
      apply List.filter_congr
      intro n _
      by_cases hn : n = e.1 <;> simp [hn, h]

/-! ## Grouping -/

theorem swap_swap (d e : String × String) : swap name text (swap e.1 e.2 d) =
    swap e.1 (swap name text e).2 (swap name text d) := by
  by_cases hd : d.1 = e.1
  · rw [swap_of_eq hd, swap_of_eq (e := swap name text d) (by simpa using hd), swap_fst]
    by_cases he : e.1 = name
    · rw [swap_of_eq he, swap_of_eq (e := (d.1, e.2)) (hd.trans he)]
    · rw [swap_of_ne he, swap_of_ne (e := (d.1, e.2)) fun hn => he (hd ▸ hn)]
  · rw [swap_of_ne hd, swap_of_ne (e := swap name text d) (by simpa using hd)]

theorem map_swap_put (e : String × String) : (put entries e.1 e.2).map (swap name text) =
    put (entries.map (swap name text)) (swap name text e).1 (swap name text e).2 := by
  by_cases h : e.1 ∈ namesOf entries
  · rw [put_of_mem h, put_of_mem (by simpa using h), List.map_map, List.map_map]
    apply List.map_congr_left
    intro d _
    simpa using swap_swap d e
  · rw [put_of_not_mem h, put_of_not_mem (by simpa using h), List.map_append]
    rfl

theorem map_swap_putAll : (putAll entries updates).map (swap name text) =
    putAll (entries.map (swap name text)) (updates.map (swap name text)) := by
  induction updates generalizing entries with
  | nil => rfl
  | cons e rest ih => rw [putAll_cons, ih, map_swap_put, List.map_cons, putAll_cons]

theorem putAll_map_swap (h : name ∈ namesOf updates) :
    putAll (entries.map (swap name text)) updates = putAll entries updates := by
  induction updates generalizing entries with
  | nil => cases h
  | cons e rest ih =>
    rw [putAll_cons, putAll_cons]
    by_cases he : e.1 = name
    · congr 1
      by_cases hn : e.1 ∈ namesOf entries
      · rw [put_of_mem hn, put_of_mem (by simpa using hn), List.map_map]
        apply List.map_congr_left
        intro d _
        by_cases hd : d.1 = e.1 <;> simp_all [swap]
      · rw [map_swap_of_not_mem (he ▸ hn)]
    · have hrest : name ∈ namesOf rest := by
        rcases List.mem_cons.1 h with rfl | h
        · exact absurd rfl he
        · exact h
      have hput : put (entries.map (swap name text)) e.1 e.2 =
          (put entries e.1 e.2).map (swap name text) := by
        rw [map_swap_put, swap_of_ne he]
      rw [hput, ih hrest]

theorem putAll_put : putAll entries (put updates name text) =
    put (putAll entries updates) name text := by
  by_cases h : name ∈ namesOf updates
  · rw [put_of_mem h, put_of_mem (mem_namesOf_putAll.2 (.inr h)), map_swap_putAll,
      putAll_map_swap (by simpa using h)]
  · rw [put_of_not_mem h, putAll_append]
    rfl

theorem putAll_putAll (later : List (String × String)) :
    putAll entries (putAll updates later) = putAll (putAll entries updates) later := by
  induction later generalizing updates with
  | nil => rfl
  | cons e rest ih => rw [putAll_cons, ih, putAll_put, putAll_cons]

/-! ## Texts -/

def last? (updates : List (String × String)) (name : String) : Option String :=
  (updates.reverse.find? (·.1 == name)).map (·.2)

theorem last?_cons (e : String × String) : last? (e :: updates) name =
    (last? updates name).or (if e.1 = name then some e.2 else none) := by
  rw [last?, last?, List.reverse_cons, List.find?_append, Option.map_or]
  by_cases h : e.1 = name <;> simp [h]

theorem find?_put {n : String} : ((put entries name text).find? (·.1 == n)).map (·.2) =
    if name = n then some text else (entries.find? (·.1 == n)).map (·.2) := by
  by_cases h : name ∈ namesOf entries
  · have hcomp : (fun e : String × String => e.1 == n) ∘ swap name text = (·.1 == n) := by
      funext e
      simp
    rw [put_of_mem h, List.find?_map, hcomp]
    cases he : entries.find? (·.1 == n) with
    | none =>
      have hne : name ≠ n := by
        rintro rfl
        obtain ⟨e, hmem, heq⟩ := List.mem_map.1 h
        exact absurd heq (by simpa using List.find?_eq_none.1 he e hmem)
      simp [hne]
    | some e =>
      have hen : e.1 = n := by simpa using List.find?_some he
      by_cases hn : name = n
      · rw [if_pos hn, Option.map_some, Option.map_some, swap_of_eq (hen.trans hn.symm)]
      · simp [swap_of_ne fun hname => hn (hname.symm.trans hen), hn]
  · rw [put_of_not_mem h, List.find?_append, Option.map_or]
    by_cases hn : name = n
    · have hnone : entries.find? (·.1 == n) = none := by
        rw [List.find?_eq_none]
        rintro e he heq
        exact h (hn ▸ eq_of_beq heq ▸ List.mem_map_of_mem he)
      simp [hnone, hn]
    · simp [hn]

theorem find?_putAll : ((putAll entries updates).find? (·.1 == name)).map (·.2) =
    (last? updates name).or ((entries.find? (·.1 == name)).map (·.2)) := by
  induction updates generalizing entries with
  | nil => rfl
  | cons e rest ih =>
    rw [putAll_cons, ih, find?_put, last?_cons, Option.or_assoc]
    split <;> rfl

theorem getElem?_put {i : Nat} {e : String × String} (h : entries[i]? = some e) :
    (put entries name text)[i]? = some (swap name text e) := by
  by_cases hn : name ∈ namesOf entries
  · rw [put_of_mem hn, List.getElem?_map, h]
    rfl
  · have he : e.1 ≠ name := by
      rintro rfl
      exact hn (List.mem_map_of_mem (List.mem_of_getElem? h))
    obtain ⟨hi, -⟩ := List.getElem?_eq_some_iff.1 h
    rw [put_of_not_mem hn, List.getElem?_append_left hi, h, swap_of_ne he]

theorem getElem?_putAll {i : Nat} {e : String × String} (h : entries[i]? = some e) :
    (putAll entries updates)[i]? = some (e.1, (last? updates e.1).getD e.2) := by
  induction updates generalizing entries e with
  | nil => exact h
  | cons d rest ih =>
    rw [putAll_cons, ih (getElem?_put h), last?_cons, swap_fst]
    by_cases hd : d.1 = e.1
    · rw [swap_of_eq hd.symm, if_pos hd]
      cases last? rest e.1 <;> rfl
    · rw [swap_of_ne (Ne.symm hd), if_neg hd, Option.or_none]

/-! ## Merging -/

/-- The value of the last entry whose key is written as the name. -/
def lastUnder (m : List (Value × Value)) (name : String) : Option Value :=
  (m.reverse.find? (·.1.toText == name)).map (·.2)

def textsOf (m : List (Value × Value)) : List (String × String) :=
  m.map fun e => (e.1.toText, valueText e.2)

theorem last?_textsOf (m : List (Value × Value)) (name : String) :
    last? (textsOf m) name = (lastUnder m name).map valueText := by
  unfold last? textsOf lastUnder
  rw [← List.map_reverse, List.find?_map, Option.map_map, Option.map_map]
  rfl

theorem merge_empty (a : Options) : a.merge .empty = a := rfl

theorem merge_assoc (a b c : Options) : (a.merge b).merge c = a.merge (b.merge c) := by
  unfold merge
  rw [putAll_putAll]

theorem merge_ofEntries (a : Options) (m : List (Value × Value)) :
    a.merge (ofEntries m) = ⟨putAll a.entries (textsOf m)⟩ := by
  unfold merge ofEntries
  rw [putAll_putAll]
  rfl

theorem ofEntries_append (m m' : List (Value × Value)) :
    ofEntries (m ++ m') = (ofEntries m).merge (ofEntries m') := by
  rw [merge_ofEntries]
  unfold ofEntries
  rw [List.map_append, putAll_append]
  rfl

def asMap (o : Options) : List (Value × Value) := o.entries.map fun e => (.text e.1, .text e.2)

theorem textsOf_asMap (o : Options) : textsOf o.asMap = o.entries := by
  unfold textsOf asMap
  rw [List.map_map]
  exact List.map_id o.entries

theorem ofEntries_eq_merge (m : List (Value × Value)) : ofEntries m = empty.merge (ofEntries m) :=
  (merge_ofEntries empty m).symm

theorem ofEntries_asMap (m : List (Value × Value)) :
    ofEntries (ofEntries m).asMap = ofEntries m := by
  rw [ofEntries_eq_merge (asMap _), merge_ofEntries, textsOf_asMap]
  exact (ofEntries_eq_merge m).symm

/-- What a map lays over options. -/
structure Overlaid (a : Options) (m : List (Value × Value)) (o : Options) : Prop where
  text : ∀ name, o.get? name = ((lastUnder m name).map valueText).or (a.get? name)
  place : ∀ {i : Nat} {name text : String}, a.entries[i]? = some (name, text) →
    o.entries[i]? = some (name, ((lastUnder m name).map valueText).getD text)
  names : namesOf o.entries = namesOf a.entries ++
    ((m.map (·.1.toText)).filter (· ∉ namesOf a.entries)).eraseDups

theorem overlaid_merge (a : Options) (m : List (Value × Value)) :
    a.Overlaid m (a.merge (ofEntries m)) := by
  rw [merge_ofEntries]
  refine ⟨fun name => ?_, fun hi => ?_, ?_⟩
  · rw [← last?_textsOf]
    exact find?_putAll
  · rw [← last?_textsOf]
    exact getElem?_putAll hi
  · have hnames : namesOf (textsOf m) = m.map (·.1.toText) := by
      unfold namesOf textsOf
      rw [List.map_map]
      rfl
    rw [namesOf_putAll, hnames]

/-- Layers can be grouped at will, an empty one changes nothing, and a map is laid over options as
the options made of it. -/
theorem merges_of_layers (a b c : Options) (m m' : List (Value × Value)) :
    (a.merge b).merge c = a.merge (b.merge c) ∧
    (a.mergeValue .null = .ok a ∧ a.merge .empty = a) ∧
    (a.mergeValue (.map m)).bind (·.mergeValue (.map m')) = a.mergeValue (.map (m ++ m')) ∧
    ∃ o p, ofMapping (.map m) [] = .ok o ∧ ofValue (.map m) = .ok o ∧ ofValue (.map m') = .ok p ∧
      ofValue (.map (o.merge p).asMap) = .ok (o.merge p) ∧
      a.mergeValue (.map m) = .ok (a.merge o) ∧ a.Overlaid m (a.merge o) := by
  refine ⟨merge_assoc a b c, ⟨rfl, merge_empty a⟩, ?_, ofEntries m, ofEntries m', rfl, rfl, rfl, ?_,
    rfl, overlaid_merge a m⟩
  · have hboth : (a.merge (ofEntries m)).merge (ofEntries m') = a.merge (ofEntries (m ++ m')) := by
      rw [ofEntries_append, merge_assoc]
    exact congrArg Except.ok hboth
  · rw [← ofEntries_append]
    exact congrArg Except.ok (ofEntries_asMap (m ++ m'))

end Options

end Equilibria
