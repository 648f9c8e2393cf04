import Equilibria.Options.Document
import Equilibria.Proofs.Changes
import Equilibria.Proofs.Readers

/-!
# Options of documents

A document gives options by all of its entries, by its section `options`, or not at all. Anything
else is refused, except that a section which is empty, zero or false passes for no section.
-/

namespace Equilibria

open Calls

namespace Options

variable {path : String} {v w : Value}

/-! ## Kinds of documents -/

def IsOdd (v : Value) : Prop := v ≠ .null ∧ ∀ entries, v ≠ .map entries

theorem kinds (v : Value) : v = .null ∨ (∃ entries, v = .map entries) ∨ IsOdd v := by
  cases v with
  | null => exact .inl rfl
  | map entries => exact .inr (.inl ⟨entries, rfl⟩)
  | _ => exact .inr (.inr ⟨nofun, nofun⟩)

/-- What a document gives options by: nothing, its entries, or its section. -/
inductive Gives : Value → Value → Prop where
  | nothing : Gives .null .null
  | whole {entries : List (Value × Value)} (missing : section? entries = none) :
    Gives (.map entries) (.map entries)
  | nothingUnder {entries : List (Value × Value)} (found : section? entries = some .null) :
    Gives (.map entries) .null
  | under {entries inner : List (Value × Value)} (found : section? entries = some (.map inner)) :
    Gives (.map entries) (.map inner)

/-- The section is no mapping, but is dropped as if it were not there. -/
inductive Passes : Value → Prop where
  | under {entries : List (Value × Value)} {s : Value} (found : section? entries = some s)
    (odd : IsOdd s) (vacant : isNothing s = true) : Passes (.map entries)

/-- The reasons to refuse a document. -/
inductive Refused (path : String) : Value → Error → Prop where
  | whole {v : Value} (odd : IsOdd v) : Refused path v (.notMapping path)
  | under {entries : List (Value × Value)} {s : Value} (found : section? entries = some s)
    (odd : IsOdd s) (some : isNothing s = false) :
    Refused path (.map entries) (.sectionNotMapping path)

theorem gives_or_passes_or_refused (path : String) (v : Value) :
    (∃ w, Gives v w) ∨ Passes v ∨ ∃ e, Refused path v e := by
  rcases kinds v with rfl | ⟨entries, rfl⟩ | hv
  · exact .inl ⟨_, .nothing⟩
  · cases hs : section? entries with
    | none => exact .inl ⟨_, .whole hs⟩
    | some s =>
      rcases kinds s with rfl | ⟨inner, rfl⟩ | hodd
      · exact .inl ⟨_, .nothingUnder hs⟩
      · exact .inl ⟨_, .under hs⟩
      · cases hn : isNothing s with
        | true => exact .inr (.inl (.under hs hodd hn))
        | false => exact .inr (.inr ⟨_, .under hs hodd hn⟩)
  · exact .inr (.inr ⟨_, .whole hv⟩)

theorem Passes.not_gives (h : Passes v) : ¬ Gives v w := by
  intro hg
  obtain ⟨found, odd, -⟩ := h
  cases hg with
  | whole missing => cases found.symm.trans missing
  | nothingUnder found' =>
    cases found.symm.trans found'
    exact odd.1 rfl
  | under found' =>
    cases found.symm.trans found'
    exact odd.2 _ rfl

/-! ## What is read from them -/

theorem Gives.ofDocument_eq (h : Gives v w) : ofDocument path v = ofMapping w [] := by
  cases h with
  | nothing => rfl
  | whole missing =>
    rw [ofDocument, missing]
    rfl
  | nothingUnder found | under found =>
    rw [ofDocument, found]
    rfl

theorem Gives.entries (h : Gives v w) :
    ∃ entries, entriesOf w = .ok entries ∧ ofMapping w [] = .ok (ofEntries entries) := by
  obtain ⟨entries, hw⟩ : ∃ entries, entriesOf w = .ok entries := by
    cases h with
    | nothing | whole | nothingUnder | under => exact ⟨_, rfl⟩
  exact ⟨entries, hw, ofMapping_ok hw []⟩

theorem ofDocument_of_odd {entries : List (Value × Value)} {s : Value}
    (found : section? entries = some s) (odd : IsOdd s) : ofDocument path (.map entries) =
      if isNothing s then .ok empty else .error (.sectionNotMapping path) := by
  rw [ofDocument, found]
  cases s with
  | null => exact absurd rfl odd.1
  | map inner => exact absurd rfl (odd.2 inner)
  | _ => rfl

theorem Passes.ofDocument_eq (h : Passes v) : ofDocument path v = .ok empty := by
  obtain ⟨found, odd, vacant⟩ := h
  rw [ofDocument_of_odd found odd, if_pos vacant]

theorem Refused.ofDocument_eq {e : Error} (h : Refused path v e) :
    ofDocument path v = .error e := by
  cases h with
  | whole odd =>
    cases v with
    | null => exact absurd rfl odd.1
    | map entries => exact absurd rfl (odd.2 entries)
    | _ => rfl
  | under found odd some =>
    rw [ofDocument_of_odd found odd, if_neg (Bool.eq_false_iff.1 some)]

theorem Refused.kind {e : Error} (h : Refused path v e) : e.kind = "ValueError" := by
  cases h <;> rfl

theorem refused_of_error {e : Error} (h : ofDocument path v = .error e) : Refused path v e := by
  rcases gives_or_passes_or_refused path v with ⟨w, hg⟩ | hp | ⟨e', hr⟩
  · obtain ⟨entries, -, ho⟩ := hg.entries
    cases (hg.ofDocument_eq.trans ho).symm.trans h
  · cases hp.ofDocument_eq.symm.trans h
  · cases hr.ofDocument_eq.symm.trans h
    exact hr

theorem ofYaml_of_read {text : String} (h : Yaml.read text = .ok v) :
    ofYaml path text = ofDocument path v := by
  rw [ofYaml, h]
  rfl

/-- A document that gives a mapping or nothing has its options. Every other one is refused, unless
its section counts as nothing. -/
theorem options_of_document (path : String) (v : Value) :
    (∀ w, Gives v w → ∃ entries o, entriesOf w = .ok entries ∧ ofMapping w [] = .ok o ∧
      ofDocument path v = .ok o ∧ empty.Overlaid entries o) ∧
    (Passes v → ofDocument path v = .ok empty ∧ ¬ ∃ w, Gives v w) ∧
    (∀ e, ofDocument path v = .error e ↔ Refused path v e) ∧
    (∀ e, Refused path v e → e.kind = "ValueError") ∧
    ((∃ o, ofDocument path v = .ok o) ↔ (∃ w, Gives v w) ∨ Passes v) ∧
    ∀ text, Yaml.read text = .ok v → ofYaml path text = ofDocument path v := by
  refine ⟨fun w hg => ?_, fun hp => ⟨hp.ofDocument_eq, fun ⟨w, hg⟩ => hp.not_gives hg⟩,
    fun e => ⟨refused_of_error, Refused.ofDocument_eq⟩, fun e => Refused.kind, ⟨?_, ?_⟩,
    fun text => ofYaml_of_read⟩
  · obtain ⟨entries, hw, ho⟩ := hg.entries
    exact ⟨entries, _, hw, ho, hg.ofDocument_eq.trans ho, overlaid_ofEntries entries⟩
  · rintro ⟨o, ho⟩
    rcases gives_or_passes_or_refused path v with hg | hp | ⟨e, hr⟩
    · exact .inl hg
    · exact .inr hp
    · cases hr.ofDocument_eq.symm.trans ho
  · rintro (⟨w, hg⟩ | hp)
    · obtain ⟨entries, -, ho⟩ := hg.entries
      exact ⟨_, hg.ofDocument_eq.trans ho⟩
    · exact ⟨empty, hp.ofDocument_eq⟩

/-- An empty list, an empty text, zero and false pass for no section. -/
theorem empty_of_vacant :
    let under (s : Value) : Value := .map [(.text "options", s), (.text "output", .bool true)]
    (∀ s ∈ [.list [], .text "", .int 0, .bool false],
      ofDocument "opts.yaml" (under s) = .ok empty ∧ ¬ ∃ w, Gives (under s) w) ∧
    ofDocument "opts.yaml" (under (.list [.int 1])) = .error (.sectionNotMapping "opts.yaml") ∧
    ofDocument "opts.yaml" (.list []) = .error (.notMapping "opts.yaml") := by
  intro under
  have hfound : ∀ s, section? [(.text "options", s), (.text "output", .bool true)] = some s :=
    fun _ => rfl
  have hpasses : ∀ s ∈ [.list [], .text "", .int 0, .bool false], Passes (under s) := by
    simp only [List.forall_mem_cons]
    refine ⟨.under (hfound _) ⟨nofun, nofun⟩ rfl, .under (hfound _) ⟨nofun, nofun⟩ rfl,
      .under (hfound _) ⟨nofun, nofun⟩ rfl, .under (hfound _) ⟨nofun, nofun⟩ rfl, nofun⟩
  refine ⟨fun s hs => ⟨(hpasses s hs).ofDocument_eq, fun ⟨w, hg⟩ => (hpasses s hs).not_gives hg⟩,
    rfl, rfl⟩

end Options

/-! ## Loading -/

namespace Model

variable {α : Type} {m : Model α}

theorem changeOptions_eq (hs : m.status = .unsolved) (change : Options → Except Error Options) :
    changeOptions change m = match change m.options with
      | .ok o => (.ok (), { m with options := o })
      | .error e => (.error e, m) := by
  unfold changeOptions
  rw [get_bind, lift_bind_ok (requireUnsolved_ok hs _), bind_apply, lift_apply]
  cases change m.options <;> rfl

theorem loadOptions_of_read (hs : m.status = .unsolved) {path text : String} {v : Value}
    (hv : Yaml.read text = .ok v) :
    (∀ w, Options.Gives v w → ∃ o, Options.ofMapping w [] = .ok o ∧
      loadOptions path text m = (.ok (), { m with options := m.options.merge o })) ∧
    (Options.Passes v → loadOptions path text m = (.ok (), m)) ∧
    ∀ e, Options.Refused path v e → loadOptions path text m = (.error e, m) := by
  unfold loadOptions
  rw [changeOptions_eq hs, Options.ofYaml_of_read hv]
  refine ⟨fun w hg => ?_, fun hp => ?_, fun e hr => ?_⟩
  · obtain ⟨entries, -, ho⟩ := hg.entries
    rw [hg.ofDocument_eq, ho]
    exact ⟨_, rfl, rfl⟩
  · rw [hp.ofDocument_eq]
    exact congrArg (fun o => (Except.ok (), { m with options := o })) m.options.merge_empty
  · rw [hr.ofDocument_eq]
    rfl

end Model

end Equilibria
