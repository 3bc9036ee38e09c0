import GraphQL.Proofs.Execution.Collecting

/-!
The fields that are selected, and how collecting groups them.

Which fields a selection set selects is told by rules for its nodes (`Selects`), and they are the
same however often the rules are tried (`Selects.unique`). Collecting groups exactly these fields
by their response keys, in their order (`Setting.groups_collect`).
-/

set_option autoImplicit false

namespace GraphQL.Execution

/-- Selections, and the fields that they select in document order. Also told are the fragments that
an included spread was met of, before and after: only the first of the spreads of a fragment selects
anything. A node with a directive that excludes it or fails selects nothing. -/
inductive Selects (s : Setting) (site : Site) :
    List String → List (Selection Literal) → List (Field Literal) → List String → Prop where
  | nil (met : List String) : Selects s site met [] [] met
  | excluded {node : Selection Literal} {nodes : List (Selection Literal)}
      {fields : List (Field Literal)} {met after : List String} :
      s.directives.includes s.bindings site.context node.directives ≠ .ok true →
      Selects s site met nodes fields after → Selects s site met (node :: nodes) fields after
  | field {head : FieldHead Literal} {selections nodes : List (Selection Literal)}
      {fields : List (Field Literal)} {met after : List String} :
      s.directives.includes s.bindings site.context head.directives = .ok true →
      Selects s site met nodes fields after →
      Selects s site met (.field head selections :: nodes) (⟨head, selections⟩ :: fields) after
  | again {sp : Spread Literal} {nodes : List (Selection Literal)}
      {fields : List (Field Literal)} {met after : List String} :
      s.directives.includes s.bindings site.context sp.directives = .ok true → sp.fragment ∈ met →
      Selects s site met nodes fields after →
      Selects s site met (.spread sp :: nodes) fields after
  /-- The fragment does not exist or does not apply. -/
  | idle {sp : Spread Literal} {nodes : List (Selection Literal)}
      {fields : List (Field Literal)} {met after : List String} :
      s.directives.includes s.bindings site.context sp.directives = .ok true → sp.fragment ∉ met →
      (∀ f, s.document.fragment? sp.fragment = some f →
        s.schema.applies site.objectType f.condition = false) →
      Selects s site (sp.fragment :: met) nodes fields after →
      Selects s site met (.spread sp :: nodes) fields after
  | spread {sp : Spread Literal} {f : Fragment Literal} {nodes : List (Selection Literal)}
      {inner fields : List (Field Literal)} {met between after : List String} :
      s.directives.includes s.bindings site.context sp.directives = .ok true → sp.fragment ∉ met →
      s.document.fragment? sp.fragment = some f →
      s.schema.applies site.objectType f.condition = true →
      Selects s site (sp.fragment :: met) f.selections inner between →
      Selects s site between nodes fields after →
      Selects s site met (.spread sp :: nodes) (inner ++ fields) after
  | inlineIdle {head : InlineHead Literal} {selections nodes : List (Selection Literal)}
      {fields : List (Field Literal)} {met after : List String} :
      s.directives.includes s.bindings site.context head.directives = .ok true →
      s.applies site head.condition = false → Selects s site met nodes fields after →
      Selects s site met (.inline head selections :: nodes) fields after
  | inline {head : InlineHead Literal} {selections nodes : List (Selection Literal)}
      {inner fields : List (Field Literal)} {met between after : List String} :
      s.directives.includes s.bindings site.context head.directives = .ok true →
      s.applies site head.condition = true → Selects s site met selections inner between →
      Selects s site between nodes fields after →
      Selects s site met (.inline head selections :: nodes) (inner ++ fields) after

theorem Selects.unique {s : Setting} {site : Site} {met after after' : List String}
    {nodes : List (Selection Literal)} {fields fields' : List (Field Literal)}
    (h : Selects s site met nodes fields after) (h' : Selects s site met nodes fields' after') :
    fields = fields' ∧ after = after' := by
  induction h generalizing fields' after' with
  | nil =>
    cases h'
    exact ⟨rfl, rfl⟩
  | excluded hi _ ih =>
    cases h' with
    | excluded _ h' => exact ih h'
    | field hi' | again hi' | idle hi' | spread hi' | inlineIdle hi' | inline hi' =>
      exact absurd hi' hi
  | field hi _ ih =>
    cases h' with
    | excluded hi' => exact absurd hi hi'
    | field _ h' =>
      obtain ⟨rfl, rfl⟩ := ih h'
      exact ⟨rfl, rfl⟩
  | again hi hm _ ih =>
    cases h' with
    | excluded hi' => exact absurd hi hi'
    | again _ _ h' => exact ih h'
    | idle _ hm' | spread _ hm' => exact absurd hm hm'
  | idle hi hm hidle _ ih =>
    cases h' with
    | excluded hi' => exact absurd hi hi'
    | again _ hm' => exact absurd hm' hm
    | idle _ _ _ h' => exact ih h'
    | spread _ _ hf ha => simp [hidle _ hf] at ha
  | spread hi hm hf ha _ _ ihin ih =>
    cases h' with
    | excluded hi' => exact absurd hi hi'
    | again _ hm' => exact absurd hm' hm
    | idle _ _ hidle => simp [hidle _ hf] at ha
    | spread _ _ hf' _ hin h' =>
      obtain rfl := Option.some.inj (hf.symm.trans hf')
      obtain ⟨rfl, rfl⟩ := ihin hin
      obtain ⟨rfl, rfl⟩ := ih h'
      exact ⟨rfl, rfl⟩
  | inlineIdle hi ha _ ih =>
    cases h' with
    | excluded hi' => exact absurd hi hi'
    | inlineIdle _ _ h' => exact ih h'
    | inline _ ha' => simp [ha] at ha'
  | inline hi ha _ _ ihin ih =>
    cases h' with
    | excluded hi' => exact absurd hi hi'
    | inlineIdle _ ha' => simp [ha] at ha'
    | inline _ _ hin h' =>
      obtain ⟨rfl, rfl⟩ := ihin hin
      obtain ⟨rfl, rfl⟩ := ih h'
      exact ⟨rfl, rfl⟩

/-- Groups of fields: their keys are the response keys of the fields, in the order in which these
first appear, and in each group are the fields with its key, in their order. -/
structure Groups (fields : List (Field Literal)) (groups : Entries (List (Field Literal))) :
    Prop where
  keys_eq : Entries.keys groups = (fields.map (·.head.responseKey)).eraseDups
  group_eq : ∀ key, (Entries.get? key groups).getD [] = fields.filter (·.head.responseKey = key)

namespace Groups

variable {fields : List (Field Literal)} {c : Collected}

theorem empty : Groups [] Collected.empty.groups where
  keys_eq := by simp [Collected.empty, Entries.keys]
  group_eq _ := rfl

theorem addField (h : Groups fields c.groups) (f : Field Literal) :
    Groups (fields ++ [f]) (c.addField f).groups where
  keys_eq := by
    rw [List.map_append, List.map_singleton, eraseDups_snoc, Collected.addField,
      Entries.keys_insert, h.keys_eq]
    simp
  group_eq key := by
    rw [Collected.addField, Entries.get?_insert, List.filter_append, ← h.group_eq key]
    by_cases hkey : key = f.head.responseKey
    · simp [hkey]
    · simp [hkey, Ne.symm hkey]

end Groups

/-- What collecting by the rules adds are the fields that are selected. -/
theorem Collects.exists_selects {s : Setting} {site : Site} {nodes : List (Selection Literal)}
    {c d : Collected} (h : Collects s site nodes c d) {before : List (Field Literal)}
    (hc : Groups before c.groups) :
    ∃ fields, Selects s site c.visited nodes fields d.visited ∧
      Groups (before ++ fields) d.groups := by
  induction h generalizing before with
  | nil c => exact ⟨[], .nil _, by rwa [List.append_nil]⟩
  | excluded hi _ ih =>
    obtain ⟨fields, hfields, hgroups⟩ := ih hc
    exact ⟨fields, .excluded (by simp [hi]) hfields, hgroups⟩
  | failed hi _ ih =>
    obtain ⟨fields, hfields, hgroups⟩ := ih hc
    exact ⟨fields, .excluded (by simp [hi]) hfields, hgroups⟩
  | @field head selections _ _ _ hi _ ih =>
    obtain ⟨fields, hfields, hgroups⟩ := ih (hc.addField ⟨head, selections⟩)
    refine ⟨⟨head, selections⟩ :: fields, .field hi hfields, ?_⟩
    rwa [List.append_assoc, List.singleton_append] at hgroups
  | visited hi hv _ ih =>
    obtain ⟨fields, hfields, hgroups⟩ := ih hc
    exact ⟨fields, .again hi hv hfields, hgroups⟩
  | unknown hi hv hf _ ih =>
    obtain ⟨fields, hfields, hgroups⟩ := ih hc
    exact ⟨fields, .idle hi hv (by simp [hf]) hfields, hgroups⟩
  | inapplicable hi hv hf ha _ ih =>
    obtain ⟨fields, hfields, hgroups⟩ := ih hc
    refine ⟨fields, .idle hi hv (fun f' hf' => ?_) hfields, hgroups⟩
    rwa [← Option.some.inj (hf.symm.trans hf')]
  | expanded hi hv hf ha _ _ ihin ih =>
    obtain ⟨inner, hinner, hmid⟩ := ihin hc
    obtain ⟨fields, hfields, hgroups⟩ := ih hmid
    refine ⟨inner ++ fields, .spread hi hv hf ha hinner hfields, ?_⟩
    rwa [List.append_assoc] at hgroups
  | inlineInapplicable selections hi ha _ ih =>
    obtain ⟨fields, hfields, hgroups⟩ := ih hc
    exact ⟨fields, .inlineIdle hi ha hfields, hgroups⟩
  | inline hi ha _ _ ihin ih =>
    obtain ⟨inner, hinner, hmid⟩ := ihin hc
    obtain ⟨fields, hfields, hgroups⟩ := ih hmid
    refine ⟨inner ++ fields, .inline hi ha hinner hfields, ?_⟩
    rwa [List.append_assoc] at hgroups

/-- The fields that a selection set selects. -/
def Setting.Selects (s : Setting) (site : Site) (nodes : List (Selection Literal))
    (fields : List (Field Literal)) : Prop :=
  ∃ after, Execution.Selects s site [] nodes fields after

/-- Whatever the document, fields are selected in one way, and collecting groups all of them. -/
theorem Setting.groups_collect (s : Setting) (site : Site) (nodes : List (Selection Literal)) :
    (∃! fields, s.Selects site nodes fields) ∧
      ∀ fields, s.Selects site nodes fields → Groups fields (s.collect site nodes).groups := by
  obtain ⟨fields, hfields, hgroups⟩ := (s.collects_collect site nodes).exists_selects .empty
  have hunique : ∀ other, s.Selects site nodes other → other = fields := fun other hother => by
    obtain ⟨after, hafter⟩ := hother
    exact (hafter.unique hfields).1
  refine ⟨⟨fields, ⟨_, hfields⟩, hunique⟩, fun other hother => ?_⟩
  rw [hunique other hother]
  exact hgroups

end GraphQL.Execution
