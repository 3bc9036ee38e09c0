import GraphQL.Proofs.Document.Merging
import GraphQL.Proofs.Execution.Mirrors

/-!
Collecting from selections in which a field that occurs twice in a row is written once.

The same groups are left, with the same selections in them. Of the errors only those can differ that
follow one of a directive that fails on such a field (`Setting.mirrors_of_merges`).
-/

set_option autoImplicit false

namespace GraphQL

theorem DirectiveChain.includes_unlocated (chain : DirectiveChain) (bindings : Entries Json.Value)
    (context : Context) (directives : List (Directive Literal)) :
    chain.includes bindings context (directives.map (·.unlocated)) =
      chain.includes bindings context directives := by
  induction directives with
  | nil => rfl
  | cons d directives ih =>
    rw [List.map_cons, includes, includes, ih]
    rfl

theorem DirectiveChain.includes_eq_of_unlocated (chain : DirectiveChain)
    (bindings : Entries Json.Value) (context : Context) {head head' : FieldHead Literal}
    (h : head'.unlocated = head.unlocated) :
    chain.includes bindings context head'.directives =
      chain.includes bindings context head.directives := by
  rw [← includes_unlocated, FieldHead.directives_eq_of_unlocated h, includes_unlocated]

namespace Execution

/-- Errors that are the same, at least up to one of a kind. -/
def SameUpTo (K : Error → Prop) (errors errors' : List Error) : Prop :=
  errors = errors' ∨ ∃ before e after after', K e ∧ errors = before ++ e :: after ∧
    errors' = before ++ e :: after'

namespace SameUpTo

variable {K : Error → Prop} {errors errors' : List Error}

theorem append (h : SameUpTo K errors errors') (e : Error) :
    SameUpTo K (errors ++ [e]) (errors' ++ [e]) := by
  rcases h with rfl | ⟨before, k, after, after', hk, rfl, rfl⟩
  · exact .inl rfl
  · exact .inr ⟨before, k, after ++ [e], after' ++ [e], hk, by simp, by simp⟩

/-- Once there is one of the kind, one side may go on alone. -/
theorem append_left (h : SameUpTo K errors errors') {e : Error} (he : K e) (e' : Error) :
    SameUpTo K (errors ++ [e] ++ [e']) (errors' ++ [e]) := by
  rcases h with rfl | ⟨before, k, after, after', hk, rfl, rfl⟩
  · exact .inr ⟨errors, e, [e'], [], he, by simp, rfl⟩
  · exact .inr ⟨before, k, after ++ [e, e'], after' ++ [e], hk, by simp, by simp⟩

end SameUpTo

theorem HeadsAlike.refl (s : Setting) (head : FieldHead Literal) : HeadsAlike s head head :=
  ⟨rfl, rfl, rfl, fun _ => rfl⟩

theorem FieldsMirror.append {s : Setting}
    {S : List (Selection Literal) → List (Selection Literal) → Prop}
    (hS : ∀ {nodes nodes' later later'}, S nodes nodes' → S later later' →
      S (nodes ++ later) (nodes' ++ later'))
    {fields fields' more more' : List (Field Literal)} (h : FieldsMirror s S fields fields')
    (hmore : FieldsMirror s S more more') :
    FieldsMirror s S (fields ++ more) (fields' ++ more') := by
  cases h with
  | nil => exact hmore
  | cons hhead hselections =>
    cases hmore with
    | nil =>
      rw [List.append_nil, List.append_nil]
      exact .cons hhead hselections
    | cons _ hmore =>
      rw [List.cons_append, List.cons_append]
      refine .cons hhead ?_
      rw [← List.cons_append, ← List.cons_append, List.flatMap_append, List.flatMap_append]
      exact hS hselections hmore

/-- The error is what a directive leaves that fails on a field of a kind. -/
def Setting.FailsOn (s : Setting) (F : FieldHead Literal → Prop) (e : Error) : Prop :=
  ∃ head context path fe, F head ∧
    s.directives.includes s.bindings context head.directives = .error fe ∧
    e = fe.locate (head.directives.head?.bind (·.location)) path

/-- What is collected where fields of a kind that occurred twice in a row occur once. -/
structure Collected.Merges (s : Setting) (F : FieldHead Literal → Prop) (c c' : Collected) :
    Prop where
  visited : c.visited = c'.visited
  errors : SameUpTo (s.FailsOn F) c.errors c'.errors
  groups : Entries.Alike (FieldsMirror s (Selection.Merges F)) c.groups c'.groups

namespace Collected.Merges

variable {s : Setting} {F : FieldHead Literal → Prop} {c c' : Collected}

theorem empty : Collected.Merges s F .empty .empty := ⟨rfl, .inl rfl, .nil⟩

theorem record (h : Collected.Merges s F c c') (e : Error) :
    Collected.Merges s F (c.record e) (c'.record e) := ⟨h.visited, h.errors.append e, h.groups⟩

theorem visit (h : Collected.Merges s F c c') (name : String) :
    Collected.Merges s F (c.visit name) (c'.visit name) :=
  ⟨congrArg (name :: ·) h.visited, h.errors, h.groups⟩

theorem insert (h : Collected.Merges s F c c') (key : String) {more more' : List (Field Literal)}
    (hmore : FieldsMirror s (Selection.Merges F) more more') :
    Entries.Alike (FieldsMirror s (Selection.Merges F))
      (Entries.insert key ((Entries.get? key c.groups).getD [] ++ more) c.groups)
      (Entries.insert key ((Entries.get? key c'.groups).getD [] ++ more') c'.groups) :=
  h.groups.insert key ((h.groups.getD_get? key .nil).append Selection.Merges.append hmore)

theorem addField (h : Collected.Merges s F c c') (head : FieldHead Literal)
    {selections selections' : List (Selection Literal)}
    (hs : Selection.Merges F selections selections') :
    Collected.Merges s F (c.addField ⟨head, selections⟩) (c'.addField ⟨head, selections'⟩) where
  visited := h.visited
  errors := h.errors
  groups := h.insert _ (.cons (.refl s head) (by simpa using hs))

/-- Both occurrences of a field come into one group. -/
theorem addField_addField (h : Collected.Merges s F c c') {head again : FieldHead Literal}
    (hkey : again.responseKey = head.responseKey)
    {selections more selections' : List (Selection Literal)}
    (hs : Selection.Merges F (selections ++ more) selections') :
    Collected.Merges s F ((c.addField ⟨head, selections⟩).addField ⟨again, more⟩)
      (c'.addField ⟨head, selections'⟩) where
  visited := h.visited
  errors := h.errors
  groups := by
    simp only [Collected.addField, hkey, Entries.get?_insert, if_true, Option.getD_some,
      Entries.insert_insert, List.append_assoc]
    exact h.insert _ (.cons (.refl s head) (by simpa using hs))

end Collected.Merges

namespace Setting

variable {s : Setting} {site : Site} {F : FieldHead Literal → Prop} {d : Document}
  {expand expand' : List (Selection Literal) → Collected → Collected} {c c' : Collected}

theorem whenIncluded_merges (directives : List (Directive Literal))
    {inside inside' : Collected → Collected} (h : Collected.Merges s F c c')
    (hinside : Collected.Merges s F (inside c) (inside' c')) :
    Collected.Merges s F (s.whenIncluded site directives inside c)
      ((s.withDocument d).whenIncluded site directives inside' c') := by
  unfold whenIncluded
  rw [withDocument_directives, withDocument_bindings]
  split
  · exact hinside
  · exact h
  · exact h.record _

/-- Two occurrences of a field are included or excluded both. If a directive fails on them, there
are two errors in the place of one. -/
theorem whenIncluded_whenIncluded_merges {head again : FieldHead Literal}
    {selections more selections' : List (Selection Literal)} (hF : F head)
    (hagain : again.unlocated = head.unlocated)
    (hs : Selection.Merges F (selections ++ more) selections') (h : Collected.Merges s F c c') :
    Collected.Merges s F
      (s.whenIncluded site again.directives (·.addField ⟨again, more⟩)
        (s.whenIncluded site head.directives (·.addField ⟨head, selections⟩) c))
      ((s.withDocument d).whenIncluded site head.directives (·.addField ⟨head, selections'⟩)
        c') := by
  unfold whenIncluded
  rw [withDocument_directives, withDocument_bindings,
    s.directives.includes_eq_of_unlocated _ _ hagain]
  cases hi : s.directives.includes s.bindings site.context head.directives with
  | ok included =>
    cases included with
    | false => exact h
    | true => exact h.addField_addField (FieldHead.responseKey_eq_of_unlocated hagain) hs
  | error e => exact ⟨h.visited, h.errors.append_left ⟨head, _, _, e, hF, hi, rfl⟩ _, h.groups⟩

variable (hd : s.document.Merges F d)
  (he : ∀ nodes nodes' c c', Selection.Merges F nodes nodes' → Collected.Merges s F c c' →
    Collected.Merges s F (expand nodes c) (expand' nodes' c'))

include hd he

theorem spread_merges (sp : Spread Literal) (h : Collected.Merges s F c c') :
    Collected.Merges s F (s.spread site expand sp c)
      ((s.withDocument d).spread site expand' sp c') := by
  simp only [spread, ← h.visited, withDocument_schema]
  split
  · exact h
  · have hget := hd.fragments.get? sp.fragment
    have hdocument : (s.withDocument d).document = d := rfl
    rw [hdocument, Document.fragment?, Document.fragment?]
    generalize Entries.get? sp.fragment s.document.fragments = found at hget ⊢
    generalize Entries.get? sp.fragment d.fragments = found' at hget ⊢
    cases hget with
    | none => exact (h.visit _).record _
    | @some f _ hf =>
      obtain ⟨nodes, hnodes, rfl⟩ := hf
      cases ha : s.schema.applies site.objectType f.condition with
      | false => simpa [ha] using h.visit sp.fragment
      | true => simpa [ha] using he _ _ _ _ hnodes (h.visit sp.fragment)

theorem collectNodes_merges {nodes nodes' : List (Selection Literal)}
    (hn : Selection.Merges F nodes nodes') : ∀ {c c' : Collected}, Collected.Merges s F c c' →
      Collected.Merges s F (s.collectNodes site expand nodes c)
        ((s.withDocument d).collectNodes site expand' nodes' c') := by
  induction hn with
  | nil =>
    intro c c' h
    rw [collectNodes, collectNodes]
    exact h
  | field head hin _ _ ih =>
    intro c c' h
    rw [collectNodes, collectNodes, collectNode, collectNode]
    exact ih (whenIncluded_merges _ h (h.addField head hin))
  | spread sp _ ih =>
    intro c c' h
    rw [collectNodes, collectNodes, collectNode, collectNode]
    exact ih (whenIncluded_merges _ h (spread_merges hd he sp h))
  | inline head hin _ ihin ih =>
    intro c c' h
    rw [collectNodes, collectNodes, collectNode, collectNode]
    refine ih (whenIncluded_merges _ h ?_)
    have happlies : (s.withDocument d).applies site head.condition =
        s.applies site head.condition := rfl
    rw [happlies]
    split
    · exact ihin h
    · exact h
  | merge hF hagain hin _ _ ih =>
    intro c c' h
    rw [collectNodes, collectNodes, collectNodes, collectNode, collectNode, collectNode]
    exact ih (whenIncluded_whenIncluded_merges hF hagain hin h)

omit he

theorem collectWithin_merges : ∀ (expansions : Nat) (nodes nodes' : List (Selection Literal))
    (c c' : Collected), Selection.Merges F nodes nodes' → Collected.Merges s F c c' →
    Collected.Merges s F (s.collectWithin site expansions nodes c)
      ((s.withDocument d).collectWithin site expansions nodes' c')
  | 0 => fun _ _ _ _ hn => collectNodes_merges hd (fun _ _ _ _ _ h => h) hn
  | expansions + 1 => fun _ _ _ _ hn =>
      collectNodes_merges hd (collectWithin_merges expansions) hn

theorem collect_merges {nodes nodes' : List (Selection Literal)}
    (hn : Selection.Merges F nodes nodes') :
    Collected.Merges s F (s.collect site nodes) ((s.withDocument d).collect site nodes') := by
  have hlength : (s.withDocument d).document.fragments.length = s.document.fragments.length :=
    hd.fragments.length_eq.symm
  rw [collect, collect, hlength]
  exact collectWithin_merges hd _ nodes nodes' _ _ hn .empty

theorem mirrors_of_merges :
    s.Mirrors d (SameUpTo (s.FailsOn F)) (Selection.Merges F) where
  errors hn := (collect_merges hd hn).errors
  groups hn := (collect_merges hd hn).groups

end Setting

end Execution

end GraphQL
