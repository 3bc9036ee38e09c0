import GraphQL.Document.Document
import GraphQL.Proofs.Document.Alike
import GraphQL.Proofs.Entries

/-!
Documents in which a field that occurs twice in a row is written once.

The first occurrence stays and takes the selections of the second one after its own
(`Selection.Merges`). Occurrences of one field differ in their locations only.
-/

set_option autoImplicit false

namespace GraphQL

section

variable {V : Type} {head head' : FieldHead V}

theorem FieldHead.responseKey_eq_of_unlocated (h : head'.unlocated = head.unlocated) :
    head'.responseKey = head.responseKey := by
  have hkey := congrArg FieldHead.responseKey h
  exact hkey

theorem FieldHead.directives_eq_of_unlocated (h : head'.unlocated = head.unlocated) :
    head'.directives.map (·.unlocated) = head.directives.map (·.unlocated) :=
  congrArg FieldHead.directives h

end

/-- Selections, and the same where fields of a kind that occurred twice in a row occur once, as
often and as deep as one likes. -/
inductive Selection.Merges {V : Type} (F : FieldHead V → Prop) :
    List (Selection V) → List (Selection V) → Prop where
  | nil : Merges F [] []
  | field (head : FieldHead V) {selections selections' nodes nodes' : List (Selection V)} :
      Merges F selections selections' → Merges F nodes nodes' →
      Merges F (.field head selections :: nodes) (.field head selections' :: nodes')
  | spread (sp : Spread V) {nodes nodes' : List (Selection V)} : Merges F nodes nodes' →
      Merges F (.spread sp :: nodes) (.spread sp :: nodes')
  | inline (head : InlineHead V) {selections selections' nodes nodes' : List (Selection V)} :
      Merges F selections selections' → Merges F nodes nodes' →
      Merges F (.inline head selections :: nodes) (.inline head selections' :: nodes')
  | merge {head again : FieldHead V}
      {selections more selections' nodes nodes' : List (Selection V)} : F head →
      again.unlocated = head.unlocated → Merges F (selections ++ more) selections' →
      Merges F nodes nodes' →
      Merges F (.field head selections :: .field again more :: nodes)
        (.field head selections' :: nodes')

namespace Selection

variable {V : Type} {F : FieldHead V → Prop}

theorem merges_self : ∀ nodes : List (Selection V), Merges F nodes nodes
  | [] => .nil
  | .field head selections :: nodes => .field head (merges_self selections) (merges_self nodes)
  | .spread sp :: nodes => .spread sp (merges_self nodes)
  | .inline head selections :: nodes => .inline head (merges_self selections) (merges_self nodes)

theorem Merges.append {nodes nodes' later later' : List (Selection V)} (h : Merges F nodes nodes')
    (hl : Merges F later later') : Merges F (nodes ++ later) (nodes' ++ later') := by
  induction h with
  | nil => exact hl
  | field head hin _ _ ih => exact .field head hin ih
  | spread sp _ ih => exact .spread sp ih
  | inline head hin _ _ ih => exact .inline head hin ih
  | merge hF hsame hin _ _ ih => exact .merge hF hsame hin ih

/-- Two occurrences of a field in a row, among other nodes, are merged to one. -/
theorem merges_adjacent {head again : FieldHead V} (hF : F head)
    (hagain : again.unlocated = head.unlocated)
    (before selections more after : List (Selection V)) :
    Merges F (before ++ .field head selections :: .field again more :: after)
      (before ++ .field head (selections ++ more) :: after) :=
  (merges_self before).append (.merge hF hagain (merges_self _) (merges_self after))

end Selection

/-- The same document but for fields of a kind that occurred twice in a row. -/
structure Document.Merges (F : FieldHead Literal → Prop) (d d' : Document) : Prop where
  operations : Entries.Alike (fun o o' =>
    ∃ nodes, Selection.Merges F o.selections nodes ∧ o' = { o with selections := nodes })
    d.operations d'.operations
  fragments : Entries.Alike (fun f f' =>
    ∃ nodes, Selection.Merges F f.selections nodes ∧ f' = { f with selections := nodes })
    d.fragments d'.fragments

end GraphQL
