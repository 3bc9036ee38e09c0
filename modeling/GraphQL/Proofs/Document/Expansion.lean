import GraphQL.Document.Document
import GraphQL.Proofs.Entries
import Mathlib.Data.Fintype.Card
import Mathlib.Data.Set.Finite.Basic
import Mathlib.Logic.Relation

/-!
Documents with inline fragments in place of the spreads of fragments.

Where no fragment spreads itself, all spreads can be replaced (`Document.Acyclic.exists_expandsTo`),
and in one way only (`Document.Expands.unique`).
-/

set_option autoImplicit false

namespace GraphQL

namespace Selection

variable {V : Type}

mutual

/-- The names of the fragments that are spread in a node, at any depth. -/
def spreads : Selection V → List String
  | field _ selections => spreadsAll selections
  | spread sp => [sp.fragment]
  | inline _ selections => spreadsAll selections

def spreadsAll : List (Selection V) → List String
  | [] => []
  | node :: nodes => node.spreads ++ spreadsAll nodes

end

end Selection

namespace Document

/-- The first fragment spreads the second one, at any depth. -/
def Spreads (d : Document) (name name' : String) : Prop :=
  ∃ f, d.fragment? name = some f ∧ name' ∈ Selection.spreadsAll f.selections

/-- No fragment spreads itself, directly or through others. -/
def Acyclic (d : Document) : Prop := ∀ name, ¬ Relation.TransGen d.Spreads name name

/-- Selections, and the same with an inline fragment in place of every spread of a fragment of the
document. The inline fragment has the directives of the spread, the condition of the fragment and
the selections of the fragment with all spreads in them replaced. -/
inductive Expands (d : Document) : List (Selection Literal) → List (Selection Literal) → Prop where
  | nil : Expands d [] []
  | field (head : FieldHead Literal) {selections expanded nodes nodes' : List (Selection Literal)} :
      Expands d selections expanded → Expands d nodes nodes' →
      Expands d (.field head selections :: nodes) (.field head expanded :: nodes')
  | spread (sp : Spread Literal) {f : Fragment Literal}
      {expanded nodes nodes' : List (Selection Literal)} :
      d.fragment? sp.fragment = some f → Expands d f.selections expanded → Expands d nodes nodes' →
      Expands d (.spread sp :: nodes)
        (.inline ⟨some f.condition, sp.directives, sp.location⟩ expanded :: nodes')
  | unknown (sp : Spread Literal) {nodes nodes' : List (Selection Literal)} :
      d.fragment? sp.fragment = none → Expands d nodes nodes' →
      Expands d (.spread sp :: nodes) (.spread sp :: nodes')
  | inline (head : InlineHead Literal)
      {selections expanded nodes nodes' : List (Selection Literal)} :
      Expands d selections expanded → Expands d nodes nodes' →
      Expands d (.inline head selections :: nodes) (.inline head expanded :: nodes')

/-- The document in which all spreads of its fragments are replaced, in the operations and in the
fragments. -/
structure ExpandsTo (d d' : Document) : Prop where
  operations : Entries.Alike (fun o o' =>
    ∃ expanded, d.Expands o.selections expanded ∧ o' = { o with selections := expanded })
    d.operations d'.operations
  fragments : Entries.Alike (fun f f' =>
    ∃ expanded, d.Expands f.selections expanded ∧ f' = { f with selections := expanded })
    d.fragments d'.fragments

namespace Expands

variable {d : Document} {nodes nodes' : List (Selection Literal)}

theorem unique (h : d.Expands nodes nodes') {nodes'' : List (Selection Literal)}
    (h' : d.Expands nodes nodes'') : nodes' = nodes'' := by
  induction h generalizing nodes'' with
  | nil =>
    cases h'
    rfl
  | field head _ _ ihin ih =>
    cases h' with
    | field _ hin' h' => rw [ihin hin', ih h']
  | spread sp hf _ _ ihin ih =>
    cases h' with
    | spread _ hf' hin' h' =>
      cases hf.symm.trans hf'
      rw [ihin hin', ih h']
    | unknown _ hf' _ => cases hf.symm.trans hf'
  | unknown sp hf _ ih =>
    cases h' with
    | spread _ hf' _ _ => cases hf.symm.trans hf'
    | unknown _ _ h' => rw [ih h']
  | inline head _ _ ihin ih =>
    cases h' with
    | inline _ hin' h' => rw [ihin hin', ih h']

theorem append {later later' : List (Selection Literal)} (h : d.Expands nodes nodes')
    (hl : d.Expands later later') : d.Expands (nodes ++ later) (nodes' ++ later') := by
  induction h with
  | nil => exact hl
  | field head hin _ _ ih => exact .field head hin ih
  | spread sp hf hin _ _ ih => exact .spread sp hf hin ih
  | unknown sp hf _ ih => exact .unknown sp hf ih
  | inline head hin _ _ ih => exact .inline head hin ih

theorem exists_of_cons_right {node' : Selection Literal} {rest' : List (Selection Literal)}
    (h : d.Expands nodes (node' :: rest')) :
    ∃ node rest, nodes = node :: rest ∧ d.Expands [node] [node'] ∧ d.Expands rest rest' := by
  cases h with
  | field head hin h => exact ⟨_, _, rfl, .field head hin .nil, h⟩
  | spread sp hf hin h => exact ⟨_, _, rfl, .spread sp hf hin .nil, h⟩
  | unknown sp hf h => exact ⟨_, _, rfl, .unknown sp hf .nil, h⟩
  | inline head hin h => exact ⟨_, _, rfl, .inline head hin .nil, h⟩

theorem exists_of_append {front' back' : List (Selection Literal)}
    (h : d.Expands nodes (front' ++ back')) :
    ∃ front back, nodes = front ++ back ∧ d.Expands front front' ∧ d.Expands back back' := by
  induction front' generalizing nodes with
  | nil => exact ⟨[], nodes, rfl, .nil, h⟩
  | cons node' front' ih =>
    obtain ⟨node, rest, rfl, hnode, hrest⟩ := exists_of_cons_right h
    obtain ⟨front, back, rfl, hfront, hback⟩ := ih hrest
    exact ⟨node :: front, back, rfl, hnode.append hfront, hback⟩

/-- The first node has the same directives as what takes its place. -/
theorem exists_of_cons {node : Selection Literal} (h : d.Expands (node :: nodes) nodes') :
    ∃ node' rest', nodes' = node' :: rest' ∧ node'.directives = node.directives ∧
      d.Expands nodes rest' := by
  cases h with
  | field _ _ h | spread _ _ _ h | unknown _ _ h | inline _ _ h => exact ⟨_, _, rfl, rfl, h⟩

end Expands

section Existence

variable {d : Document}

mutual

theorem exists_expands_node : ∀ node : Selection Literal,
    (∀ name ∈ node.spreads, ∀ f, d.fragment? name = some f → ∃ expanded,
      d.Expands f.selections expanded) → ∃ nodes', d.Expands [node] nodes'
  | .field head selections, h => by
    obtain ⟨expanded, hexpands⟩ := exists_expands selections h
    exact ⟨_, .field head hexpands .nil⟩
  | .spread sp, h => by
    cases hf : d.fragment? sp.fragment with
    | none => exact ⟨_, .unknown sp hf .nil⟩
    | some f =>
      obtain ⟨expanded, hexpands⟩ := h sp.fragment List.mem_cons_self f hf
      exact ⟨_, .spread sp hf hexpands .nil⟩
  | .inline head selections, h => by
    obtain ⟨expanded, hexpands⟩ := exists_expands selections h
    exact ⟨_, .inline head hexpands .nil⟩

/-- Selections can be expanded if the fragments can that are spread in them. -/
theorem exists_expands : ∀ nodes : List (Selection Literal),
    (∀ name ∈ Selection.spreadsAll nodes, ∀ f, d.fragment? name = some f → ∃ expanded,
      d.Expands f.selections expanded) → ∃ nodes', d.Expands nodes nodes'
  | [], _ => ⟨[], .nil⟩
  | node :: nodes, h => by
    obtain ⟨first, hfirst⟩ := exists_expands_node node fun name hname =>
      h name (List.mem_append_left _ hname)
    obtain ⟨rest, hrest⟩ := exists_expands nodes fun name hname =>
      h name (List.mem_append_right _ hname)
    exact ⟨first ++ rest, hfirst.append hrest⟩

end

namespace Acyclic

/-- What fragments of an acyclic document spread is well-founded. -/
theorem wellFounded (h : d.Acyclic) :
    WellFounded fun a b : {name // name ∈ Entries.keys d.fragments} => d.Spreads b a := by
  let spreadBy (a b : {name // name ∈ Entries.keys d.fragments}) : Prop := d.Spreads b a
  have htrans : IsTrans _ (Relation.TransGen spreadBy) := ⟨fun _ _ _ => Relation.TransGen.trans⟩
  have hirrefl : Std.Irrefl (Relation.TransGen spreadBy) := by
    constructor
    intro a ha
    have hswap : Relation.TransGen (Function.swap spreadBy) a a := Relation.transGen_swap.2 ha
    exact h a (hswap.lift Subtype.val fun _ _ => id)
  have hfinite : Finite {name // name ∈ Entries.keys d.fragments} :=
    (Entries.keys d.fragments).finite_toSet
  have hwf := Finite.wellFounded_of_trans_of_irrefl (Relation.TransGen spreadBy)
  exact Subrelation.wf (fun hspread => Relation.TransGen.single (r := spreadBy) hspread) hwf

theorem exists_expands (h : d.Acyclic) (nodes : List (Selection Literal)) :
    ∃ nodes', d.Expands nodes nodes' := by
  have hkey : ∀ {name : String} {f : Fragment Literal}, d.fragment? name = some f →
      name ∈ Entries.keys d.fragments := fun hf => List.mem_map.2 ⟨_, Entries.mem_of_get? hf, rfl⟩
  have hfragment : ∀ (a : {name // name ∈ Entries.keys d.fragments}) (f : Fragment Literal),
      d.fragment? a = some f → ∃ expanded, d.Expands f.selections expanded := by
    intro a
    induction a using h.wellFounded.induction with
    | _ a ih =>
      intro f hf
      refine Document.exists_expands f.selections fun name hname g hg => ?_
      exact ih ⟨name, hkey hg⟩ ⟨f, hf, hname⟩ g hg
  exact Document.exists_expands nodes fun name _ f hf => hfragment ⟨name, hkey hf⟩ f hf

theorem exists_expandsTo (h : d.Acyclic) : ∃ d', d.ExpandsTo d' := by
  obtain ⟨operations, ho⟩ := Entries.Alike.exists_of_forall (m := d.operations)
    (P := fun o o' => ∃ expanded, d.Expands o.selections expanded ∧
      o' = { o with selections := expanded }) fun o =>
    let ⟨expanded, he⟩ := h.exists_expands o.selections
    ⟨_, expanded, he, rfl⟩
  obtain ⟨fragments, hf⟩ := Entries.Alike.exists_of_forall (m := d.fragments)
    (P := fun f f' => ∃ expanded, d.Expands f.selections expanded ∧
      f' = { f with selections := expanded }) fun f =>
    let ⟨expanded, he⟩ := h.exists_expands f.selections
    ⟨_, expanded, he, rfl⟩
  exact ⟨⟨operations, fragments⟩, ho, hf⟩

end Acyclic

end Existence

namespace ExpandsTo

variable {d d' : Document}

theorem fragment?_eq_none_iff (h : d.ExpandsTo d') {name : String} :
    d'.fragment? name = none ↔ d.fragment? name = none := by
  have hget := h.fragments.get? name
  unfold fragment?
  generalize Entries.get? name d.fragments = found at hget ⊢
  generalize Entries.get? name d'.fragments = found' at hget ⊢
  cases hget with
  | none => rfl
  | some _ => simp

theorem unique (h : d.ExpandsTo d') {d'' : Document} (h' : d.ExpandsTo d'') : d' = d'' := by
  have ho := h.operations.unique (fun ⟨_, he, ho⟩ ⟨_, he', ho'⟩ => by
    rw [ho, ho', he.unique he']) h'.operations
  have hf := h.fragments.unique (fun ⟨_, he, hf⟩ ⟨_, he', hf'⟩ => by
    rw [hf, hf', he.unique he']) h'.fragments
  exact congrArg₂ Document.mk ho hf

end ExpandsTo

end Document

end GraphQL
