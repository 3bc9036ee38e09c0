import GraphQL.Proofs.Document.Pruning
import GraphQL.Proofs.Execution.Mirrors
import GraphQL.Proofs.Execution.Submissions

/-!
What excluded nodes contribute: nothing.

With the standard directives, collecting from a pruned document leaves the pruned fields of the
document, so the two are executed by the same tasks (`Submission.execution_prune`).
-/

set_option autoImplicit false

namespace GraphQL

open Json

namespace Execution

/-- Two collections that differ only in that the fields of the second one are pruned. -/
structure Collected.Prunes (bindings : Entries Value) (c c' : Collected) : Prop where
  visited : c.visited = c'.visited
  errors : c.errors = c'.errors
  groups : Entries.Alike (List.Forall₂ fun f f' =>
    Selection.AllDecided bindings f.selections ∧ f' = f.prune bindings) c.groups c'.groups

namespace Collected.Prunes

variable {bindings : Entries Value} {c c' : Collected}

theorem empty (bindings : Entries Value) : Collected.empty.Prunes bindings .empty :=
  ⟨rfl, rfl, .nil⟩

theorem addField (h : c.Prunes bindings c') {f : Field Literal}
    (hf : Selection.AllDecided bindings f.selections) :
    (c.addField f).Prunes bindings (c'.addField (f.prune bindings)) where
  visited := h.visited
  errors := h.errors
  groups := h.groups.insert _ (List.rel_append (h.groups.getD_get? _ .nil) (.cons ⟨hf, rfl⟩ .nil))

theorem record (h : c.Prunes bindings c') (e : Error) :
    (c.record e).Prunes bindings (c'.record e) :=
  ⟨h.visited, congrArg (· ++ [e]) h.errors, h.groups⟩

theorem visit (h : c.Prunes bindings c') (name : String) :
    (c.visit name).Prunes bindings (c'.visit name) :=
  ⟨congrArg (name :: ·) h.visited, h.errors, h.groups⟩

end Collected.Prunes

namespace Setting

variable {s : Setting} {site : Site}
  {expand expand' : List (Selection Literal) → Collected → Collected} {c c' : Collected}

theorem whenIncluded_of_true {directives : List (Directive Literal)}
    (hi : s.directives.includes s.bindings site.context directives = .ok true)
    (inside : Collected → Collected) (c : Collected) :
    s.whenIncluded site directives inside c = inside c := by
  rw [whenIncluded, hi]

theorem whenIncluded_of_false {directives : List (Directive Literal)}
    (hi : s.directives.includes s.bindings site.context directives = .ok false)
    (inside : Collected → Collected) (c : Collected) :
    s.whenIncluded site directives inside c = c := by
  rw [whenIncluded, hi]

section

variable (hs : s.directives = .standard)

include hs

theorem includes_of_kept {node : Selection Literal} (hd : node.Decided s.bindings)
    (hx : node.excluded s.bindings = false) :
    s.directives.includes s.bindings site.context node.directives = .ok true := by
  obtain ⟨included, hi⟩ := Selection.exists_includes hd
  rw [Selection.excluded, hi] at hx
  rw [hs, DirectiveChain.includes_standard _ _ .new, hi, show included = true by simpa using hx]

theorem includes_of_excluded {node : Selection Literal} (hx : node.excluded s.bindings = true) :
    s.directives.includes s.bindings site.context node.directives = .ok false := by
  rw [hs, DirectiveChain.includes_standard _ _ .new]
  rw [Selection.excluded] at hx
  split at hx
  · next included hi => rw [hi, show included = false by simpa using hx]
  · cases hx

theorem collectNode_of_excluded {node : Selection Literal} (hx : node.excluded s.bindings = true)
    (c : Collected) : s.collectNode site expand node c = c := by
  have hi : s.directives.includes s.bindings site.context node.directives = .ok false :=
    includes_of_excluded hs hx
  cases node with
  | field | spread | inline =>
    rw [collectNode]
    exact whenIncluded_of_false hi _ c

theorem whenIncluded_unconditional (d : Document) (directives : List (Directive Literal))
    (inside : Collected → Collected) (c : Collected) :
    (s.withDocument d).whenIncluded site (Directive.unconditional directives) inside c =
      inside c := by
  refine whenIncluded_of_true ?_ inside c
  rw [withDocument_directives, hs]
  exact DirectiveChain.includes_unconditional _ _ _

end

theorem spread_prunes
    (hd : ∀ name f, s.document.fragment? name = some f →
      Selection.AllDecided s.bindings f.selections)
    (he : ∀ nodes c c', Selection.AllDecided s.bindings nodes → c.Prunes s.bindings c' →
      (expand nodes c).Prunes s.bindings (expand' (Selection.pruneAll s.bindings nodes) c'))
    (sp : Spread Literal) (directives : List (Directive Literal)) (h : c.Prunes s.bindings c') :
    (s.spread site expand sp c).Prunes s.bindings
      ((s.withDocument (s.document.prune s.bindings)).spread site expand'
        { sp with directives := directives } c') := by
  have hf : (s.withDocument (s.document.prune s.bindings)).document.fragment? sp.fragment =
      (s.document.fragment? sp.fragment).map (·.prune s.bindings) :=
    s.document.fragment?_prune s.bindings sp.fragment
  simp only [spread, ← h.visited, hf, withDocument_schema]
  split
  · exact h
  · cases hfragment : s.document.fragment? sp.fragment with
    | none => exact (h.visit _).record _
    | some f =>
      simp only [Option.map_some]
      change Collected.Prunes _ _ (if s.schema.applies site.objectType f.condition then _ else _)
      split
      · exact he _ _ _ (hd _ f hfragment) (h.visit _)
      · exact h.visit _

mutual

theorem collectNode_prunes (hs : s.directives = .standard)
    (hd : ∀ name f, s.document.fragment? name = some f →
      Selection.AllDecided s.bindings f.selections)
    (he : ∀ nodes c c', Selection.AllDecided s.bindings nodes → c.Prunes s.bindings c' →
      (expand nodes c).Prunes s.bindings (expand' (Selection.pruneAll s.bindings nodes) c')) :
    ∀ (node : Selection Literal) (c c' : Collected), node.Decided s.bindings →
      node.excluded s.bindings = false → c.Prunes s.bindings c' →
      (s.collectNode site expand node c).Prunes s.bindings
        ((s.withDocument (s.document.prune s.bindings)).collectNode site expand'
          (node.prune s.bindings) c')
  | .field head selections, c, c', hnode, hx, h => by
    rw [Selection.prune, collectNode, collectNode, whenIncluded_unconditional hs]
    exact whenIncluded_of_true (includes_of_kept hs hnode hx) _ c ▸ h.addField hnode.2
  | .spread sp, c, c', hnode, hx, h => by
    rw [Selection.prune, collectNode, collectNode, whenIncluded_unconditional hs]
    exact whenIncluded_of_true (includes_of_kept hs hnode hx) _ c ▸ spread_prunes hd he sp _ h
  | .inline head selections, c, c', hnode, hx, h => by
    rw [Selection.prune, collectNode, collectNode, whenIncluded_unconditional hs]
    refine whenIncluded_of_true (includes_of_kept hs hnode hx) _ c ▸ ?_
    change Collected.Prunes _ _ (if s.applies site head.condition then _ else _)
    split
    · exact collectNodes_prunes hs hd he selections c c' hnode.2 h
    · exact h

theorem collectNodes_prunes (hs : s.directives = .standard)
    (hd : ∀ name f, s.document.fragment? name = some f →
      Selection.AllDecided s.bindings f.selections)
    (he : ∀ nodes c c', Selection.AllDecided s.bindings nodes → c.Prunes s.bindings c' →
      (expand nodes c).Prunes s.bindings (expand' (Selection.pruneAll s.bindings nodes) c')) :
    ∀ (nodes : List (Selection Literal)) (c c' : Collected),
      Selection.AllDecided s.bindings nodes → c.Prunes s.bindings c' →
      (s.collectNodes site expand nodes c).Prunes s.bindings
        ((s.withDocument (s.document.prune s.bindings)).collectNodes site expand'
          (Selection.pruneAll s.bindings nodes) c')
  | [], c, c', _, h => by
    rw [Selection.pruneAll, collectNodes, collectNodes]
    exact h
  | node :: nodes, c, c', hnodes, h => by
    rw [Selection.pruneAll, collectNodes]
    split
    · next hx =>
      rw [collectNode_of_excluded hs hx]
      exact collectNodes_prunes hs hd he nodes c c' hnodes.2 h
    · next hx =>
      rw [collectNodes]
      exact collectNodes_prunes hs hd he nodes _ _ hnodes.2
        (collectNode_prunes hs hd he node c c' hnodes.1 (by simpa using hx) h)

end

theorem collectWithin_prunes (hs : s.directives = .standard)
    (hd : ∀ name f, s.document.fragment? name = some f →
      Selection.AllDecided s.bindings f.selections) : ∀ (expansions : Nat)
    (nodes : List (Selection Literal)) (c c' : Collected),
    Selection.AllDecided s.bindings nodes → c.Prunes s.bindings c' →
    (s.collectWithin site expansions nodes c).Prunes s.bindings
      ((s.withDocument (s.document.prune s.bindings)).collectWithin site expansions
        (Selection.pruneAll s.bindings nodes) c')
  | 0 => collectNodes_prunes hs hd fun _ _ _ _ h => h
  | expansions + 1 => collectNodes_prunes hs hd (collectWithin_prunes hs hd expansions)

/-- Pruned selections are collected to pruned fields. -/
theorem collect_prunes (hs : s.directives = .standard)
    (hd : ∀ name f, s.document.fragment? name = some f →
      Selection.AllDecided s.bindings f.selections) {nodes : List (Selection Literal)}
    (hn : Selection.AllDecided s.bindings nodes) :
    (s.collect site nodes).Prunes s.bindings
      ((s.withDocument (s.document.prune s.bindings)).collect site
        (Selection.pruneAll s.bindings nodes)) := by
  have hlength : (s.withDocument (s.document.prune s.bindings)).document.fragments.length =
      s.document.fragments.length := List.length_map _
  rw [collect, collect, hlength]
  exact collectWithin_prunes hs hd _ nodes _ _ hn (.empty _)

end Setting

theorem fieldsMirror_of_prunes {s : Setting} (hs : s.directives = .standard)
    {fields fields' : List (Field Literal)}
    (h : List.Forall₂ (fun f f' =>
      Selection.AllDecided s.bindings f.selections ∧ f' = f.prune s.bindings) fields fields') :
    FieldsMirror s (fun nodes nodes' => Selection.AllDecided s.bindings nodes ∧
      nodes' = Selection.pruneAll s.bindings nodes) fields fields' := by
  have hall : Selection.AllDecided s.bindings (fields.flatMap (·.selections)) ∧
      fields'.flatMap (·.selections) =
        Selection.pruneAll s.bindings (fields.flatMap (·.selections)) := by
    induction h with
    | nil => exact ⟨trivial, rfl⟩
    | cons hf _ ih =>
      obtain ⟨hf, rfl⟩ := hf
      rw [List.flatMap_cons, List.flatMap_cons, Selection.pruneAll_append, ih.2]
      exact ⟨Selection.allDecided_append.2 ⟨hf, ih.1⟩, rfl⟩
  cases h with
  | nil => exact .nil
  | cons hf =>
    refine .cons ?_ hall
    obtain ⟨-, rfl⟩ := hf
    refine ⟨rfl, rfl, rfl, fun context => funext fun value => ?_⟩
    rw [hs, DirectiveChain.transform_standard, DirectiveChain.transform_standard]

theorem Setting.mirrors_prune {s : Setting} (hs : s.directives = .standard)
    (hd : ∀ name f, s.document.fragment? name = some f →
      Selection.AllDecided s.bindings f.selections) :
    s.Mirrors (s.document.prune s.bindings) Eq fun nodes nodes' =>
      Selection.AllDecided s.bindings nodes ∧ nodes' = Selection.pruneAll s.bindings nodes where
  errors := by
    rintro site nodes _ ⟨hn, rfl⟩
    exact (collect_prunes hs hd hn).errors
  groups := by
    rintro site nodes _ ⟨hn, rfl⟩
    exact (collect_prunes hs hd hn).groups.imp fun _ _ h => fieldsMirror_of_prunes hs h

end Execution

open Execution

/-- The query for the pruned document. -/
def PreparedQuery.prune (bindings : Entries Value) (q : PreparedQuery) : PreparedQuery :=
  { q with document := q.document.prune bindings }

theorem PreparedQuery.plan_prune {q : PreparedQuery} {variableValues : Entries Value}
    {operationName : Option String} {plan : Plan}
    (h : q.plan variableValues operationName = .ok (some plan)) (bindings : Entries Value) :
    (q.prune bindings).plan variableValues operationName =
      .ok (some { plan with operation := plan.operation.prune bindings }) := by
  have ho := (PreparedQuery.of_plan h).1
  have ho' : (q.document.prune bindings).select operationName =
      .ok (some (plan.operation.prune bindings)) := by
    rw [Document.select_prune, ho]
    rfl
  have hplan := PreparedQuery.plan_withDocument ho ho' rfl rfl variableValues
  rw [h] at hplan
  exact hplan

/-- With the standard directives an execution does the same for the pruned document. -/
theorem Executor.task_prune {executor : Executor} (hs : executor.directives = .standard)
    {document : Document} {plan : Plan}
    (ho : Selection.AllDecided plan.bindings plan.operation.selections)
    (hd : ∀ name f, document.fragment? name = some f →
      Selection.AllDecided plan.bindings f.selections) :
    executor.task (document.prune plan.bindings)
        { plan with operation := plan.operation.prune plan.bindings } =
      executor.task document plan := by
  have hmirrors := Setting.mirrors_prune (s := executor.setting document plan.bindings) hs hd
  exact (hmirrors.selectionSet _ _ plan.rootType executor.rootValue [] _ _ ⟨ho, rfl⟩).eq.symm

namespace Submission

variable {Memory : Type}

def prune (bindings : Entries Value) (s : Submission) : Submission :=
  { s with query := s.query.prune bindings }

theorem plan_prune {s : Submission} {contexts : ContextStore} {plan : Plan}
    (hp : (s.plan contexts).1 = .ok (some plan)) (bindings : Entries Value) :
    (s.prune bindings).plan contexts =
      (.ok (some { plan with operation := plan.operation.prune bindings }),
        (s.plan contexts).2) :=
  Prod.ext (PreparedQuery.plan_prune hp bindings) rfl

theorem start_prune {s : Submission} {contexts : ContextStore} {plan : Plan}
    (hp : (s.plan contexts).1 = .ok (some plan))
    (hstandard : s.query.executor.directives = .standard)
    (ho : Selection.AllDecided plan.bindings plan.operation.selections)
    (hd : ∀ name f, s.query.document.fragment? name = some f →
      Selection.AllDecided plan.bindings f.selections) :
    (s.prune plan.bindings).start contexts = s.start contexts := by
  rw [start, start, plan_prune hp, hp]
  exact congrArg (s.query.executor.start _) (Executor.task_prune hstandard ho hd)

theorem conclude_prune {s : Submission} {contexts : ContextStore} {plan : Plan}
    (hp : (s.plan contexts).1 = .ok (some plan)) (bindings : Entries Value) (number : Nat)
    (last : State) :
    (s.prune bindings).conclude contexts number last = s.conclude contexts number last := by
  rw [conclude, conclude, plan_prune hp, hp]
  rfl

/-- The nodes that the standard directives exclude contribute nothing, if these directives fail on
no node: the pruned document in place of the document makes no difference to any response, to the
calls of resolvers or to the contexts. -/
theorem execution_prune (schedule : Schedule Memory) (memory : Memory)
    {submissions : List Submission} {contexts : ContextStore} {number : Nat} {s : Submission}
    {plan : Plan} (hs : submissions[number]? = some s)
    (hp : (s.plan contexts).1 = .ok (some plan))
    (hstandard : s.query.executor.directives = .standard)
    (ho : Selection.AllDecided plan.bindings plan.operation.selections)
    (hd : ∀ name f, s.query.document.fragment? name = some f →
      Selection.AllDecided plan.bindings f.selections) :
    executeAllWith schedule memory (submissions.set number (s.prune plan.bindings)) contexts =
      executeAllWith schedule memory submissions contexts := by
  obtain ⟨hlt, hget⟩ := List.getElem?_eq_some_iff.1 hs
  have hstart : (submissions.set number (s.prune plan.bindings)).map (·.start contexts) =
      submissions.map (·.start contexts) := by
    have hlt' : number < (submissions.map (·.start contexts)).length := by simpa using hlt
    have hs' : s.start contexts = (submissions.map (·.start contexts))[number] := by simp [hget]
    rw [List.map_set, start_prune hp hstandard ho hd, hs', List.set_getElem_self]
  have hrun : run schedule memory (submissions.set number (s.prune plan.bindings)) contexts =
      run schedule memory submissions contexts := by
    rw [run, run, hstart]
  rw [executeAllWith, executeAllWith, hrun]
  congr 1
  refine List.ext_getElem? fun i => ?_
  rw [List.getElem?_mapIdx, List.getElem?_mapIdx, List.getElem?_set]
  split
  · next hi =>
    subst hi
    rw [hs, Option.map_some, Option.map_some, conclude_prune hp]
  · rfl

/-- A query for both fields of the small schema, of which the first one is skipped. -/
def skipping (resolver : Resolver) : Submission where
  query := (Executor.small resolver).prepare
    ⟨[("", ⟨none, .query, [], [],
      [.field ⟨none, "a", [], [⟨"skip", [⟨"if", .boolean true⟩], none⟩], none⟩ [],
        .field ⟨none, "b", [], [], none⟩ []], none⟩)], []⟩
  variableValues := []
  context := ⟨0, none⟩
  operationName := none

theorem execution_prune_skipping :
    let s := skipping (.constant (.int 7))
    let bare : Document :=
      ⟨[("", ⟨none, .query, [], [], [.field ⟨none, "b", [], [], none⟩ []], none⟩)], []⟩
    s.query.document.prune [] = bare ∧
      executeAllWith .first () [s.prune []] ⟨[[]], 0⟩ = executeAllWith .first () [s] ⟨[[]], 0⟩ := by
  intro s bare
  let plan : Plan := ⟨⟨none, .query, [], [],
    [.field ⟨none, "a", [], [⟨"skip", [⟨"if", .boolean true⟩], none⟩], none⟩ [],
      .field ⟨none, "b", [], [], none⟩ []], none⟩, (Plan.small (.constant (.int 7))).rootType, []⟩
  have hp : (s.plan ⟨[[]], 0⟩).1 = .ok (some plan) := rfl
  have ho : Selection.AllDecided plan.bindings plan.operation.selections :=
    ⟨⟨⟨false, rfl⟩, trivial⟩, ⟨⟨true, rfl⟩, trivial⟩, trivial⟩
  have hs : [s][0]? = some s := rfl
  have hd : ∀ name f, s.query.document.fragment? name = some f →
      Selection.AllDecided plan.bindings f.selections := nofun
  have hprune : s.query.document.prune [] = bare := rfl
  have hstandard : s.query.executor.directives = .standard := rfl
  have h := execution_prune .first () hs hp hstandard ho hd
  exact ⟨hprune, h⟩

end Submission

end GraphQL
