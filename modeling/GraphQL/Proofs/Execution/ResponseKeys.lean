import GraphQL.Proofs.Execution.Expanded
import GraphQL.Proofs.Execution.Relabeling
import Mathlib.Data.List.Permutation
import Mathlib.Logic.Equiv.Basic

/-!
What response keys are for: nothing but to name results.

If resolvers do not look at paths, a document in which every field has another response key leads to
the same data and the same errors, with the other keys in the objects and in the paths
(`Submission.execution_relabel`).
-/

set_option autoImplicit false

namespace GraphQL

open Json

/-- Answers the same wherever in the response the field stands. -/
def Resolver.Pathless (resolver : Resolver) : Prop :=
  ∀ i path context, resolver.answer { i with path } context = resolver.answer i context

namespace Execution

/-- Whether a position was reached in an execution whose values are serialized as a whole. -/
def serializedAt (schema : Schema) (es : List Event) (path : Path) : Bool :=
  es.any fun
    | .reached p (some type) => p = path && type.isSerialized schema
    | _ => false

variable {schema : Schema} {es : List Event} {path : Path}

theorem serializedAt_of_reached (hclash : es.Pairwise fun a b => ¬ a.Clash b) {type : TypeRef}
    (h : .reached path (some type) ∈ es) :
    serializedAt schema es path = type.isSerialized schema := by
  refine Bool.eq_iff_iff.2 ?_
  rw [serializedAt, List.any_eq_true]
  constructor
  · rintro ⟨ev, hev, hserialized⟩
    split at hserialized
    · next p t =>
      obtain ⟨rfl, ht⟩ : p = path ∧ t.isSerialized schema = true := by simpa using hserialized
      obtain rfl : t = type := Option.some.inj (reached_unique hclash hev h)
      exact ht
    · cases hserialized
  · exact fun ht => ⟨_, h, by simpa using ht⟩

theorem serializedAt_eq_false (h : ∀ t, .reached path t ∉ es) :
    serializedAt schema es path = false := by
  rw [serializedAt, List.any_eq_false]
  intro ev hev
  split
  · next p type =>
    have hp : p ≠ path := by
      rintro rfl
      exact h _ hev
    simp [hp]
  · simp

theorem filterMap_error?_relabel (r : String → String) (es : List Event) :
    (es.map (Event.relabel r)).filterMap Event.error? =
      (es.filterMap Event.error?).map (Error.relabel r) := by
  rw [List.filterMap_map, List.map_filterMap]
  exact List.filterMap_congr fun ev _ => ev.error?_relabel r

end Execution

open Execution

/-- Two responses, of which the second one has the data and the errors of the first one under
other keys. -/
structure Response.Relabels (r : String → String) (leaf : Path → Bool) (x x' : Response) : Prop where
  data : x'.data = x.data.map (·.relabel r leaf [])
  errors : x'.errors.Perm (x.errors.map (Error.relabel r))
  extensions : x'.extensions = x.extensions

/-- What is planned under other keys is the same operation under these keys. -/
theorem PreparedQuery.plan_relabel (q : PreparedQuery) (r : String → String)
    (variableValues : Entries Value) (operationName : Option String) :
    (q.withDocument (q.document.relabel r)).plan variableValues operationName =
      (q.plan variableValues operationName).map
        (Option.map fun plan => { plan with operation := plan.operation.relabel r }) := by
  have hselect : (q.withDocument (q.document.relabel r)).document.select operationName = _ :=
    q.document.select_map (·.relabel r) (·.relabel r) operationName
  unfold plan
  rw [hselect]
  change (if !q.validationErrors.isEmpty then _ else _) = _
  by_cases hvalid : (!q.validationErrors.isEmpty) = true
  · rw [if_pos hvalid, if_pos hvalid]
    rfl
  · rw [if_neg hvalid, if_neg hvalid]
    cases q.document.select operationName with
    | error e => rfl
    | ok selected =>
      cases selected with
      | none =>
        change (if q.executor.configuration.requireOperation then _ else _) = _
        cases hrequire : q.executor.configuration.requireOperation <;> rfl
      | some o =>
        simp only [Except.map, Option.map_some, withDocument, Operation.relabel]
        cases q.executor.schema.rootType? o.kind with
        | none => rfl
        | some rootType =>
          cases coerceVariables q.executor.schema o.variableDefinitions variableValues <;> rfl

namespace Submission

variable {Memory Memory' : Type} (schedule : Schedule Memory) (memory : Memory)
  (schedule' : Schedule Memory') (memory' : Memory') (contexts : ContextStore)
  {submissions submissions' : List Submission} {number number' : Nat} {s : Submission}
  {r : String → String}

section

variable (hr : Function.Injective r) (hs : submissions[number]? = some s)
  (hf : ∀ s ∈ submissions, s.query.executor.Faithful)
  (hquiet : ∀ s ∈ submissions, s.query.executor.schema.Resolvers Resolver.Quiet)
  (hsteady : Steady schedule memory submissions contexts s)
  (hs' : submissions'[number']? = some (s.withDocument (s.query.document.relabel r)))
  (hf' : ∀ s ∈ submissions', s.query.executor.Faithful)
  (hquiet' : ∀ s ∈ submissions', s.query.executor.schema.Resolvers Resolver.Quiet)
  (hsteady' : Steady schedule' memory' submissions' contexts
    (s.withDocument (s.query.document.relabel r)))
  (hloaded : s.query.executor.schema.Loaded)
  (hpathless : s.query.executor.schema.Resolvers Resolver.Pathless)
  (hdebug : s.query.executor.configuration.debug = false)

include hr hs hf hquiet hsteady hs' hf' hquiet' hsteady' hloaded hpathless hdebug

theorem output_relabel {plan : Plan} (hp : (s.plan contexts).1 = .ok (some plan))
    (hp' : ((s.withDocument (s.query.document.relabel r)).plan contexts).1 =
      .ok (some { plan with operation := plan.operation.relabel r })) :
    ((run schedule' memory' submissions' contexts).output number').data =
        ((run schedule memory submissions contexts).output number).data.relabel r
          (serializedAt s.query.executor.schema
            ((run schedule memory submissions contexts).events number)) [] ∧
      ((run schedule' memory' submissions' contexts).output number').errors.Perm
        (((run schedule memory submissions contexts).output number).errors.map
          (Error.relabel r)) := by
  have hmem := List.mem_of_getElem? hs
  have hmem' := List.mem_of_getElem? hs'
  obtain ⟨name, hname⟩ := Schema.exists_of_rootType? (PreparedQuery.of_plan hp).2.1
  obtain ⟨c, hdoes, hout⟩ := exists_does_of_covers (covers_still hf hquiet hs hsteady hdebug) hs hp
    (hf s hmem)
  have hclash := hdoes.pairwise_not_clash hloaded.wellFormed (hloaded.wellFormed _ _ hname).2
  let leaf := serializedAt s.query.executor.schema
    ((run schedule memory submissions contexts).events number)
  have hrelabeled : Does ((s.setting plan).relabel r) (.still (s.firstContext contexts)) s.room
      ((s.job plan).relabel r) (c.relabel r leaf []) _ := hdoes.relabel (P := Resolver.Pathless) hr
    (fun resolver i answer hpure hanswers => (congrArg Prod.fst (hpure i _ _)).trans hanswers)
    hpathless ⟨hpathless name _ hname, serializedAt_eq_false (hdoes.not_reached nofun)⟩
    fun p t ht => serializedAt_of_reached hclash ht
  -- In the same world this agrees with whatever happens to the other submission.
  obtain ⟨c', hdoes', hout'⟩ := exists_does_of_covers
    (covers_still hf' hquiet' hs' hsteady' hdebug) hs' hp' (hf' _ hmem')
  have hagrees : Agrees (fun _ => False) [] (c.relabel r leaf []) c' _
    ((run schedule' memory' submissions' contexts).events number') :=
    hrelabeled.agrees_still hdoes'
  have hdata : (c.relabel r leaf []).data = c'.data :=
    Option.some.inj (hagrees.data.whole [] fun _ => id)
  have herrors := hagrees.perm_errors hrelabeled.path_ne_none hdoes'.path_ne_none
  rw [filterMap_error?_relabel] at herrors
  rw [hout, hout']
  refine ⟨hdata.symm.trans (c.data_relabel r leaf []), ?_⟩
  have hsorted : ((Output.of c _).errors.map (Error.relabel r)).Perm
      (((run schedule memory submissions contexts).errors number).map (Error.relabel r)) :=
    (sortErrors_perm c.data _).map _
  have hsorted' := sortErrors_perm c'.data
    ((run schedule' memory' submissions' contexts).errors number')
  exact hsorted'.trans (herrors.symm.trans hsorted.symm)

theorem conclude_relabel :
    (∀ e, s.conclude contexts number (run schedule memory submissions contexts) = .error e →
      (s.withDocument (s.query.document.relabel r)).conclude contexts number'
        (run schedule' memory' submissions' contexts) = .error e) ∧
    ∀ x, s.conclude contexts number (run schedule memory submissions contexts) = .ok x →
      ∃ x', (s.withDocument (s.query.document.relabel r)).conclude contexts number'
          (run schedule' memory' submissions' contexts) = .ok x' ∧
        x.Relabels r (serializedAt s.query.executor.schema
          ((run schedule memory submissions contexts).events number)) x' := by
  have hplan : ((s.withDocument (s.query.document.relabel r)).plan contexts).1 =
      (s.plan contexts).1.map
        (Option.map fun plan => { plan with operation := plan.operation.relabel r }) :=
    PreparedQuery.plan_relabel s.query r _ s.operationName
  cases hp : (s.plan contexts).1 with
  | error e =>
    rw [hp] at hplan
    rw [conclude, conclude, hp, hplan]
    exact ⟨fun _ => id, by rintro _ ⟨⟩⟩
  | ok planned =>
    rw [hp] at hplan
    cases planned with
    | none =>
      rw [conclude, conclude, hp, hplan]
      refine ⟨by rintro _ ⟨⟩, fun x hx => ⟨.empty, rfl, ?_⟩⟩
      cases hx
      exact ⟨rfl, .nil, rfl⟩
    | some plan =>
      obtain ⟨hdata, herrors⟩ := output_relabel schedule memory schedule' memory' contexts hr hs hf
        hquiet hsteady hs' hf' hquiet' hsteady' hloaded hpathless hdebug hp hplan
      rw [conclude_of_plan contexts hp hdebug, conclude_of_plan contexts hplan hdebug]
      refine ⟨by rintro _ ⟨⟩, fun x hx => ⟨_, rfl, ?_⟩⟩
      cases hx
      exact ⟨congrArg some hdata, herrors, rfl⟩

end

end Submission

end GraphQL
