import GraphQL.Proofs.Execution.Arguments
import GraphQL.Proofs.Execution.Submissions

/-!
Which executions come back.

Nothing in an execution may go on for ever but the coercion of arguments and variables. Where no
default of a schema needs itself, all executions come back that do not ask for too many permits
(`Submission.comeBack_of_wellFounded`). A request for which coercion has no end does not
(`Executor.not_comesBack_circular`).
-/

set_option autoImplicit false

namespace GraphQL

open Json Execution

namespace Execution.Setting

variable {s : Setting}

theorem CoercesEndlessly.not_wellFounded (h : s.CoercesEndlessly) :
    ¬ WellFounded s.schema.Needed := by
  obtain ⟨d, arguments, e, he, hendless⟩ := h
  exact fun hwf => FieldDefinition.not_coercionEnds_iff.2 ⟨e, he, hendless⟩
    (FieldDefinition.coercionEnds_of_wellFounded hwf)

/-- Where all coercions end, no event has no end. -/
theorem limit_ends (hs : ¬ s.CoercesEndlessly) (w : World) :
    s.Limit w (fun _ => True) (fun _ _ => True) fun ev => ev.isEndless = false where
  type _ := trivial
  key _ _ := trivial
  index _ _ := trivial
  reached _ _ := rfl
  produced _ _ := rfl
  collecting _ _ _ _ _ _ _ := rfl
  failed {_ _ _ endless} _ _ hendless := by
    cases endless with
    | false => rfl
    | true => exact absurd (hendless rfl) hs
  invoked _ _ _ _ _ _ _ := rfl

/-- A selection set has no end if the arguments of one of its fields have a coercion without one. -/
theorem exists_endless_of_ends {w : World} {room : Nat} {strategy : Strategy} {type : ObjectType}
    {value : Value} {selections : List (Selection Literal)} {path : Path} {c : Completion}
    {es : List Event} {key : String} {f : Field Literal} {rest : List (Field Literal)}
    {d : FieldDefinition}
    (hgroup : ∀ context,
      (key, f :: rest) ∈ (s.collect ⟨type.name, path, context⟩ selections).groups)
    (hname : f.head.name ≠ "__typename") (hd : Entries.get? f.head.name type.fields = some d)
    (hends : ¬ d.CoercionEnds s.schema s.bindings f.head.arguments)
    (h : Ends w (s.selectionSet (room + 1) strategy type value selections path) c es) :
    ∃ ev ∈ es, ev.isEndless = true := by
  obtain ⟨e, he, hendless⟩ := FieldDefinition.not_coercionEnds_iff.1 hends
  rw [selectionSet] at h
  obtain ⟨context, -, hread⟩ := h.of_read
  obtain ⟨_, rfl, hemitted⟩ := hread.of_emitAll
  obtain ⟨outs, merged, last, hlength, hchildren, hmerged, -, rfl⟩ := hemitted.of_fork
  obtain ⟨i, hi⟩ := List.mem_iff_getElem?.1 (hgroup context)
  obtain ⟨⟨u, ds⟩, hout⟩ : ∃ out, outs[i]? = some out := by
    refine ⟨_, List.getElem?_eq_getElem ?_⟩
    rw [← hlength, List.length_map]
    exact (List.getElem?_eq_some_iff.1 hi).1
  have hfield : Ends w (s.field (s.selectionSet room s.nested) type value (f :: rest)
      (path.join (.key key))) u ds := by
    refine hchildren i _ u ds ?_ hout
    rw [List.getElem?_map, hi]
    rfl
  obtain ⟨-, rfl⟩ := (ends_field_iff hname hd he).1 hfield
  let site := FieldSite.ofFields type f rest
  let failed : Event :=
    .failed (site.codedError e.message "INVALID_ARGUMENT" (path.join (.key key))) e.isEndless
  have hfailed : failed ∈ merged :=
    hmerged.mem_iff.2 ⟨_, List.mem_map_of_mem (List.mem_of_getElem? hout), by simp [failed, site]⟩
  exact ⟨failed, List.mem_append_right _ (List.mem_append_left _ hfailed), hendless⟩

end Execution.Setting

theorem Execution.State.isLost_eq_false_iff {st : State} :
    st.isLost = false ↔ ∀ number, ∀ ev ∈ st.events number, ev.isEndless = false := by
  simp only [isLost, List.any_eq_false, Bool.not_eq_true, mem_events, Prod.forall]

namespace Submission

variable {Memory : Type} {schedule : Schedule Memory} {memory : Memory}
  {submissions : List Submission} {contexts : ContextStore} {number : Nat} {s : Submission}

theorem begins_iff : s.begins contexts = true ↔
    (∀ d ∈ s.query.coercedDefinitions s.operationName, ∀ value,
      d.value? (s.query.inputs s.variableValues s.context contexts).1 = some value →
      Acc s.query.executor.schema.Needed (d.type, value)) ∧
    ∀ plan, (s.plan contexts).1 = .ok (some plan) →
      s.query.executor.configuration.maxInFlightResolvers ≤ permitLimit := by
  rw [begins, Bool.and_eq_true, Bool.not_eq_true', List.any_eq_false]
  refine and_congr ?_ ?_
  · simp only [Bool.not_eq_true, VariableDefinition.isEndless_eq_false_iff]
  · cases (s.plan contexts).1 with
    | error e => simp
    | ok plan? => cases plan? <;> simp

theorem isEndless_eq_false_of_mem (hs : submissions[number]? = some s)
    (hschema : WellFounded s.query.executor.schema.Needed) :
    ∀ ev ∈ (run schedule memory submissions contexts).events number, ev.isEndless = false := by
  refine State.forall_events_of_reaches (State.reaches_run schedule memory _) (.world _ _ number)
    (getElem?_initial hs) ?_ nofun
  cases hp : (s.plan contexts).1 with
  | error e =>
    rw [start, hp]
    exact .done _
  | ok plan? =>
    cases plan? with
    | none =>
      rw [start, hp]
      exact .done _
    | some plan =>
      rw [task_start hp]
      have hends : ¬ (s.setting plan).CoercesEndlessly := fun h => h.not_wellFounded hschema
      exact (Setting.limit_ends hends _).safe_selectionSet trivial trivial

theorem comeBack_iff : comeBack schedule memory submissions contexts = true ↔
    (∀ s ∈ submissions, s.begins contexts = true) ∧
      ∀ number, ∀ ev ∈ (run schedule memory submissions contexts).events number,
        ev.isEndless = false := by
  rw [comeBack, Bool.and_eq_true, List.all_eq_true, Bool.not_eq_true', State.isLost_eq_false_iff]

/-- Executions come back where no default needs itself and nobody asks for too many permits. -/
theorem comeBack_of_wellFounded
    (h : ∀ s ∈ submissions, WellFounded s.query.executor.schema.Needed ∧
      s.query.executor.configuration.maxInFlightResolvers ≤ permitLimit) :
    comeBack schedule memory submissions contexts = true := by
  refine comeBack_iff.2 ⟨fun s hs => ?_, fun number ev hev => ?_⟩
  · exact begins_iff.2 ⟨fun _ _ _ _ => (h s hs).1.apply _, fun _ _ => (h s hs).2⟩
  · cases hs : submissions[number]? with
    | none =>
      have hnone : (initial submissions contexts).runs[number]? = none := by
        simp [initial, State.start, hs]
      have hnil : (run schedule memory submissions contexts).events number = [] :=
        State.events_of_reaches_of_none (State.reaches_run schedule memory _) hnone
      rw [hnil] at hev
      cases hev
    | some s => exact isEndless_eq_false_of_mem hs (h s (List.mem_of_getElem? hs)).1 ev hev

end Submission

namespace Executor

variable {Memory : Type}

theorem comesBack_of_wellFounded {executor : Executor} (schedule : Schedule Memory)
    (memory : Memory) (request : Request) (context : ContextRef) (contexts : ContextStore)
    (hschema : WellFounded executor.schema.Needed)
    (hpermits : executor.configuration.maxInFlightResolvers ≤ permitLimit) :
    executor.comesBack schedule memory request context contexts = true := by
  unfold comesBack
  split
  · rfl
  · exact Submission.comeBack_of_wellFounded (List.forall_mem_singleton.2 ⟨hschema, hpermits⟩)

end Executor

/-- The operation of `{f(x:{})}`. -/
def Operation.circular : Operation Literal :=
  ⟨none, .query, [], [], [.field ⟨none, "f", [⟨"x", .object []⟩], [], some ⟨1, 2⟩⟩ []],
    some ⟨1, 1⟩⟩

def Document.circular : Document := ⟨[("", .circular)], []⟩

/-- Whether what was read of a text is that operation. -/
def Document.readsCircular : Except Syntax.SyntaxError (List Syntax.Item) → Bool
  | .ok [.executable (.operation ⟨none, .query, [], [],
      [.field ⟨none, "f", [⟨"x", .object []⟩], [], some ⟨1, 2⟩⟩ []], some ⟨1, 1⟩⟩)] => true
  | _ => false

theorem Document.parse_circular : parse "{f(x:{})}" = .ok circular := by
  have hread : readsCircular (Syntax.Item.parse "{f(x:{})}") = true := by decide +kernel
  unfold readsCircular at hread
  split at hread
  · next hitems =>
    rw [parse, hitems]
    rfl
  · cases hread

namespace Executor

variable {Memory : Type}

/-- The executor of a schema in which a default needs itself. -/
def circular : Executor := { small (.constant .null) with schema := .circularQuery }

theorem faithful_circular : circular.Faithful :=
  ⟨(faithful_small (.constant .null)).root, (faithful_small (.constant .null)).nested⟩

/-- Under no schedule does a request come back for which such a default is needed. -/
theorem not_comesBack_circular (schedule : Schedule Memory) (memory : Memory)
    (context : ContextRef) (contexts : ContextStore) :
    circular.comesBack schedule memory (.ofQuery "{f(x:{})}") context contexts = false := by
  let s := circular.submission (.ofQuery "{f(x:{})}") context .circular
  have hdocument : circular.document (.ofQuery "{f(x:{})}") = .ok .circular := by
    simp only [document, Request.ofQuery, Document.parse_circular]
  have hends : ¬ FieldDefinition.circular.CoercionEnds circular.schema []
      [⟨"x", .object []⟩] :=
    FieldDefinition.not_coercionEnds_circular []
  have hp : (s.plan contexts).1 = .ok (some ⟨.circular, .circular, []⟩) := rfl
  have hworld : (Submission.world schedule memory [s] contexts 0).Covers
      (Submission.initial [s] contexts) (Submission.run schedule memory [s] contexts) 0 :=
    .world _ _ 0
  obtain ⟨c, hrun, -⟩ := Submission.exists_ends_of_live hworld rfl hp faithful_circular.live
  let f : Field Literal := ⟨⟨none, "f", [⟨"x", .object []⟩], [], some ⟨1, 2⟩⟩, []⟩
  have hname : f.head.name ≠ "__typename" := by decide
  have hgroup : ∀ context, ("f", [f]) ∈
      ((circular.setting .circular []).collect ⟨"Query", [], context⟩ [.field f.head []]).groups :=
    fun _ => List.mem_singleton.2 rfl
  obtain ⟨ev, hev, hendless⟩ := Setting.exists_endless_of_ends hgroup hname rfl hends hrun
  rw [comesBack, hdocument, Bool.eq_false_iff]
  intro hback
  have hend := (Submission.comeBack_iff.1 hback).2 0 ev hev
  cases hendless.symm.trans hend

end Executor

end GraphQL
