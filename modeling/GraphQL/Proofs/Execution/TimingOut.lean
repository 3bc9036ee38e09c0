import GraphQL.Proofs.Execution.Collection
import GraphQL.Proofs.Execution.Performing
import GraphQL.Proofs.Execution.Refusing
import GraphQL.Proofs.Execution.Scheduling
import GraphQL.Proofs.Schema.Bare

/-!
A deadline that has passed.

Such a deadline lets no call through. With serial strategies the execution comes to what it comes to
without a deadline, where every resolver fails as if it had not been called in time
(`Executor.expired_eq_timing_out`). So it depends on no resolver.
-/

set_option autoImplicit false

namespace GraphQL

open Json Execution

/-- Always fails, as if the deadline had passed before the field was resolved. -/
def Resolver.TimesOut (field : String) (r : Resolver) : Prop :=
  ∀ i c, r.answer i c = (.error ⟨"Timed out before resolving field \"" ++ field ++ "\".",
    [("code", .string "TIMEOUT")]⟩, c.entries)

def ObjectType.TimesOut (type : ObjectType) : Prop :=
  ∀ field d r, Entries.get? field type.fields = some d → d.resolver = some r → r.TimesOut field

/-- Two schemas are the same, but that in the second one each resolver times out. -/
structure Schema.TimedOut (schema schema' : Schema) : Prop where
  bare_eq : schema.bare = schema'.bare
  timesOut : ∀ name type, schema'.type? name = some (.object type) → type.TimesOut

/-- Does not look at the deadline. -/
structure DirectiveHandler.Timeless (handler : DirectiveHandler) : Prop where
  includes : ∀ arguments entries deadline deadline',
    handler.includes arguments ⟨entries, deadline⟩ = handler.includes arguments ⟨entries, deadline'⟩
  transform : ∀ arguments value entries deadline deadline',
    handler.transform arguments value ⟨entries, deadline⟩ =
      handler.transform arguments value ⟨entries, deadline'⟩

namespace DirectiveChain

def Timeless (chain : DirectiveChain) : Prop :=
  ∀ name handler, Entries.get? name chain.handlers = some handler → handler.Timeless

variable {chain : DirectiveChain}

theorem Timeless.handler (h : chain.Timeless) (d : Directive Literal) :
    (chain.handler d).Timeless := by
  rw [DirectiveChain.handler]
  cases hd : Entries.get? d.name chain.handlers with
  | none => exact ⟨fun _ _ _ _ => rfl, fun _ _ _ _ _ => rfl⟩
  | some handler => exact h d.name handler hd

theorem Timeless.includes_eq (h : chain.Timeless) (bindings entries : Entries Value)
    (deadline deadline' : Option Deadline) : ∀ directives : List (Directive Literal),
    chain.includes bindings ⟨entries, deadline⟩ directives =
      chain.includes bindings ⟨entries, deadline'⟩ directives
  | [] => rfl
  | d :: directives => by
    rw [includes, includes, (h.handler d).includes _ _ deadline deadline',
      h.includes_eq bindings entries deadline deadline' directives]

theorem Timeless.transform_eq (h : chain.Timeless) (bindings entries : Entries Value)
    (deadline deadline' : Option Deadline) :
    ∀ (directives : List (Directive Literal)) (value : Value),
      chain.transform bindings ⟨entries, deadline⟩ directives value =
        chain.transform bindings ⟨entries, deadline'⟩ directives value
  | [], _ => rfl
  | d :: directives, value => by
    rw [transform, transform, (h.handler d).transform _ _ _ deadline deadline']
    cases (chain.handler d).transform (d.evaluateArguments bindings) value ⟨entries, deadline'⟩ with
    | ok value' => exact h.transform_eq bindings entries deadline deadline' directives value'
    | error e => rfl

theorem timeless_standard : standard.Timeless := by
  intro name handler h
  simp only [standard, register, empty, Entries.get?_insert] at h
  split at h
  · cases h
    exact ⟨fun _ _ _ _ => rfl, fun _ _ _ _ _ => rfl⟩
  · split at h
    · cases h
      exact ⟨fun _ _ _ _ => rfl, fun _ _ _ _ _ => rfl⟩
    · cases h

end DirectiveChain

namespace Execution

/-- Performances that come to the same with the same errors. -/
structure Performance.Alike (p p' : Performance) : Prop where
  completion : p.completion = p'.completion
  errors : p.events.filterMap Event.error? = p'.events.filterMap Event.error?

theorem Performance.Alike.after {p p' : Performance} (h : p.Alike p') {es es' : List Event}
    (hes : es.filterMap Event.error? = es'.filterMap Event.error?) :
    (p.after es).Alike (p'.after es') := by
  refine ⟨h.completion, ?_⟩
  simp only [Performance.after, List.filterMap_append, hes, h.errors]

theorem Event.failing_eq_of_errors {es es' : List Event}
    (h : es.filterMap Event.error? = es'.filterMap Event.error?) : failing es = failing es' := by
  have hempty : ∀ ds : List Event, failing ds = !(ds.filterMap Event.error?).isEmpty := by
    intro ds
    induction ds with
    | nil => rfl
    | cons e ds ih =>
      rw [Event.failing_cons, ih, List.filterMap_cons]
      cases e.error? <;> rfl
  rw [hempty, hempty, h]

namespace Task

/-- Tasks whose performances are alike, each in its own circumstances. -/
def Matches (m m' : Circumstances) (t t' : Task) : Prop :=
  ∀ failed, (t.perform m failed).Alike (t'.perform m' failed)

namespace Matches

variable {m m' : Circumstances}

theorem done (c : Completion) : Matches m m' (.done c) (.done c) := fun _ => ⟨rfl, rfl⟩

theorem emit (e : Event) {next next' : Task} (h : Matches m m' next next') :
    Matches m m' (.emit e next) (.emit e next') := by
  intro failed
  rw [perform, perform]
  exact (h _).after rfl

theorem emitAll (events : List Event) {next next' : Task} (h : Matches m m' next next') :
    Matches m m' (Task.emitAll events next) (Task.emitAll events next') := by
  induction events with
  | nil => exact h
  | cons e events ih => exact ih.emit e

theorem read {next next' : Context → Task} (h : Matches m m' (next m.context) (next' m'.context)) :
    Matches m m' (.read next) (.read next') := by
  intro failed
  rw [perform, perform]
  exact h failed

theorem read_right {t : Task} {next' : Context → Task} (h : Matches m m' t (next' m'.context)) :
    Matches m m' t (.read next') := by
  intro failed
  rw [perform]
  exact h failed

theorem bind {f f' : Completion → Task} (hf : ∀ c, Matches m m' (f c) (f' c)) {t t' : Task}
    (h : Matches m m' t t') : Matches m m' (t.bind f) (t'.bind f') := by
  intro failed
  obtain ⟨hcompletion, herrors⟩ := h failed
  rw [perform_bind, perform_bind, hcompletion, Event.failing_eq_of_errors herrors]
  exact (hf _ _).after herrors

/-- A call that comes too late, and one whose resolver says so. -/
theorem call {k k' : Call} {next next' : Reply → Task} (hdebug : m.debug = m'.debug)
    (hm : m.context.isExpired = true) (hm' : m'.context.isExpired = false)
    (hskipped : Matches m m' (next .skipped) (next' .skipped))
    (hlate : Matches m m' (next .timedOut)
      (next' (.resolved (k'.resolver.answer k'.invocation m'.context).1))) :
    Matches m m' (.call k .fresh next) (.call k' .fresh next') := by
  intro failed
  rw [perform_call, perform_call]
  simp only [Circumstances.reply, Circumstances.refusal?, hdebug, hm, hm', if_true]
  cases m'.debug && failed with
  | true => exact hskipped failed
  | false => exact (hlate failed).after rfl

theorem fork (s : Strategy) {children children' : List Task} {next next' : List Completion → Task}
    (hc : List.Forall₂ (Matches m m') children children')
    (hn : ∀ cs, Matches m m' (next cs) (next' cs)) :
    Matches m m' (.fork s children next) (.fork s children' next') := by
  have hall : ∀ failed, (performAll m children failed).1 = (performAll m' children' failed).1 ∧
      (performAll m children failed).2.filterMap Event.error? =
        (performAll m' children' failed).2.filterMap Event.error? := by
    induction hc with
    | nil => exact fun _ => ⟨rfl, rfl⟩
    | cons h _ ih =>
      intro failed
      obtain ⟨hcompletion, herrors⟩ := h failed
      rw [performAll_cons, performAll_cons, hcompletion, Event.failing_eq_of_errors herrors,
        List.filterMap_append, List.filterMap_append, herrors]
      exact ⟨congrArg (_ :: ·) (ih _).1, congrArg (_ ++ ·) (ih _).2⟩
  intro failed
  rw [perform_fork, perform_fork, (hall failed).1, Event.failing_eq_of_errors (hall failed).2]
  exact (hn _ _).after (hall failed).2

end Matches

end Task

/-- A setting in circumstances in which the deadline has passed, and one in circumstances without a
deadline where all resolvers time out. -/
structure Setting.TimedOut (s s' : Setting) (m m' : Circumstances) : Prop where
  schema : s.schema.TimedOut s'.schema
  document : s.document = s'.document
  bindings : s.bindings = s'.bindings
  nested : s.nested = s'.nested
  includes : s.directives.includes s.bindings m.context =
    s'.directives.includes s'.bindings m'.context
  transform : s.directives.transform s.bindings m.context =
    s'.directives.transform s'.bindings m'.context
  debug : m.debug = m'.debug
  expired : m.context.isExpired = true
  ahead : m'.context.isExpired = false

open GraphQL.Execution.Task (Matches)

namespace Setting.TimedOut

variable {s s' : Setting} {m m' : Circumstances} {object object' : ObjectTask}

/-- Schemas that differ in resolvers only. -/
theorem alike (h : s.TimedOut s' m m') : s.schema.Alike (fun _ _ => True) s'.schema :=
  ⟨h.schema.bare_eq, fun _ _ _ _ _ _ _ _ _ _ _ _ _ _ => trivial⟩

variable (h : s.TimedOut s' m m')

theorem fail (site : FieldSite) (message : String) (path : Path) :
    Matches m m' (site.fail message path) (site.fail message path) := .emit _ (.done _)

theorem settle (site : FieldSite) (refusesNull : Bool) (path : Path) {t t' : Task}
    (ht : Matches m m' t t') :
    Matches m m' (site.settle refusesNull path t) (site.settle refusesNull path t') := by
  refine .bind (fun c => ?_) ht
  split
  · split
    · exact fail site _ path
    · exact .done _
  · exact .done _

include h

theorem completeLeaf (site : FieldSite) (type : TypeRef) (value : Value) (path : Path) :
    Matches m m' (s.completeLeaf site type value path) (s'.completeLeaf site type value path) := by
  rw [Setting.completeLeaf, Setting.completeLeaf, h.alike.coerceOutput_eq]
  split
  · exact .done _
  · exact fail site _ path

variable (hobject : ∀ {type type' : ObjectType}, type.Alike (fun _ _ => True) type' →
  type'.TimesOut → ∀ value selections path,
    Matches m m' (object type value selections path) (object' type' value selections path))

include hobject

theorem abstract (site : FieldSite) (name : String) (value : Value) (path : Path) :
    Matches m m' (completeNamed.abstract s object site name value path)
      (completeNamed.abstract s' object' site name value path) := by
  unfold completeNamed.abstract
  cases hc : s.schema.concreteType? name value with
  | none =>
    rw [h.alike.concreteType?_eq_none hc]
    exact fail site _ path
  | some type =>
    obtain ⟨type', hc', halike⟩ := h.alike.exists_concrete hc
    obtain ⟨claimed, -, -, ht'⟩ := Schema.exists_of_concreteType? hc'
    rw [hc']
    exact hobject halike (h.schema.timesOut claimed type' ht') value site.selections path

theorem completeNamed (site : FieldSite) (name : String) (value : Value) (path : Path) :
    Matches m m' (s.completeNamed object site name value path)
      (s'.completeNamed object' site name value path) := by
  unfold Setting.completeNamed
  cases hd : s.schema.type? name with
  | none =>
    rw [h.alike.type?_eq_none hd]
    exact fail site _ path
  | some d =>
    obtain ⟨d', hd', hbare⟩ := h.alike.exists_type? hd
    rw [hd']
    cases d with
    | object type =>
      obtain ⟨type', ht', halike⟩ := h.alike.exists_object hd
      obtain rfl : d' = .object type' := Option.some.inj (hd'.symm.trans ht')
      exact hobject halike (h.schema.timesOut name type' ht') value site.selections path
    | scalar type =>
      cases d' <;> cases hbare
      exact h.completeLeaf site _ value path
    | enum type =>
      cases d' <;> cases hbare
      exact h.completeLeaf site _ value path
    | interface type =>
      cases d' with
      | interface type' => exact h.abstract hobject site name value path
      | _ => cases hbare
    | union type =>
      cases d' <;> cases hbare
      exact h.abstract hobject site name value path
    | input type =>
      cases d' <;> cases hbare
      exact fail site _ path

theorem complete (site : FieldSite) : ∀ (type : TypeRef) (refusesNull : Bool) (value : Value)
    (path : Path), Matches m m' (s.complete object site refusesNull type value path)
      (s'.complete object' site refusesNull type value path) := by
  have hif : ∀ {b : Bool} {t t' : Task}, Matches m m' t t' →
      Matches m m' (if b then .done (.value .null) else t)
        (if b then .done (.value .null) else t') := by
    intro b t t' ht
    split
    · exact .done _
    · exact ht
  intro type
  induction type with
  | nonNull inner ih =>
    intro refusesNull value path
    cases refusesNull with
    | false =>
      rw [Setting.complete, Setting.complete]
      exact ih true value path
    | true =>
      rw [Setting.complete, Setting.complete]
      exact settle site true path (hif (ih false value path))
  | list inner ih =>
    intro refusesNull value path
    cases value with
    | null =>
      rw [Setting.complete, Setting.complete]
      exact settle site refusesNull path (.done _)
    | array items =>
      rw [Setting.complete, Setting.complete, h.nested]
      refine settle site refusesNull path (.fork _ ?_ fun cs => .done _)
      rw [List.forall₂_iff_get]
      refine ⟨by simp, fun i hi hi' => ?_⟩
      simp only [List.get_eq_getElem, List.getElem_mapIdx]
      exact .emit _ (.emit _ (ih false _ _))
    | _ =>
      rw [Setting.complete, Setting.complete]
      · exact settle site refusesNull path (fail site _ path)
      all_goals simp
  | named name =>
    intro refusesNull value path
    rw [Setting.complete, Setting.complete]
    exact settle site refusesNull path (hif (h.completeNamed hobject site name value path))
  | string | int | float | id | boolean =>
    intro refusesNull value path
    rw [Setting.complete, Setting.complete]
    · exact settle site refusesNull path (hif (h.completeLeaf site _ value path))
    all_goals simp

/-- A field whose resolver times out gives up with the error of a call that comes too late. -/
theorem resolveField {site : FieldSite} {d d' : FieldDefinition}
    (hd : d.Alike (fun _ _ => True) d')
    (hresolver : ∀ r, d'.resolver = some r → r.TimesOut site.first.name) (parent : Value)
    (path : Path) :
    Matches m m' (s.resolveField object site d parent path)
      (s'.resolveField object' site d' parent path) := by
  have harguments : d'.coerceArguments s'.schema s'.bindings site.first.arguments =
      d.coerceArguments s.schema s.bindings site.first.arguments := by
    rw [← Schema.coerceArguments_bare, ← Schema.coerceArguments_bare s.schema, hd.bare_eq,
      h.schema.bare_eq, h.bindings]
  unfold Setting.resolveField
  simp only [harguments, ← hd.type_eq]
  cases d.coerceArguments s.schema s.bindings site.first.arguments with
  | error e => exact .emit _ (.done _)
  | ok arguments =>
    cases hr : d.resolver with
    | none =>
      simp only [hd.resolver_eq_none hr]
      refine .read ?_
      rw [h.transform]
      split
      · exact .emit _ (h.complete hobject site d.type false _ path)
      · exact .emit _ (.done _)
    | some resolver =>
      obtain ⟨resolver', hr', -⟩ := hd.exists_resolver hr
      simp only [hr']
      refine .call h.debug h.expired h.ahead (.done _) (.read_right ?_)
      rw [hresolver resolver' hr']
      exact .emit _ (.done _)

theorem field {type type' : ObjectType} (ht : type.Alike (fun _ _ => True) type')
    (htimes : type'.TimesOut) (parent : Value) (fields : List (Field Literal)) (path : Path) :
    Matches m m' (s.field object type parent fields path)
      (s'.field object' type' parent fields path) := by
  unfold Setting.field
  cases fields with
  | nil => exact .done _
  | cons f rest =>
    simp only [ht.name_eq]
    split
    · exact .done _
    · cases hd : Entries.get? f.head.name type.fields with
      | none =>
        rw [ht.get?_eq_none hd]
        exact .emit _ (.emit _ (.done _))
      | some d =>
        obtain ⟨d', hd', halike⟩ := ht.exists_get? hd
        simp only [hd', halike.type_eq]
        exact .emit _ (h.resolveField hobject halike (fun r hr => htimes _ d' r hd' hr) parent path)

omit hobject

theorem selectionSet : ∀ (room : Nat) (strategy : Strategy) {type type' : ObjectType},
    type.Alike (fun _ _ => True) type' → type'.TimesOut → ∀ value selections path,
      Matches m m' (s.selectionSet room strategy type value selections path)
        (s'.selectionSet room strategy type' value selections path)
  | 0, _, _, _, _, _, _, _, _ => .emit _ (.done _)
  | room + 1, strategy, type, type', ht, htimes, value, selections, path => by
    have halike : CollectsAlike s s' ⟨type.name, path, m.context⟩ ⟨type'.name, path, m'.context⟩ :=
      { document := h.document
        includes := congrFun h.includes
        applies := fun condition => by
          rw [← Schema.applies_bare, h.schema.bare_eq, Schema.applies_bare, ht.name_eq]
        path := rfl }
    refine .read ?_
    rw [halike.collect_eq selections]
    refine .emitAll _ (.fork strategy ?_ fun cs => .done _)
    refine List.forall₂_map_left_iff.2 (List.forall₂_map_right_iff.2 ?_)
    refine List.forall₂_same.2 fun group _ => h.field ?_ ht htimes value group.2 _
    intro type type' ht htimes value selections path
    rw [← h.nested]
    exact selectionSet room s.nested ht htimes value selections path

end Setting.TimedOut

end Execution

theorem Schema.TimedOut.quiet {schema schema' : Schema} (h : schema.TimedOut schema') :
    schema'.Resolvers Resolver.Quiet := by
  intro name type ht field d r hd hr i c
  rw [h.timesOut name type ht field d r hd hr]

theorem Schema.rootType?_bare (schema : Schema) (kind : OperationKind) :
    schema.bare.rootType? kind = (schema.rootType? kind).map ObjectType.bare := by
  rw [rootType?, rootType?, Option.map_bind]
  exact congrArg _ (funext schema.objectType?_bare)

/-- The plan without what the resolvers of the root type answer. -/
def Plan.bare (plan : Plan) : Plan := { plan with rootType := plan.rootType.bare }

/-- The executor with another schema. -/
def Executor.withSchema (schema : Schema) (executor : Executor) : Executor :=
  { executor with schema }

namespace PreparedQuery

def withSchema (schema : Schema) (q : PreparedQuery) : PreparedQuery :=
  { q with executor := q.executor.withSchema schema }

/-- Over another schema with the same inputs a plan differs in its root type only. -/
theorem plan_withSchema (q : PreparedQuery) {schema' : Schema} {g : ObjectType → ObjectType}
    (hroot : ∀ kind, schema'.rootType? kind = (q.executor.schema.rootType? kind).map g)
    (hinputs : ∀ definitions provided, coerceVariables schema' definitions provided =
      coerceVariables q.executor.schema definitions provided)
    (variableValues : Entries Value) (operationName : Option String) :
    (q.withSchema schema').plan variableValues operationName =
      (q.plan variableValues operationName).map
        (Option.map fun plan => { plan with rootType := g plan.rootType }) := by
  simp only [plan, withSchema, Executor.withSchema, hroot, hinputs]
  split
  · rfl
  · split
    · rfl
    · rw [apply_ite (Except.map _)]
      rfl
    · next operation _ =>
      cases q.executor.schema.rootType? operation.kind with
      | none => rfl
      | some rootType =>
        simp only [Option.map_some]
        split <;> rfl

theorem plan_bare (q : PreparedQuery) (variableValues : Entries Value)
    (operationName : Option String) :
    (q.withSchema q.executor.schema.bare).plan variableValues operationName =
      (q.plan variableValues operationName).map (Option.map Plan.bare) :=
  q.plan_withSchema q.executor.schema.rootType?_bare q.executor.schema.coerceVariables_bare
    variableValues operationName

/-- Queries of schemas that differ in resolvers only have plans that differ in resolvers only. -/
theorem map_plan_withSchema {q : PreparedQuery} {schema' : Schema}
    (h : q.executor.schema.bare = schema'.bare) (variableValues : Entries Value)
    (operationName : Option String) :
    ((q.withSchema schema').plan variableValues operationName).map (Option.map Plan.bare) =
      (q.plan variableValues operationName).map (Option.map Plan.bare) := by
  rw [← plan_bare, ← plan_bare, h]
  rfl

end PreparedQuery

namespace Submission

variable {Memory Memory' : Type} {schedule : Schedule Memory} {memory : Memory}
  {schedule' : Schedule Memory'} {memory' : Memory'} {contexts contexts' : ContextStore}
  {s s' : Submission}

/-- The submission to an executor with another schema. -/
def withSchema (schema : Schema) (s : Submission) : Submission :=
  { s with query := s.query.withSchema schema }

/-- The submission without a deadline, with its defaults put in. -/
def unlimited (contexts : ContextStore) (s : Submission) : Submission where
  query := { s.query with defaults := none }
  variableValues := (s.query.inputs s.variableValues s.context contexts).1
  context := { (s.query.inputs s.variableValues s.context contexts).2 with deadline := none }
  operationName := s.operationName

theorem waiting_initial (hexpired : (contexts.read (s.plan contexts).2).isExpired = true) :
    ∀ (number : Nat) (run : Run), (initial [s] contexts).runs[number]? = some run →
      (contexts.read run.context).isExpired = true ∧ run.task.Waits := by
  intro number run hr
  have hmem : run ∈ (initial [s] contexts).runs := List.mem_of_getElem? hr
  obtain rfl : run = s.start contexts := by simpa [initial, State.start] using hmem
  exact ⟨hexpired, s.waits_start contexts⟩

/-- Submissions come to the same result if their plans and their outputs are the same, resolvers
apart. -/
theorem conclude_eq_of_bare {number number' : Nat} {last last' : State}
    (hdebug : s.query.executor.configuration.debug = s'.query.executor.configuration.debug)
    (hplan : (s.plan contexts).1.map (Option.map Plan.bare) =
      (s'.plan contexts').1.map (Option.map Plan.bare))
    (hout : ∀ plan plan', (s.plan contexts).1 = .ok (some plan) →
      (s'.plan contexts').1 = .ok (some plan') → plan.bare = plan'.bare →
      last.output number = last'.output number') :
    s.conclude contexts number last = s'.conclude contexts' number' last' := by
  unfold conclude
  cases hp : (s.plan contexts).1 with
  | error e =>
    cases hp' : (s'.plan contexts').1 with
    | error e' =>
      rw [hp, hp'] at hplan
      cases hplan
      rfl
    | ok plan? =>
      rw [hp, hp'] at hplan
      cases hplan
  | ok plan? =>
    cases hp' : (s'.plan contexts').1 with
    | error e' =>
      rw [hp, hp'] at hplan
      cases hplan
    | ok plan?' =>
      rw [hp, hp'] at hplan
      cases plan? with
      | none => cases plan?' <;> first | rfl | cases hplan
      | some plan =>
        cases plan?' with
        | none => cases hplan
        | some plan' =>
          have hbare : plan.bare = plan'.bare := by simpa [Except.map] using hplan
          simp only [hout plan plan' hp hp' hbare, Executor.conclude, hdebug]

theorem read_of_expired (hexpired : (contexts.read (s.plan contexts).2).isExpired = true) :
    ∀ st run', State.Between (initial [s] contexts) (run schedule memory [s] contexts) st →
      st.runs[0]? = some run' → st.contexts.read run'.context = s.firstContext contexts := by
  intro st run' hb hr
  have hunchanged := State.unchanged_of_refused hb.1 (waiting_initial hexpired)
  rw [(run_of_between (rfl : [s][0]? = some s) hb hr).2]
  exact ContextStore.read_eq_of_isExpired_eq hunchanged.1
    ((State.isExpired_of_reaches hb.1 hexpired).trans hexpired.symm)

theorem result_eq_of_expired {schema' : Schema} (hserial : s.query.executor.Serial)
    (htimeless : s.query.executor.directives.Timeless)
    (hschema : s.query.executor.schema.TimedOut schema')
    (hexpired : (contexts.read (s.plan contexts).2).isExpired = true) :
    (executeWith schedule memory s contexts).result =
      (executeWith schedule' memory' ((s.unlimited contexts).withSchema schema')
        contexts).result := by
  let s' := (s.unlimited contexts).withSchema schema'
  let m : Circumstances := ⟨s.firstContext contexts, s.query.executor.configuration.debug⟩
  let m' : Circumstances := ⟨s'.firstContext contexts, s.query.executor.configuration.debug⟩
  have hserial' : s'.query.executor.Serial := ⟨hserial.root, hserial.nested⟩
  have hread' : ∀ st run', State.Between (initial [s'] contexts)
      (run schedule' memory' [s'] contexts) st → st.runs[0]? = some run' →
      st.contexts.read run'.context = s'.firstContext contexts := by
    intro st run'
    refine read_of_between (List.forall_mem_singleton.2 ?_) (List.forall_mem_singleton.2 ?_)
      (rfl : [s'][0]? = some s') (steady_of_no_deadline rfl)
    · exact hserial'.live
    · exact hschema.quiet
  refine conclude_eq_of_bare rfl (PreparedQuery.map_plan_withSchema
    (q := { s.query with defaults := none }) hschema.bare_eq _ _).symm
    fun plan plan' hp hp' hbare => ?_
  have hmatches : Task.Matches m m' (s.start contexts).task (s'.start contexts).task := by
    have hoperation : plan.bare.operation = plan'.bare.operation := congrArg Plan.operation hbare
    have hbindings : plan.bare.bindings = plan'.bare.bindings := congrArg Plan.bindings hbare
    have htype : plan.rootType.bare = plan'.rootType.bare := congrArg Plan.rootType hbare
    change plan.operation = plan'.operation at hoperation
    change plan.bindings = plan'.bindings at hbindings
    have hincludes : s.query.executor.directives.includes plan.bindings (s.firstContext contexts) =
        s.query.executor.directives.includes plan'.bindings (s'.firstContext contexts) := by
      rw [← hbindings]
      exact funext (htimeless.includes_eq plan.bindings _ _ none)
    have htransform : s.query.executor.directives.transform plan.bindings
          (s.firstContext contexts) =
        s.query.executor.directives.transform plan'.bindings (s'.firstContext contexts) := by
      rw [← hbindings]
      exact funext fun directives =>
        funext (htimeless.transform_eq plan.bindings _ _ none directives)
    obtain ⟨name, hname⟩ := Schema.exists_of_rootType? (PreparedQuery.of_plan hp').2.1
    have hsetting : (s.setting plan).TimedOut (s'.setting plan') m m' :=
      { schema := hschema
        document := rfl
        bindings := hbindings
        nested := rfl
        includes := hincludes
        transform := htransform
        debug := rfl
        expired := hexpired
        ahead := rfl }
    rw [task_start hp, task_start hp', Executor.task, Executor.task, ← hoperation]
    exact hsetting.selectionSet _ _ ⟨htype, fun _ _ _ _ _ _ _ _ _ => trivial⟩
      (hschema.timesOut name _ hname) _ _ _
  obtain ⟨hcompletion, herrors⟩ := hmatches false
  obtain ⟨-, hout⟩ := run_performs (m := m) (rfl : [s][0]? = some s) hserial rfl
    (read_of_expired hexpired)
  obtain ⟨-, hout'⟩ := run_performs (m := m') (rfl : [s'][0]? = some s') hserial' rfl hread'
  rw [hout, hcompletion, herrors]
  exact hout'.symm

/-- A root field without a resolver, whose arguments and directives are in order, has a value. -/
inductive HasUnresolved (s : Submission) (contexts : ContextStore) (key : String) (value : Value) :
    Prop where
  | intro {plan : Plan} {f : Field Literal} {fields : List (Field Literal)} {d : FieldDefinition}
      {arguments : Entries Value} : (s.plan contexts).1 = .ok (some plan) →
      Entries.get? key ((s.setting plan).collect ⟨plan.rootType.name, [], s.firstContext contexts⟩
        plan.operation.selections).groups = some (f :: fields) →
      f.head.name ≠ "__typename" → Entries.get? f.head.name plan.rootType.fields = some d →
      d.resolver = none →
      d.coerceArguments s.query.executor.schema plan.bindings f.head.arguments = .ok arguments →
      s.query.executor.directives.transform plan.bindings (s.firstContext contexts)
        f.head.directives (defaultResolve s.query.executor.rootValue f.head.name) = .ok value →
      HasUnresolved s contexts key value

/-- In a context that stays the same, root fields without resolver are read from the root value. -/
theorem produced_of_hasUnresolved (hserial : s.query.executor.Serial)
    (hcontext : ∀ st run', State.Between (initial [s] contexts)
      (run schedule memory [s] contexts) st → st.runs[0]? = some run' →
      st.contexts.read run'.context = s.firstContext contexts) {key : String} {value : Value}
    (h : s.HasUnresolved contexts key value) :
    .produced [.key key] value ∈ (run schedule memory [s] contexts).events 0 := by
  cases h with
  | @intro plan f fields d arguments hp hgroup hname hd hresolver harguments hvalue =>
    let m : Circumstances := ⟨s.firstContext contexts, s.query.executor.configuration.debug⟩
    obtain ⟨hevents, -⟩ := run_performs (m := m) (rfl : [s][0]? = some s) hserial rfl hcontext
    let object := (s.setting plan).selectionSet s.query.executor.configuration.recursionLimit
      s.query.executor.nested
    have hfield : ∀ failed, .produced [.key key] value ∈
        (((s.setting plan).field object plan.rootType s.query.executor.rootValue (f :: fields)
          [.key key]).perform m failed).events := by
      intro failed
      have harguments' : d.coerceArguments (s.setting plan).schema (s.setting plan).bindings
          f.head.arguments = .ok arguments := harguments
      have hvalue' : (Except.ok (defaultResolve s.query.executor.rootValue f.head.name)).bind
          ((s.setting plan).directives.transform (s.setting plan).bindings m.context
            f.head.directives) = .ok value := hvalue
      simp only [Setting.field, hname, if_false, hd, Setting.resolveField, harguments', hresolver,
        Setting.afterResolution]
      rw [Task.perform, Task.perform, hvalue', Task.perform]
      simp [Performance.after]
    have hmem := List.mem_map_of_mem (f := fun group : String × List (Field Literal) =>
      (s.setting plan).field object plan.rootType s.query.executor.rootValue group.2
        (Path.join [] (.key group.1))) (Entries.mem_of_get? hgroup)
    rw [hevents, task_start hp, Executor.task, Setting.root, Setting.selectionSet, Task.perform,
      Task.perform_emitAll, Task.perform_fork]
    refine List.mem_append_right _ (List.mem_append_left _ ?_)
    obtain ⟨failed, hsubset⟩ := Task.exists_perform_subset (m := m) hmem _
    exact hsubset _ (hfield failed)

theorem contexts_of_quiet (hl : s.query.executor.Live)
    (hquiet : s.query.executor.schema.Resolvers Resolver.Quiet) :
    (executeWith schedule memory s contexts).contexts.contexts = contexts.contexts := by
  refine State.contexts_of_reaches (State.reaches_run schedule memory (initial [s] contexts))
    fun number run' hr => ?_
  have hmem : run' ∈ (initial [s] contexts).runs := List.mem_of_getElem? hr
  obtain rfl : run' = s.start contexts := by simpa [initial, State.start] using hmem
  exact orderly_start contexts hl hquiet number

/-- Nothing that an expired execution comes to depends on the resolvers. -/
theorem executeWith_of_expired (schedule : Schedule Memory) (memory : Memory)
    (schedule' : Schedule Memory') (memory' : Memory') {schema' : Schema}
    (hserial : s.query.executor.Serial)
    (htimeless : s.query.executor.directives.Timeless)
    (hschema : s.query.executor.schema.TimedOut schema')
    (hexpired : (contexts.read (s.plan contexts).2).isExpired = true) :
    let expired := executeWith schedule memory s contexts
    let failing := executeWith schedule' memory' ((s.unlimited contexts).withSchema schema')
      contexts
    expired.result = failing.result ∧ expired.contexts.contexts = failing.contexts.contexts ∧
      expired.contexts.contexts = contexts.contexts ∧ expired.invocations = [] := by
  intro expired failing
  obtain ⟨hcontexts, hinvocations⟩ := State.unchanged_of_refused
    (State.reaches_run schedule memory (initial [s] contexts)) (waiting_initial hexpired)
  have hserial' : ((s.unlimited contexts).withSchema schema').query.executor.Serial :=
    ⟨hserial.root, hserial.nested⟩
  have hfailing : failing.contexts.contexts = contexts.contexts :=
    contexts_of_quiet hserial'.live hschema.quiet
  exact ⟨result_eq_of_expired hserial htimeless hschema hexpired, hcontexts.trans hfailing.symm,
    hcontexts, hinvocations⟩

end Submission

namespace Executor

variable {Memory Memory' : Type} {executor : Executor} {schema' : Schema}

/-- Whatever is executed when its deadline has passed comes to what it comes to without a deadline
where all resolvers time out. No resolver is invoked, and only the fields without one are read from
the values above them. -/
theorem expired_eq_timing_out (schedule : Schedule Memory) (memory : Memory)
    (schedule' : Schedule Memory') (memory' : Memory') (contexts : ContextStore)
    (hserial : executor.Serial) (htimeless : executor.directives.Timeless)
    (hschema : executor.schema.TimedOut schema') :
    (∀ s : Submission, s.query.executor = executor →
      (contexts.read (s.plan contexts).2).isExpired = true →
      let expired := Submission.executeWith schedule memory s contexts
      let failing := Submission.executeWith schedule' memory'
        ((s.unlimited contexts).withSchema schema') contexts
      expired.result = failing.result ∧
        expired.contexts.contexts = failing.contexts.contexts ∧
        expired.contexts.contexts = contexts.contexts ∧ expired.invocations = [] ∧
        (∀ schema, schema.bare = executor.schema.bare →
          let other := Submission.executeWith schedule' memory' (s.withSchema schema) contexts
          other.result = expired.result ∧ other.contexts.contexts = contexts.contexts ∧
            other.invocations = []) ∧
        ∀ key value, s.HasUnresolved contexts key value →
          .produced [.key key] value ∈ (Submission.run schedule memory [s] contexts).events 0) ∧
    ∀ (request : Request) (context : ContextRef), (contexts.read context).isExpired = true →
      (∀ document, (executor.withSchema schema').validate document =
        executor.validate document) →
      let expired := executor.executeRequestWith schedule memory request context contexts
      let failing := (executor.withSchema schema').executeRequestWith schedule' memory' request
        { context with deadline := none } contexts
      expired.result = failing.result ∧
        expired.contexts.contexts = failing.contexts.contexts ∧ expired.invocations = [] := by
  constructor
  · intro s hs hexpired expired failing
    subst hs
    obtain ⟨hresult, hcontexts, hunchanged, hinvocations⟩ :=
      Submission.executeWith_of_expired schedule memory schedule' memory' hserial htimeless hschema
        hexpired
    refine ⟨hresult, hcontexts, hunchanged, hinvocations, fun schema hbare => ?_,
      fun key value h => ?_⟩
    · have hschema' : schema.TimedOut schema' := ⟨hbare.trans hschema.bare_eq, hschema.timesOut⟩
      have hother : (s.withSchema schema).query.executor.Serial := ⟨hserial.root, hserial.nested⟩
      obtain ⟨hresult', -, hunchanged', hinvocations'⟩ :=
        Submission.executeWith_of_expired schedule' memory' schedule' memory' hother htimeless
          hschema' hexpired
      exact ⟨hresult'.trans hresult.symm, hunchanged', hinvocations'⟩
    · exact Submission.produced_of_hasUnresolved hserial (Submission.read_of_expired hexpired) h
  · intro request context hexpired hvalidate expired failing
    have hdocument : (executor.withSchema schema').document request = executor.document request :=
      rfl
    simp only [expired, failing, executeRequestWith, hdocument]
    cases executor.document request with
    | error e => exact ⟨rfl, rfl, rfl⟩
    | ok document =>
      have hprepare : (executor.withSchema schema').prepare document =
          (executor.prepare document).withSchema schema' := by
        rw [prepare, prepare, hvalidate]
        rfl
      obtain ⟨hresult, hcontexts, -, hinvocations⟩ :=
        Submission.executeWith_of_expired (s := executor.submission request context document)
          schedule memory schedule' memory' hserial htimeless hschema hexpired
      simp only [submission, hprepare]
      exact ⟨hresult, hcontexts, hinvocations⟩

theorem expired_eq_timing_out_small :
    let executor := (small (.constant (.int 7))).serially
    let schema' := Schema.small (some (.failing ⟨"Timed out before resolving field \"a\".",
      [("code", .string "TIMEOUT")]⟩))
    let s : Submission := ⟨executor.prepare .small, [], ⟨0, some 0⟩, none⟩
    executor.Serial ∧ executor.directives.Timeless ∧ executor.schema.TimedOut schema' ∧
      (ContextStore.read (s.plan ⟨[[]], 0⟩).2 ⟨[[]], 0⟩).isExpired = true ∧
      s.HasUnresolved ⟨[[]], 0⟩ "b" (.int 1) ∧
      (Submission.executeWith .rota .start s ⟨[[]], 0⟩).result =
        (Submission.executeWith .first () ((s.unlimited ⟨[[]], 0⟩).withSchema schema')
          ⟨[[]], 0⟩).result ∧
      .produced [.key "b"] (.int 1) ∈ (Submission.run .rota .start [s] ⟨[[]], 0⟩).events 0 := by
  intro executor schema' s
  have hserial : executor.Serial := ⟨fun _ => rfl, rfl⟩
  have htimes : ∀ name type, schema'.type? name = some (.object type) → type.TimesOut := by
    intro name type ht field d r hd hr
    obtain ⟨rfl, rfl⟩ := Schema.resolver_small ht hd hr
    exact fun _ _ => rfl
  have hschema : executor.schema.TimedOut schema' := ⟨rfl, htimes⟩
  have hroot : s.HasUnresolved ⟨[[]], 0⟩ "b" (.int 1) :=
    @Submission.HasUnresolved.intro _ _ _ _ (Plan.small (.constant (.int 7))) _ _ _ _ rfl rfl
      (by decide) rfl rfl rfl rfl
  obtain ⟨hsubmissions, -⟩ := expired_eq_timing_out .rota .start .first () ⟨[[]], 0⟩ hserial
    DirectiveChain.timeless_standard hschema
  obtain ⟨hresult, -, -, -, -, hproduced⟩ := hsubmissions s rfl rfl
  exact ⟨hserial, DirectiveChain.timeless_standard, hschema, rfl, hroot, hresult,
    hproduced "b" _ hroot⟩

end Executor

end GraphQL
