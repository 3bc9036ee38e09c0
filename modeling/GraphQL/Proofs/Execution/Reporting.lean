import GraphQL.Proofs.Execution.Debugging
import GraphQL.Proofs.Execution.FirstError
import GraphQL.Proofs.Execution.Propagation
import GraphQL.Proofs.Execution.Returning
import GraphQL.Proofs.Execution.TimingOut
import GraphQL.Proofs.Schema.Registration

/-!
What every execution reports.

A result has data, or it is a failure with errors (`Executor.Reportable`). Of all that stops an
execution the first is reported, and unless that is an error of a field, no resolver has a part in
it (`Executor.outcome_reportable`). This is so of all that comes back, and where a default needs
itself not everything does (`Executor.outcome_lost`).
-/

set_option autoImplicit false

namespace GraphQL

open Json Execution

/-- What may stop an execution, in the order in which it is reported. -/
inductive Obstacle where
  | source
  | validation
  | selection
  | operation
  | rootType
  | bindings
  | fields
  deriving DecidableEq, Repr

namespace Obstacle

def rank : Obstacle → Nat
  | source => 0
  | validation => 1
  | selection => 2
  | operation => 3
  | rootType => 4
  | bindings => 5
  | fields => 6

theorem rank_injective {o o' : Obstacle} (h : o.rank = o'.rank) : o = o' := by
  cases o <;> cases o' <;> first | rfl | cases h

/-- An error is that of the first of the obstacles that there are. -/
def IsFirst (stops : Obstacle → ExecutionError → Prop) (e : ExecutionError) : Prop :=
  ∃ o, stops o e ∧ ∀ o' e', stops o' e' → o.rank ≤ o'.rank

end Obstacle

/-- There is nothing to select just if there is no operation. -/
theorem Document.select_eq_none_iff {d : Document} {operationName : Option String} :
    d.select operationName = .ok none ↔ d.operations = [] := by
  unfold select
  split
  · next h => exact ⟨fun _ => h, fun _ => rfl⟩
  · next h =>
    rw [h]
    exact ⟨nofun, nofun⟩
  · next h _ =>
    refine ⟨fun h' => ?_, fun h' => absurd h' h⟩
    split at h' <;> cases h'

namespace PreparedQuery

/-- What stops an execution, and its error. The errors of fields do in debug mode. -/
inductive Stops (q : PreparedQuery) (variableValues : Entries Value)
    (operationName : Option String) (output : Output) : Obstacle → ExecutionError → Prop where
  | validation : q.validationErrors ≠ [] →
      Stops q variableValues operationName output .validation (.validation q.validationErrors)
  | selection {e : OperationNotSelected} : q.document.select operationName = .error e →
      Stops q variableValues operationName output .selection
        (.preparation (.operationNotSelected e))
  | operation : q.document.operations = [] → q.executor.configuration.requireOperation = true →
      Stops q variableValues operationName output .operation (.preparation .noOperation)
  | rootType {o : Operation Literal} : q.document.select operationName = .ok (some o) →
      q.executor.schema.rootType? o.kind = none →
      Stops q variableValues operationName output .rootType
        (.preparation (.unsupportedOperation o.kind.render))
  | bindings {o : Operation Literal} {errors : List VariableError} :
      q.document.select operationName = .ok (some o) →
      coerceVariables q.executor.schema o.variableDefinitions variableValues = .error errors →
      Stops q variableValues operationName output .bindings (.invalidVariables errors)
  | fields {e : Error} : q.executor.configuration.debug = true → output.errors.head? = some e →
      Stops q variableValues operationName output .fields (.field e)

variable {q : PreparedQuery} {variableValues : Entries Value} {operationName : Option String}
  {output : Output}

/-- An obstacle has one error. -/
theorem Stops.unique {o : Obstacle} {e e' : ExecutionError}
    (h : q.Stops variableValues operationName output o e)
    (h' : q.Stops variableValues operationName output o e') : e = e' := by
  cases h with
  | validation _ => cases h'; rfl
  | selection h => cases h' with | selection h' => rw [Except.error.inj (h.symm.trans h')]
  | operation _ _ => cases h'; rfl
  | rootType h _ =>
    cases h' with
    | rootType h' _ => rw [Option.some.inj (Except.ok.inj (h.symm.trans h'))]
  | bindings h hv =>
    cases h' with
    | bindings h' hv' =>
      obtain rfl := Option.some.inj (Except.ok.inj (h.symm.trans h'))
      rw [Except.error.inj (hv.symm.trans hv')]
  | fields _ h =>
    cases h' with
    | fields _ h' => rw [Option.some.inj (h.symm.trans h')]

/-- The error of a plan is that of the first obstacle. -/
theorem isFirst_of_plan {e : ExecutionError} (h : q.plan variableValues operationName = .error e) :
    Obstacle.IsFirst (q.Stops variableValues operationName output) e := by
  have hplanned := q.planned_plan variableValues operationName
  rw [h] at hplanned
  cases hplanned with
  | invalid hvalid =>
    refine ⟨.validation, .validation hvalid, fun o' e' h' => ?_⟩
    cases h' <;> simp [Obstacle.rank]
  | unselected hvalid hselect =>
    refine ⟨.selection, .selection hselect, fun o' e' h' => ?_⟩
    cases h' with
    | validation hv => exact absurd hvalid hv
    | _ => simp [Obstacle.rank]
  | missing hvalid hselect hrequire =>
    have hnil := Document.select_eq_none_iff.1 hselect
    refine ⟨.operation, .operation hnil hrequire, fun o' e' h' => ?_⟩
    cases h' with
    | validation hv => exact absurd hvalid hv
    | selection hs => cases hselect.symm.trans hs
    | _ => simp [Obstacle.rank]
  | rootless hvalid hselect hroot =>
    refine ⟨.rootType, .rootType hselect hroot, fun o' e' h' => ?_⟩
    cases h' with
    | validation hv => exact absurd hvalid hv
    | selection hs => cases hselect.symm.trans hs
    | operation ho => cases hselect.symm.trans (Document.select_eq_none_iff.2 ho)
    | _ => simp [Obstacle.rank]
  | unbound hvalid hselect hroot hbindings =>
    refine ⟨.bindings, .bindings hselect hbindings, fun o' e' h' => ?_⟩
    cases h' with
    | validation hv => exact absurd hvalid hv
    | selection hs => cases hselect.symm.trans hs
    | operation ho => cases hselect.symm.trans (Document.select_eq_none_iff.2 ho)
    | rootType hs hr =>
      obtain rfl := Option.some.inj (Except.ok.inj (hselect.symm.trans hs))
      cases hroot.symm.trans hr
    | _ => simp [Obstacle.rank]

/-- With a plan nothing has stopped the execution but perhaps the errors of fields. -/
theorem eq_fields_of_plan {plan? : Option Plan}
    (hp : q.plan variableValues operationName = .ok plan?) {o : Obstacle} {e : ExecutionError}
    (h : q.Stops variableValues operationName output o e) : o = .fields := by
  have hplanned := q.planned_plan variableValues operationName
  rw [hp] at hplanned
  cases hplanned with
  | nothing hvalid hselect hrequire =>
    cases h with
    | validation hv => exact absurd hvalid hv
    | operation _ hr => cases hrequire.symm.trans hr
    | selection hs | rootType hs _ | bindings hs _ => cases hselect.symm.trans hs
    | fields => rfl
  | planned hvalid hselect hroot hbindings =>
    cases h with
    | validation hv => exact absurd hvalid hv
    | operation ho => cases hselect.symm.trans (Document.select_eq_none_iff.2 ho)
    | selection hs => cases hselect.symm.trans hs
    | rootType hs hr =>
      obtain rfl := Option.some.inj (Except.ok.inj (hselect.symm.trans hs))
      cases hroot.symm.trans hr
    | bindings hs hb =>
      obtain rfl := Option.some.inj (Except.ok.inj (hselect.symm.trans hs))
      cases hbindings.symm.trans hb
    | fields => rfl

theorem eq_nil_of_plan_none (hp : q.plan variableValues operationName = .ok none) :
    q.document.operations = [] ∧ q.executor.configuration.requireOperation = false := by
  have hplanned := q.planned_plan variableValues operationName
  rw [hp] at hplanned
  cases hplanned with
  | nothing _ hselect hrequire => exact ⟨Document.select_eq_none_iff.1 hselect, hrequire⟩

/-- Whatever stops an execution has errors to show. -/
theorem Stops.toErrors_ne_nil {o : Obstacle} {e : ExecutionError}
    (h : q.Stops variableValues operationName output o e) : e.toErrors ≠ [] := by
  cases h with
  | validation hv => exact hv
  | bindings _ hb =>
    intro hnil
    rw [coerceVariables] at hb
    dsimp only at hb
    split at hb
    · cases hb
    · next hne =>
      cases hb
      exact hne (List.isEmpty_iff.2 (List.map_eq_nil_iff.1 hnil))
  | _ => exact List.cons_ne_nil _ _

theorem toErrors_ne_nil_of_plan {e : ExecutionError}
    (hp : q.plan variableValues operationName = .error e) : e.toErrors ≠ [] := by
  obtain ⟨o, ho, -⟩ : Obstacle.IsFirst (q.Stops variableValues operationName ⟨.null, []⟩) e :=
    isFirst_of_plan hp
  exact ho.toErrors_ne_nil

end PreparedQuery

namespace Executor

/-- The result has data, and only null data without errors would tell nothing; or there was nothing
to execute; or it is a failure with errors. In debug mode no result but a failure has errors. -/
inductive Reportable (executor : Executor) (noOperation : Prop) :
    Except ExecutionError Response → Prop where
  | answer {r : Response} {data : Value} : r.data = some data →
      (data = .null → r.errors ≠ []) →
      (executor.configuration.debug = true → r.errors = []) →
      Reportable executor noOperation (.ok r)
  | nothing : noOperation → executor.configuration.requireOperation = false →
      Reportable executor noOperation (.ok .empty)
  | failure {e : ExecutionError} : e.toResponse.data = none → e.toResponse.errors ≠ [] →
      Reportable executor noOperation (.error e)

theorem Reportable.imp {executor : Executor} {P Q : Prop}
    {result : Except ExecutionError Response} (h : executor.Reportable P result) (hPQ : P → Q) :
    executor.Reportable Q result := by
  cases h with
  | answer hdata hnull hdebug => exact .answer hdata hnull hdebug
  | nothing hP hrequire => exact .nothing (hPQ hP) hrequire
  | failure hdata herrors => exact .failure hdata herrors

/-- The strategies hand back no completions but those of the siblings. -/
structure Honest (executor : Executor) : Prop where
  root : ∀ kind, (executor.rootStrategy kind).Honest
  nested : executor.nested.Honest

theorem conclude_error_iff {executor : Executor} {output : Output} {e : ExecutionError} :
    executor.conclude output = .error e ↔
      executor.configuration.debug = true ∧
        ∃ error, output.errors.head? = some error ∧ e = .field error := by
  unfold conclude
  cases executor.configuration.debug <;> cases output.errors <;> simp [eq_comm]

end Executor

namespace Submission

variable {Memory : Type} {schedule : Schedule Memory} {memory : Memory}
  {submissions : List Submission} {contexts : ContextStore} {number : Nat} {s : Submission}

/-- What stops the execution of a submission that comes to an output. -/
def Stops (s : Submission) (contexts : ContextStore) (output : Output) :
    Obstacle → ExecutionError → Prop :=
  s.query.Stops (s.query.inputs s.variableValues s.context contexts).1 s.operationName output

theorem conclude_error_iff {last : State}
    (hplan : (last.output number).errors ≠ [] → ∃ plan, (s.plan contexts).1 = .ok (some plan))
    (e : ExecutionError) :
    s.conclude contexts number last = .error e ↔
      Obstacle.IsFirst (s.Stops contexts (last.output number)) e := by
  have hfirst : ∀ {e}, s.conclude contexts number last = .error e →
      Obstacle.IsFirst (s.Stops contexts (last.output number)) e := by
    intro e h
    unfold conclude at h
    split at h
    · next e' hp =>
      cases h
      exact PreparedQuery.isFirst_of_plan hp
    · cases h
    · next plan hp =>
      obtain ⟨hdebug, error, hhead, rfl⟩ := Executor.conclude_error_iff.1 h
      refine ⟨.fields, .fields hdebug hhead, fun o' e' h' => ?_⟩
      rw [PreparedQuery.eq_fields_of_plan hp h']
  refine ⟨hfirst, ?_⟩
  rintro ⟨o, ho, hmin⟩
  have herror : ∃ e', s.conclude contexts number last = .error e' := by
    unfold conclude
    cases hp : (s.plan contexts).1 with
    | error e' => exact ⟨e', rfl⟩
    | ok plan? =>
      obtain rfl := PreparedQuery.eq_fields_of_plan hp ho
      cases ho with
      | fields hdebug hhead =>
        obtain ⟨plan, hplan⟩ := hplan (by rintro hnil; rw [hnil] at hhead; cases hhead)
        obtain rfl : plan? = some plan := Except.ok.inj (hp.symm.trans hplan)
        exact ⟨_, Executor.conclude_error_iff.2 ⟨hdebug, _, hhead, rfl⟩⟩
  obtain ⟨e', he'⟩ := herror
  obtain ⟨o', ho', hmin'⟩ := hfirst he'
  obtain rfl : o = o' := Obstacle.rank_injective
    (Nat.le_antisymm (hmin o' e' ho') (hmin' o e ho))
  rw [he', ho.unique ho']

/-- An execution that ends without errors has not skipped a call. -/
theorem not_refuses_skipped
    (hnone : (run schedule memory submissions contexts).errors number = []) :
    ¬ (world schedule memory submissions contexts number).refuses .skipped := by
  rintro ⟨st, run', hb, hr, hrefusal⟩
  have habort : st.isAborted number run' = false := by
    refine State.isAborted_eq_false ?_
    obtain ⟨es, hes⟩ := State.events_of_reaches hb.2 number
    rw [State.errors, hes, List.filterMap_append, List.append_eq_nil_iff] at hnone
    exact hnone.1
  rw [State.refusal?, habort] at hrefusal
  simp only [Bool.false_eq_true, if_false] at hrefusal
  split at hrefusal <;> cases hrefusal

theorem exists_plan_of_output (hs : submissions[number]? = some s) (hl : s.query.executor.Live)
    (he : ((run schedule memory submissions contexts).output number).errors ≠ []) :
    ∃ plan, (s.plan contexts).1 = .ok (some plan) := by
  refine exists_plan_of_errors schedule memory contexts hs hl fun hnil => he ?_
  rw [State.output, hnil]
  exact (sortErrors_perm _ []).eq_nil

/-- Null data comes with an error. -/
theorem errors_ne_nil_of_data_null (hs : submissions[number]? = some s)
    (hl : s.query.executor.Live) (hh : s.query.executor.Honest) {plan : Plan}
    (hp : (s.plan contexts).1 = .ok (some plan))
    (hdata : ((run schedule memory submissions contexts).output number).data = .null) :
    ((run schedule memory submissions contexts).output number).errors ≠ [] := by
  obtain ⟨c, hends, hout⟩ := exists_ends_of_live (.world _ _ number) hs hp hl
  rw [hout] at hdata ⊢
  intro hnil
  have hnone : (run schedule memory submissions contexts).errors number = [] :=
    ((sortErrors_perm _ _).symm.trans (.of_eq hnil)).eq_nil
  cases c with
  | value v => exact Setting.ends_selectionSet_ne_null hends hdata
  | propagate =>
    obtain ⟨ev, hev, herror⟩ := Setting.explains_selectionSet (s := s.setting plan) hh.nested
      (not_refuses_skipped hnone) _ (hh.root _) _ _ _ _ _ hends
    obtain ⟨e, he⟩ := Option.isSome_iff_exists.1 herror
    have hmem : e ∈ (run schedule memory submissions contexts).errors number :=
      List.mem_filterMap.2 ⟨ev, hev, he⟩
    rw [hnone] at hmem
    cases hmem

theorem reportable (hs : submissions[number]? = some s) (hl : s.query.executor.Live)
    (hh : s.query.executor.Honest) :
    s.query.executor.Reportable (s.query.document.operations = [])
      (s.conclude contexts number (run schedule memory submissions contexts)) := by
  unfold conclude
  split
  · next e hp =>
    exact .failure rfl (PreparedQuery.toErrors_ne_nil_of_plan hp)
  · next hp =>
    obtain ⟨hnil, hrequire⟩ := PreparedQuery.eq_nil_of_plan_none hp
    exact .nothing hnil hrequire
  · next plan hp =>
    cases hresult : s.query.executor.conclude
        ((run schedule memory submissions contexts).output number) with
    | error e =>
      obtain ⟨-, error, -, rfl⟩ := Executor.conclude_error_iff.1 hresult
      exact .failure rfl (List.cons_ne_nil _ _)
    | ok r =>
      have hr : r = ⟨some ((run schedule memory submissions contexts).output number).data,
          ((run schedule memory submissions contexts).output number).errors, []⟩ := by
        unfold Executor.conclude at hresult
        split at hresult
        · cases hresult
        · exact (Except.ok.inj hresult).symm
      refine .answer (by rw [hr]) (fun hdata => ?_) fun hdebug => ?_
      · rw [hr]
        exact errors_ne_nil_of_data_null hs hl hh hp hdata
      · rw [hr]
        cases herrors : ((run schedule memory submissions contexts).output number).errors with
        | nil => rfl
        | cons error errors =>
          have herror := Executor.conclude_error_iff.2 ⟨hdebug, error, by rw [herrors]; rfl, rfl⟩
          cases hresult.symm.trans herror

end Submission

/-! Obstacles before the errors of fields do not depend on the resolvers. -/

section

variable (resolvers : String → String → Option Resolver) (typeResolvers : Entries TypeResolver)

theorem PreparedQuery.plan_register (q : PreparedQuery) (variableValues : Entries Value)
    (operationName : Option String) :
    (q.withSchema (q.executor.schema.register resolvers typeResolvers)).plan variableValues
        operationName =
      (q.plan variableValues operationName).map
        (Option.map fun plan => { plan with rootType := plan.rootType.register resolvers }) :=
  q.plan_withSchema (q.executor.schema.rootType?_register resolvers typeResolvers)
    (q.executor.schema.coerceVariables_register resolvers typeResolvers) variableValues
    operationName

theorem PreparedQuery.coercedDefinitions_register (q : PreparedQuery)
    (operationName : Option String) :
    (q.withSchema (q.executor.schema.register resolvers typeResolvers)).coercedDefinitions
        operationName =
      q.coercedDefinitions operationName := by
  simp only [coercedDefinitions, withSchema, Executor.withSchema, Schema.rootType?_register,
    Option.isSome_map]

namespace Submission

variable {Memory : Type} {schedule : Schedule Memory} {memory : Memory}
  {submissions : List Submission} {contexts : ContextStore} {number : Nat} {s : Submission}
  {e : ExecutionError}

theorem plan_of_conclude {last : State} (he : ∀ error, e ≠ .field error)
    (h : s.conclude contexts number last = .error e) : (s.plan contexts).1 = .error e := by
  unfold conclude at h
  split at h
  · next hp =>
    cases h
    exact hp
  · cases h
  · obtain ⟨-, error, -, rfl⟩ := Executor.conclude_error_iff.1 h
    exact absurd rfl (he error)

theorem plan_register (h : (s.plan contexts).1 = .error e) :
    ((s.withSchema (s.query.executor.schema.register resolvers typeResolvers)).plan contexts).1 =
      .error e := by
  refine (PreparedQuery.plan_register resolvers typeResolvers s.query _ _).trans ?_
  exact congrArg (Except.map _) h

/-- Whether the variables come back from their coercion does not depend on the resolvers. -/
theorem begins_register (h : (s.plan contexts).1 = .error e) (hbegins : s.begins contexts = true) :
    (s.withSchema (s.query.executor.schema.register resolvers typeResolvers)).begins contexts =
      true := by
  rw [begins_iff] at hbegins ⊢
  refine ⟨fun d hd value hvalue => ?_, fun plan hp => ?_⟩
  · have hcoerced : d ∈ s.query.coercedDefinitions s.operationName := by
      rw [← PreparedQuery.coercedDefinitions_register resolvers typeResolvers]
      exact hd
    rw [Schema.acc_iff_not_endless]
    refine (congrArg (fun result => ¬ Endless result) ?_).mpr
      (Schema.acc_iff_not_endless.1 (hbegins.1 d hcoerced value hvalue))
    exact s.query.executor.schema.coerceInput_register resolvers typeResolvers d.type value
  · cases (plan_register resolvers typeResolvers h).symm.trans hp

/-- Without a plan nothing happens. -/
theorem events_eq_nil (hs : submissions[number]? = some s) (hl : s.query.executor.Live)
    (h : (s.plan contexts).1 = .error e) :
    (run schedule memory submissions contexts).events number = [] := by
  obtain ⟨c, hends, -⟩ := exists_account_of_live
    (.refl (world schedule memory submissions contexts number)) (.world _ _ number) hs hl
  rw [start, h] at hends
  exact hends.of_done.2

/-- Other resolvers have no part in the error of a submission that has no plan. -/
theorem executeAllWith_register (hl : s.query.executor.Live)
    (hs : submissions[number]? =
      some (s.withSchema (s.query.executor.schema.register resolvers typeResolvers)))
    (h : (s.plan contexts).1 = .error e) :
    (executeAllWith schedule memory submissions contexts).result[number]? = some (.error e) ∧
      (run schedule memory submissions contexts).events number = [] := by
  have hplan := plan_register resolvers typeResolvers h
  refine ⟨?_, events_eq_nil hs ⟨hl.root, hl.nested⟩ hplan⟩
  simp only [executeAllWith, List.getElem?_mapIdx, hs, Option.map_some]
  rw [conclude, hplan]

end Submission

/-- Where everything is done nothing happens. -/
theorem Execution.State.run_of_isDone {Memory : Type} (schedule : Schedule Memory) (memory : Memory)
    {st : State} (h : ∀ run ∈ st.runs, ∃ c, run.task = .done c) : st.run schedule memory = st := by
  have hadvance : ∀ p, st.advance p = none := by
    intro p
    unfold advance
    split
    · rfl
    · next number path _ =>
      cases hr : st.runs[number]? with
      | none => rfl
      | some run =>
        obtain ⟨c, hc⟩ := h run (List.mem_of_getElem? hr)
        simp only [Option.bind_eq_bind, Option.bind_some, hc]
        cases path <;> rfl
  have hlater : ∀ p, (st.elapse (schedule.lapse memory st)).advance p = none := fun p =>
    (advance_elapse_eq_none_iff _).2 (hadvance p)
  have hfirst : (st.elapse (schedule.lapse memory st)).advanceFirst = none :=
    List.findSome?_eq_none_iff.2 fun p _ => hlater p
  have hchosen : (st.elapse (schedule.lapse memory st)).advanceChosen schedule memory = none := by
    rw [advanceChosen]
    cases schedule.choose memory (st.elapse (schedule.lapse memory st)) with
    | none => rfl
    | some choice => simp [hlater]
  have hstep : st.step schedule memory = none := by
    rw [step, proceed, hchosen, hfirst]
    rfl
  rw [run]
  split
  · next hnext => cases hstep.symm.trans hnext
  · rfl

namespace Submission

variable {Memory : Type} (schedule : Schedule Memory) (memory : Memory) {s : Submission}
  {contexts : ContextStore} {e : ExecutionError}

theorem run_of_error (h : (s.plan contexts).1 = .error e) :
    run schedule memory [s] contexts = initial [s] contexts := by
  refine State.run_of_isDone schedule memory fun run' hr => ?_
  obtain rfl := List.mem_singleton.1 hr
  refine ⟨.propagate, ?_⟩
  change (s.start contexts).task = _
  rw [start, h]
  rfl

theorem executeWith_of_error (h : (s.plan contexts).1 = .error e) :
    s.executeWith schedule memory contexts = ⟨.error e, [], contexts⟩ := by
  rw [executeWith, run_of_error schedule memory h, conclude, h]
  rfl

theorem comeBack_of_error (h : (s.plan contexts).1 = .error e)
    (hbegins : s.begins contexts = true) : comeBack schedule memory [s] contexts = true := by
  rw [comeBack, run_of_error schedule memory h, List.all_cons, hbegins]
  rfl

end Submission

end

namespace Executor

variable {Memory : Type}

/-- What stops a request, and its error. -/
inductive Stops (schedule : Schedule Memory) (memory : Memory) (executor : Executor)
    (request : Request) (context : ContextRef) (contexts : ContextStore) :
    Obstacle → ExecutionError → Prop where
  | missing : request.query = none → request.operationName = none →
      Stops schedule memory executor request context contexts .source (.preparation .missingQuery)
  | notStored {name : String} : request.query = none → request.operationName = some name →
      (executor.queryCache.bind fun fetch => fetch name) = none →
      Stops schedule memory executor request context contexts .source
        (.preparation (.unknownPersistedOperation name))
  | unreadable {text : String} {e : SpecError} : request.query = some text →
      Document.parse text = .error e →
      Stops schedule memory executor request context contexts .source (.spec e)
  | execution {document : Document} {o : Obstacle} {e : ExecutionError} :
      executor.document request = .ok document →
      (executor.submission request context document).Stops contexts
        ((Submission.run schedule memory [executor.submission request context document]
          contexts).output 0) o e →
      Stops schedule memory executor request context contexts o e

variable {schedule : Schedule Memory} {memory : Memory}

theorem stops_of_document_error {executor : Executor} {request : Request} (context : ContextRef)
    (contexts : ContextStore) {e : ExecutionError} (h : executor.document request = .error e) :
    executor.Stops schedule memory request context contexts .source e := by
  unfold document at h
  split at h
  · next text hquery =>
    split at h
    · cases h
    · next hparse =>
      cases h
      exact .unreadable hquery hparse
  · next name hquery hname =>
    split at h
    · cases h
    · next hcache =>
      cases h
      exact .notStored hquery hname hcache
  · next hquery hname =>
    cases h
    exact .missing hquery hname

variable {executor : Executor} {request : Request} {context : ContextRef}
  {contexts : ContextStore}

theorem Stops.document_eq {o : Obstacle} {e : ExecutionError}
    (h : executor.Stops schedule memory request context contexts o e) :
    o = .source ∧ executor.document request = .error e ∨
      ∃ document, executor.document request = .ok document ∧
        (executor.submission request context document).Stops contexts
          ((Submission.run schedule memory [executor.submission request context document]
            contexts).output 0) o e := by
  cases h with
  | missing hquery hname => exact .inl ⟨rfl, by rw [document, hquery, hname]⟩
  | notStored hquery hname hcache =>
    refine .inl ⟨rfl, ?_⟩
    rw [document, hquery, hname]
    simp only [hcache]
  | unreadable hquery hparse =>
    refine .inl ⟨rfl, ?_⟩
    rw [document, hquery]
    simp only [hparse]
  | execution hdocument hstops => exact .inr ⟨_, hdocument, hstops⟩

theorem Stops.toErrors_ne_nil {o : Obstacle} {e : ExecutionError}
    (h : executor.Stops schedule memory request context contexts o e) : e.toErrors ≠ [] := by
  cases h with
  | execution _ h => exact PreparedQuery.Stops.toErrors_ne_nil h
  | _ => exact List.cons_ne_nil _ _

/-- Without a document its error is the first. -/
theorem isFirst_of_document_error {e e' : ExecutionError}
    (h : executor.document request = .error e) :
    Obstacle.IsFirst (executor.Stops schedule memory request context contexts) e' ↔ e = e' := by
  constructor
  · rintro ⟨o, ho, -⟩
    obtain ⟨-, h'⟩ | ⟨document, h', -⟩ := ho.document_eq
    · exact Except.error.inj (h.symm.trans h')
    · cases h.symm.trans h'
  · rintro rfl
    exact ⟨.source, stops_of_document_error context contexts h, fun _ _ _ => Nat.zero_le _⟩

/-- With a document the obstacles are those of its execution. -/
theorem stops_iff_of_document {d : Document} (h : executor.document request = .ok d)
    {o : Obstacle} {e : ExecutionError} :
    executor.Stops schedule memory request context contexts o e ↔
      (executor.submission request context d).Stops contexts
        ((Submission.run schedule memory [executor.submission request context d]
          contexts).output 0) o e := by
  refine ⟨fun hstops => ?_, .execution h⟩
  obtain ⟨-, h'⟩ | ⟨d', h', hstops⟩ := hstops.document_eq
  · cases h.symm.trans h'
  · obtain rfl := Except.ok.inj (h.symm.trans h')
    exact hstops

section

variable (schedule memory)

theorem executeRequestWith_of_document {d : Document} (h : executor.document request = .ok d)
    (context : ContextRef) (contexts : ContextStore) :
    executor.executeRequestWith schedule memory request context contexts =
      (executor.submission request context d).executeWith schedule memory contexts := by
  rw [executeRequestWith, h]

theorem executeRequestWith_of_error {e : ExecutionError}
    (h : executor.document request = .error e) (context : ContextRef) (contexts : ContextStore) :
    executor.executeRequestWith schedule memory request context contexts =
      ⟨.error e, [], contexts⟩ := by
  rw [executeRequestWith, h]

end

/-- What a request comes to is reportable, and its error is that of the first obstacle. -/
theorem executeRequestWith_reportable (schedule : Schedule Memory) (memory : Memory)
    (request : Request) (context : ContextRef) (contexts : ContextStore)
    (hl : executor.Live) (hh : executor.Honest) :
    executor.Reportable
        (∃ document, executor.document request = .ok document ∧ document.operations = [])
        (executor.executeRequestWith schedule memory request context contexts).result ∧
      ∀ e, (executor.executeRequestWith schedule memory request context contexts).result =
          .error e ↔
        Obstacle.IsFirst (executor.Stops schedule memory request context contexts) e := by
  cases hd : executor.document request with
  | error e =>
    have hstops : executor.Stops schedule memory request context contexts .source e :=
      stops_of_document_error context contexts hd
    rw [executeRequestWith_of_error schedule memory hd]
    refine ⟨.failure rfl hstops.toErrors_ne_nil, fun e' => ?_⟩
    rw [isFirst_of_document_error hd, Except.error.injEq]
  | ok d =>
    have hone : [executor.submission request context d][0]? =
        some (executor.submission request context d) := rfl
    rw [executeRequestWith_of_document schedule memory hd]
    refine ⟨(Submission.reportable hone hl hh).imp fun hnil => ⟨d, rfl, hnil⟩, fun e => ?_⟩
    simp only [Obstacle.IsFirst, stops_iff_of_document hd]
    exact Submission.conclude_error_iff (Submission.exists_plan_of_output hone hl) e

/-- Other resolvers have no part in an error that is not one of a field. -/
theorem executeRequestWith_register {resolvers : String → String → Option Resolver}
    {typeResolvers : Entries TypeResolver} {e : ExecutionError} {Memory' : Type}
    (schedule' : Schedule Memory') (memory' : Memory')
    (hback : executor.comesBack schedule memory request context contexts = true)
    (he : ∀ error, e ≠ .field error)
    (hvalidate : ∀ document, executor.document request = .ok document →
      (executor.withSchema (executor.schema.register resolvers typeResolvers)).validate document =
        executor.validate document)
    (hresult : (executor.executeRequestWith schedule memory request context contexts).result =
      .error e) :
    let other := executor.withSchema (executor.schema.register resolvers typeResolvers)
    other.comesBack schedule' memory' request context contexts = true ∧
      other.executeRequestWith schedule' memory' request context contexts =
        ⟨.error e, [], contexts⟩ := by
  intro other
  have hsame : other.document request = executor.document request := rfl
  cases hd : executor.document request with
  | error e' =>
    rw [executeRequestWith_of_error schedule memory hd] at hresult
    cases hresult
    refine ⟨?_, executeRequestWith_of_error schedule' memory' (hsame.trans hd) context contexts⟩
    rw [comesBack, hsame, hd]
  | ok d =>
    rw [executeRequestWith_of_document schedule memory hd] at hresult
    rw [comesBack, hd] at hback
    have hsubmission : other.submission request context d =
        (executor.submission request context d).withSchema
          (executor.schema.register resolvers typeResolvers) := by
      rw [submission, prepare, hvalidate d hd]
      rfl
    have hp := Submission.plan_of_conclude he hresult
    have hplan := Submission.plan_register resolvers typeResolvers hp
    have hbegins := (Submission.comeBack_iff.1 hback).1 _ List.mem_cons_self
    rw [executeRequestWith_of_document schedule' memory' (hsame.trans hd), comesBack, hsame, hd]
    simp only [hsubmission]
    exact ⟨Submission.comeBack_of_error schedule' memory' hplan
      (Submission.begins_register resolvers typeResolvers hp hbegins),
      Submission.executeWith_of_error schedule' memory' hplan⟩

/-- Every outcome that there is is reportable, the reported error is that of the first obstacle, and
unless that is an error of a field, it is reported whatever resolvers are registered and none is
called. Where no default of the schema needs itself there is an outcome of every execution, if not
too many resolvers may be in flight. -/
theorem outcome_reportable {executor : Executor} (hl : executor.Live) (hh : executor.Honest) :
    (∀ (s : Submission), s.query.executor = executor →
      ∀ {Memory : Type} (schedule : Schedule Memory) (memory : Memory)
        (submissions : List Submission) (number : Nat) (contexts : ContextStore),
      submissions[number]? = some s →
      Submission.comeBack schedule memory submissions contexts = true → ∃ result,
        (Submission.executeAllWith schedule memory submissions contexts).result[number]? =
            some result ∧
          executor.Reportable (s.query.document.operations = []) result ∧
          (∀ e, result = .error e ↔ Obstacle.IsFirst (s.Stops contexts
            ((Submission.run schedule memory submissions contexts).output number)) e) ∧
          ∀ resolvers typeResolvers e, (∀ error, e ≠ .field error) → result = .error e →
            ∀ {Memory' : Type} (schedule' : Schedule Memory') (memory' : Memory')
              (submissions' : List Submission) (number' : Nat),
            submissions'[number']? =
                some (s.withSchema (executor.schema.register resolvers typeResolvers)) →
              (s.withSchema (executor.schema.register resolvers typeResolvers)).begins contexts =
                  true ∧
                (Submission.executeAllWith schedule' memory' submissions'
                    contexts).result[number']? = some (.error e) ∧
                (Submission.run schedule' memory' submissions' contexts).events number' = []) ∧
      (∀ {Memory : Type} (schedule : Schedule Memory) (memory : Memory) (request : Request)
          (context : ContextRef) (contexts : ContextStore),
        executor.comesBack schedule memory request context contexts = true →
        executor.Reportable
            (∃ document, executor.document request = .ok document ∧ document.operations = [])
            (executor.executeRequestWith schedule memory request context contexts).result ∧
          (∀ e, (executor.executeRequestWith schedule memory request context contexts).result =
              .error e ↔
            Obstacle.IsFirst (executor.Stops schedule memory request context contexts) e) ∧
          ∀ resolvers typeResolvers e, (∀ error, e ≠ .field error) →
            (∀ document, executor.document request = .ok document →
              (executor.withSchema (executor.schema.register resolvers typeResolvers)).validate
                document = executor.validate document) →
            (executor.executeRequestWith schedule memory request context contexts).result =
              .error e →
            ∀ {Memory' : Type} (schedule' : Schedule Memory') (memory' : Memory'),
              let other := executor.withSchema (executor.schema.register resolvers typeResolvers)
              other.comesBack schedule' memory' request context contexts = true ∧
                other.executeRequestWith schedule' memory' request context contexts =
                  ⟨.error e, [], contexts⟩) ∧
      (WellFounded executor.schema.Needed →
        executor.configuration.maxInFlightResolvers ≤ permitLimit →
        ∀ {Memory : Type} (schedule : Schedule Memory) (memory : Memory) (contexts : ContextStore),
          (∀ submissions : List Submission, (∀ s ∈ submissions, s.query.executor = executor) →
            Submission.comeBack schedule memory submissions contexts = true) ∧
          ∀ (request : Request) (context : ContextRef),
            executor.comesBack schedule memory request context contexts = true) := by
  refine ⟨?_, fun schedule memory request context contexts hback => ?_,
    fun hschema hpermits Memory schedule memory contexts => ⟨fun submissions hall => ?_,
      fun request context => ?_⟩⟩
  · rintro s rfl Memory schedule memory submissions number contexts hs hback
    refine ⟨_, ?_, Submission.reportable hs hl hh,
      Submission.conclude_error_iff (Submission.exists_plan_of_output hs hl), ?_⟩
    · simp [Submission.executeAllWith, List.getElem?_mapIdx, hs]
    · intro resolvers typeResolvers e he hresult Memory' schedule' memory' submissions' number' hs'
      have hp := Submission.plan_of_conclude he hresult
      have hbegins := (Submission.comeBack_iff.1 hback).1 s (List.mem_of_getElem? hs)
      exact ⟨Submission.begins_register resolvers typeResolvers hp hbegins,
        Submission.executeAllWith_register resolvers typeResolvers hl hs' hp⟩
  · obtain ⟨hreportable, hfirst⟩ :=
      executeRequestWith_reportable schedule memory request context contexts hl hh
    exact ⟨hreportable, hfirst, fun _ _ _ he hvalidate hresult _ schedule' memory' =>
      executeRequestWith_register schedule' memory' hback he hvalidate hresult⟩
  · exact Submission.comeBack_of_wellFounded fun s hs => hall s hs ▸ ⟨hschema, hpermits⟩
  · exact comesBack_of_wellFounded schedule memory request context contexts hschema hpermits

theorem Faithful.honest {executor : Executor} (h : executor.Faithful) : executor.Honest :=
  ⟨fun kind cs _ hc => (h.root kind).keep_eq cs ▸ hc, fun cs _ hc => h.nested.keep_eq cs ▸ hc⟩

theorem outcome_reportable_late :
    let executor := small (.constant (.int 7))
    let result := (executor.executeRequestWith .ticking () (.ofQuery "{a c:a}") ⟨0, some 8⟩
      ⟨[[]], 0⟩).result
    executor.Live ∧ executor.Honest ∧
      executor.comesBack .ticking () (.ofQuery "{a c:a}") ⟨0, some 8⟩ ⟨[[]], 0⟩ = true ∧
      result = .ok ⟨some (.object [("a", .int 7), ("c", .null)]), [.late], []⟩ ∧
      executor.Reportable (∃ document, executor.document (.ofQuery "{a c:a}") = .ok document ∧
        document.operations = []) result ∧
      ∀ e, result = .error e ↔ Obstacle.IsFirst
        (executor.Stops .ticking () (.ofQuery "{a c:a}") ⟨0, some 8⟩ ⟨[[]], 0⟩) e := by
  intro executor result
  have hl : executor.Live := (faithful_small _).live
  have hh : executor.Honest := (faithful_small _).honest
  have hschema : WellFounded executor.schema.Needed := by decide +kernel
  have hpermits : executor.configuration.maxInFlightResolvers ≤ permitLimit := by decide
  obtain ⟨-, hrequests, hends⟩ := outcome_reportable hl hh
  have hback := (hends hschema hpermits .ticking () ⟨[[]], 0⟩).2 (.ofQuery "{a c:a}") ⟨0, some 8⟩
  have hresult : result = .ok ⟨some (.object [("a", .int 7), ("c", .null)]), [.late], []⟩ := by
    have hdocument : executor.document (.ofQuery "{a c:a}") = .ok .twice := by
      simp only [document, Request.ofQuery, Document.parse_twice]
    have hexecuted := executeRequestWith_of_document .ticking () hdocument ⟨0, some 8⟩ ⟨[[]], 0⟩
    refine (congrArg Outcome.result hexecuted).trans ?_
    cbv
  obtain ⟨hreportable, hfirst, -⟩ := hrequests .ticking () _ _ _ hback
  exact ⟨hl, hh, hback, hresult, hreportable, hfirst⟩

/-- Not every request has an outcome: a text may declare a default that needs itself, and a request
that needs it does not come back. -/
theorem outcome_lost :
    Schema.parse "input A{a:A={}} type Query{f(x:A,y:Int!):Int}" = .ok circular.schema ∧
      circular.Live ∧ circular.Honest ∧
      ¬ ∀ (request : Request) (context : ContextRef) (contexts : ContextStore),
        circular.comesBack .rota .start request context contexts = true := by
  refine ⟨Schema.parse_circularQuery, faithful_circular.live, faithful_circular.honest,
    fun h => ?_⟩
  have hback := h (.ofQuery "{f(x:{})}") ⟨0, none⟩ ⟨[[]], 0⟩
  rw [not_comesBack_circular] at hback
  cases hback

end Executor

end GraphQL
