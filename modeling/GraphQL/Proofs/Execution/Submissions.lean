import GraphQL.Executor
import GraphQL.Proofs.Document.Mapping
import GraphQL.Proofs.Execution.Composition
import GraphQL.Proofs.Execution.Expiring
import GraphQL.Proofs.Schema.Loaded
import GraphQL.Resolver.Stock
import Mathlib.Data.List.Permutation

/-!
What submissions come to when they are run together.

Under any schedule the execution of a submission ends, and what it has done follows the rules in the
world of the states on the way (`Submission.exists_does`).
-/

set_option autoImplicit false

namespace GraphQL

open Json Execution

/-- The resolvers of the fields have a property. -/
def ObjectType.Resolvers (P : Resolver → Prop) (type : ObjectType) : Prop :=
  ∀ field d r, Entries.get? field type.fields = some d → d.resolver = some r → P r

def Schema.Resolvers (P : Resolver → Prop) (schema : Schema) : Prop :=
  ∀ name type, schema.type? name = some (.object type) → type.Resolvers P

namespace Execution

open GraphQL.Execution.Task (Fresh)

/-- What is put together from tasks of a kind is of the kind again, if nothing in it has been asked
for, its calls are of resolvers with a property and its forks have strategies with a property. -/
structure Task.Closed (P : Resolver → Prop) (S : Strategy → Prop) (C : Task → Prop) : Prop where
  done : ∀ c, C (.done c)
  emit : ∀ {e next}, e.invocation? = none → C next → C (.emit e next)
  read : ∀ {next}, (∀ context, C (next context)) → C (.read next)
  call : ∀ {k next}, P k.resolver → (∀ r, C (next r)) → C (.call k .fresh next)
  fork : ∀ {strategy children next}, S strategy → (∀ t ∈ children, C t) → (∀ cs, C (next cs)) →
    C (.fork strategy children next)
  bind : ∀ {f t}, (∀ c, C (f c)) → C t → C (t.bind f)

theorem Task.Closed.collecting {P : Resolver → Prop} {S : Strategy → Prop} {C : Task → Prop}
    (hC : Closed P S C) {next : Task} (h : C next) (errors : List Error) :
    C (Task.emitAll (errors.map .collecting) next) := by
  induction errors with
  | nil => exact h
  | cons e errors ih => exact hC.emit rfl ih

variable {P : Resolver → Prop}

/-- Whatever closed kind of tasks there is, those of operations are of the kind. -/
theorem Composed.closed {C : Task → Prop} {s : Setting} {S : Strategy → Prop}
    {T : ObjectType → Prop} {marks : Prop} {layer : Layer} {room : Nat} {path : Path} {t : Task}
    (hC : Task.Closed P S C) (hT : ∀ type, T type → type.Resolvers P)
    (h : Composed s .any S T marks layer room path t) : C t := by
  induction h with
  | done => exact hC.done _
  | fail => exact hC.emit rfl (hC.done _)
  | giveUp => exact hC.emit rfl (hC.done _)
  | reached _ _ ih => exact hC.emit rfl ih
  | produced _ _ ih => exact hC.emit rfl ih
  | read _ ih => exact hC.read fun context => ih context trivial
  | call ht _ hd _ hr hskipped _ _ iht ihr =>
    refine hC.call (hT _ ht _ _ _ hd hr) fun r => ?_
    cases r with
    | skipped =>
      obtain ⟨c, hc⟩ := hskipped
      rw [hc]
      exact hC.done c
    | timedOut => exact iht
    | resolved r => exact ihr r trivial
  | settle site refusesNull _ ih =>
    refine hC.bind (fun c => ?_) ih
    split
    · split
      · exact hC.emit rfl (hC.done _)
      · exact hC.done _
    · exact hC.done _
  | unmarked _ _ ih => exact ih
  | items hS _ ih =>
    refine hC.fork hS (fun t ht => ?_) fun cs => hC.done _
    obtain ⟨i, hi⟩ := List.mem_iff_getElem?.1 ht
    exact ih i t hi
  | object type selections hS _ ih =>
    refine hC.read fun context =>
      hC.collecting (hC.fork hS (fun t ht => ?_) fun cs => hC.done _) _
    obtain ⟨group, -, rfl⟩ := List.mem_map.1 ht
    exact ih group.1 group.2

theorem Fresh.closed : Task.Closed P (·.order.IsLive) (Fresh P) where
  done := .done
  emit _ h := .emit _ h
  read := .read
  call := .call
  fork := .fork
  bind hf h := h.bind hf

theorem Setting.fresh_selectionSet {s : Setting} (hs : s.schema.Resolvers P)
    (hlive : s.nested.order.IsLive) {room : Nat} {strategy : Strategy}
    (hstrategy : strategy.order.IsLive) {type : ObjectType} {value : Value}
    {selections : List (Selection Literal)} {path : Path} (ht : type.Resolvers P) :
    Fresh P (s.selectionSet room strategy type value selections path) :=
  (composed_selectionSet (T := (·.Resolvers P)) (fun {name type} h => hs name type h)
    (fun _ _ => .inl trivial) hlive hstrategy ht).closed Fresh.closed fun _ h => h

end Execution

structure Executor.Faithful (executor : Executor) : Prop where
  root : ∀ kind, (executor.rootStrategy kind).Faithful
  nested : executor.nested.Faithful

/-- The strategies let every sibling run in the end, whatever they make of the completions. -/
structure Executor.Live (executor : Executor) : Prop where
  root : ∀ kind, (executor.rootStrategy kind).order.IsLive
  nested : executor.nested.order.IsLive

theorem Executor.Faithful.live {executor : Executor} (h : executor.Faithful) : executor.Live :=
  ⟨fun kind => (h.root kind).isLive, h.nested.isLive⟩

namespace PreparedQuery

/-- What planning comes to: a plan, nothing to do, or the first thing that is in the way. -/
inductive Planned (q : PreparedQuery) (variableValues : Entries Value)
    (operationName : Option String) : Except ExecutionError (Option Plan) → Prop where
  | invalid : q.validationErrors ≠ [] →
      Planned q variableValues operationName (.error (.validation q.validationErrors))
  | unselected {e : OperationNotSelected} : q.validationErrors = [] →
      q.document.select operationName = .error e →
      Planned q variableValues operationName (.error (.preparation (.operationNotSelected e)))
  | missing : q.validationErrors = [] → q.document.select operationName = .ok none →
      q.executor.configuration.requireOperation = true →
      Planned q variableValues operationName (.error (.preparation .noOperation))
  | nothing : q.validationErrors = [] → q.document.select operationName = .ok none →
      q.executor.configuration.requireOperation = false →
      Planned q variableValues operationName (.ok none)
  | rootless {o : Operation Literal} : q.validationErrors = [] →
      q.document.select operationName = .ok (some o) →
      q.executor.schema.rootType? o.kind = none →
      Planned q variableValues operationName
        (.error (.preparation (.unsupportedOperation o.kind.render)))
  | unbound {o : Operation Literal} {rootType : ObjectType} {errors : List VariableError} :
      q.validationErrors = [] → q.document.select operationName = .ok (some o) →
      q.executor.schema.rootType? o.kind = some rootType →
      coerceVariables q.executor.schema o.variableDefinitions variableValues = .error errors →
      Planned q variableValues operationName (.error (.invalidVariables errors))
  | planned {plan : Plan} : q.validationErrors = [] →
      q.document.select operationName = .ok (some plan.operation) →
      q.executor.schema.rootType? plan.operation.kind = some plan.rootType →
      coerceVariables q.executor.schema plan.operation.variableDefinitions variableValues =
        .ok plan.bindings →
      Planned q variableValues operationName (.ok (some plan))

theorem planned_plan (q : PreparedQuery) (variableValues : Entries Value)
    (operationName : Option String) :
    q.Planned variableValues operationName (q.plan variableValues operationName) := by
  unfold plan
  split
  · next hvalid => exact .invalid (by simpa using hvalid)
  · next hvalid =>
    have hvalid : q.validationErrors = [] := by simpa using hvalid
    split
    · next hselect => exact .unselected hvalid hselect
    · next hselect =>
      split
      · next hrequire => exact .missing hvalid hselect hrequire
      · next hrequire => exact .nothing hvalid hselect (eq_false_of_ne_true hrequire)
    · next hselect =>
      split
      · next hroot => exact .rootless hvalid hselect hroot
      · next hroot =>
        split
        · next hbindings => exact .unbound hvalid hselect hroot hbindings
        · next hbindings => exact .planned hvalid hselect hroot hbindings

/-- A plan is that of a selected operation, with the root type and the values of its variables. -/
theorem of_plan {q : PreparedQuery} {variableValues : Entries Value}
    {operationName : Option String} {plan : Plan}
    (h : q.plan variableValues operationName = .ok (some plan)) :
    q.document.select operationName = .ok (some plan.operation) ∧
      q.executor.schema.rootType? plan.operation.kind = some plan.rootType ∧
        coerceVariables q.executor.schema plan.operation.variableDefinitions variableValues =
          .ok plan.bindings := by
  have hplanned := q.planned_plan variableValues operationName
  rw [h] at hplanned
  cases hplanned with
  | planned _ hselect hroot hbindings => exact ⟨hselect, hroot, hbindings⟩

/-- The query for another document. -/
def withDocument (d : Document) (q : PreparedQuery) : PreparedQuery := { q with document := d }

variable {q : PreparedQuery} {d : Document} {operationName : Option String}

theorem plan_withDocument_of_eq (h : d.select operationName = q.document.select operationName)
    (variableValues : Entries Value) :
    (q.withDocument d).plan variableValues operationName =
      q.plan variableValues operationName := by
  unfold plan
  rw [show (q.withDocument d).document.select operationName = _ from h]
  rfl

/-- Of the operation a plan depends on its kind and its variables only. -/
theorem plan_withDocument {o o' : Operation Literal}
    (h : q.document.select operationName = .ok (some o))
    (h' : d.select operationName = .ok (some o')) (hkind : o'.kind = o.kind)
    (hvariables : o'.variableDefinitions = o.variableDefinitions)
    (variableValues : Entries Value) :
    (q.withDocument d).plan variableValues operationName =
      (q.plan variableValues operationName).map (Option.map ({ · with operation := o' })) := by
  unfold plan
  rw [h, show (q.withDocument d).document.select operationName = _ from h']
  simp only [hkind, hvariables, withDocument]
  split
  · rfl
  · cases q.executor.schema.rootType? o.kind with
    | none => rfl
    | some rootType =>
      cases coerceVariables q.executor.schema o.variableDefinitions variableValues <;> rfl

/-- What is planned for a document with other selections in its operations is the same operation
with these. -/
theorem plan_of_alike {P : List (Selection Literal) → List (Selection Literal) → Prop}
    (h : Entries.Alike (fun o o' =>
      ∃ nodes, P o.selections nodes ∧ o' = { o with selections := nodes })
      q.document.operations d.operations) (variableValues : Entries Value) :
    (∃ plan nodes, q.plan variableValues operationName = .ok (some plan) ∧
        P plan.operation.selections nodes ∧
        (q.withDocument d).plan variableValues operationName =
          .ok (some { plan with operation := { plan.operation with selections := nodes } })) ∨
      (∀ plan, q.plan variableValues operationName ≠ .ok (some plan)) ∧
        (q.withDocument d).plan variableValues operationName =
          q.plan variableValues operationName := by
  rcases Document.select_of_alike h operationName with
    ⟨o, _, ho, ⟨nodes, hnodes, rfl⟩, ho'⟩ | ⟨hnone, hsame⟩
  · have hplan := plan_withDocument ho ho' rfl rfl variableValues
    cases hp : q.plan variableValues operationName with
    | error e => exact .inr ⟨nofun, by rw [hplan, hp]; rfl⟩
    | ok planned =>
      cases planned with
      | none => exact .inr ⟨nofun, by rw [hplan, hp]; rfl⟩
      | some plan =>
        obtain rfl : o = plan.operation :=
          Option.some.inj (Except.ok.inj (ho.symm.trans (of_plan hp).1))
        exact .inl ⟨plan, nodes, rfl, hnodes, by rw [hplan, hp]; rfl⟩
  · exact .inr ⟨fun plan hp => hnone _ (of_plan hp).1,
      plan_withDocument_of_eq hsame variableValues⟩

end PreparedQuery

namespace Submission

variable {Memory : Type}

def setting (s : Submission) (plan : Plan) : Setting :=
  s.query.executor.setting s.query.document plan.bindings

def job (s : Submission) (plan : Plan) : Job :=
  .object plan.rootType s.query.executor.rootValue plan.operation.selections []

/-- How many levels of selection sets may be entered. -/
def room (s : Submission) : Nat := s.query.executor.configuration.recursionLimit + 1

def initial (submissions : List Submission) (contexts : ContextStore) : State :=
  .start (submissions.map (·.start contexts)) contexts

/-- What happens around the execution of a number when submissions are run together. -/
def world (schedule : Schedule Memory) (memory : Memory) (submissions : List Submission)
    (contexts : ContextStore) (number : Nat) : World :=
  State.world (initial submissions contexts) (run schedule memory submissions contexts) number

theorem orderly_start {P : Resolver → Prop} {s : Submission} (contexts : ContextStore)
    (hl : s.query.executor.Live) (hP : s.query.executor.schema.Resolvers P) (number : Nat) :
    (s.start contexts).Orderly P number := by
  refine .start ?_ _ _ _
  split
  · next plan hp =>
    obtain ⟨name, hn⟩ := Schema.exists_of_rootType? (PreparedQuery.of_plan hp).2.1
    exact Setting.fresh_selectionSet (s := s.setting plan) hP hl.nested
      (hl.root plan.operation.kind) (hP name plan.rootType hn)
  · exact .done _

theorem task_start {s : Submission} {contexts : ContextStore} {plan : Plan}
    (hp : (s.plan contexts).1 = .ok (some plan)) :
    (s.start contexts).task = s.query.executor.task s.query.document plan := by
  simp [start, hp, Executor.start, Run.start]

variable {schedule : Schedule Memory} {memory : Memory} {submissions : List Submission}
  {contexts : ContextStore} {number : Nat} {s : Submission}

theorem getElem?_initial (hs : submissions[number]? = some s) :
    (initial submissions contexts).runs[number]? = some (s.start contexts) := by
  simp [initial, State.start, hs]

/-- An execution ends as any account of its task may end in a world that covers it. -/
theorem exists_account_of_live {schedule : Schedule Memory} {memory : Memory} {w : World}
    {F : Task → Task} (hF : Account w F)
    (hw : w.Covers (initial submissions contexts) (run schedule memory submissions contexts) number)
    (hs : submissions[number]? = some s) (hl : s.query.executor.Live) :
    ∃ c, Ends w (F (s.start contexts).task) c
        ((run schedule memory submissions contexts).events number) ∧
      (run schedule memory submissions contexts).output number =
        .of c ((run schedule memory submissions contexts).errors number) := by
  have hr : (initial submissions contexts).runs[number]? = some (s.start contexts) :=
    getElem?_initial hs
  have ho := orderly_start (P := fun _ => True) contexts hl (fun _ _ _ _ _ _ _ _ => trivial) number
  obtain ⟨last, c, hlast, hc⟩ := State.exists_completion_run schedule memory hr ho
  obtain ⟨es, hes, hends⟩ := State.account_of_reaches hF
    (State.reaches_run schedule memory (initial submissions contexts)) hw hr hlast hc
  have hstart : (initial submissions contexts).events number = [] := rfl
  have hevents : (run schedule memory submissions contexts).events number = es := by
    rw [hstart, List.nil_append] at hes
    exact hes
  refine ⟨c, ?_, ?_⟩
  · rw [hevents]
    exact hends
  · have hcompletion : ((run schedule memory submissions contexts).runs[number]?.bind
        (·.task.completion?)) = some c := by
      rw [run, show (State.start (submissions.map (·.start contexts)) contexts) =
        initial submissions contexts from rfl, hlast]
      simp [hc, Task.completion?]
    rw [State.output, hcompletion, Option.getD_some]

/-- The execution of a plan ends as its task may end in any world that covers it. -/
theorem exists_ends_of_live {schedule : Schedule Memory} {memory : Memory} {w : World}
    (hw : w.Covers (initial submissions contexts) (run schedule memory submissions contexts) number)
    (hs : submissions[number]? = some s) {plan : Plan} (hp : (s.plan contexts).1 = .ok (some plan))
    (hl : s.query.executor.Live) :
    ∃ c, Ends w (s.query.executor.task s.query.document plan) c
        ((run schedule memory submissions contexts).events number) ∧
      (run schedule memory submissions contexts).output number =
        .of c ((run schedule memory submissions contexts).errors number) := by
  rw [← task_start hp]
  exact exists_account_of_live (.refl w) hw hs hl

theorem exists_ends_of_covers {schedule : Schedule Memory} {memory : Memory} {w : World}
    (hw : w.Covers (initial submissions contexts) (run schedule memory submissions contexts) number)
    (hs : submissions[number]? = some s) {plan : Plan} (hp : (s.plan contexts).1 = .ok (some plan))
    (hf : s.query.executor.Faithful) :
    ∃ c, Ends w (s.query.executor.task s.query.document plan) c
        ((run schedule memory submissions contexts).events number) ∧
      (run schedule memory submissions contexts).output number =
        .of c ((run schedule memory submissions contexts).errors number) :=
  exists_ends_of_live hw hs hp hf.live

/-- The execution of a plan follows the rules in any world that covers it. -/
theorem exists_does_of_covers {schedule : Schedule Memory} {memory : Memory} {w : World}
    (hw : w.Covers (initial submissions contexts) (run schedule memory submissions contexts) number)
    (hs : submissions[number]? = some s) {plan : Plan} (hp : (s.plan contexts).1 = .ok (some plan))
    (hf : s.query.executor.Faithful) :
    ∃ c, Does (s.setting plan) w s.room (s.job plan) c
        ((run schedule memory submissions contexts).events number) ∧
      (run schedule memory submissions contexts).output number =
        .of c ((run schedule memory submissions contexts).errors number) := by
  obtain ⟨c, hends, hout⟩ := exists_ends_of_covers hw hs hp hf
  exact ⟨c, Does.of_selectionSet hf.nested (hf.root plan.operation.kind) hends, hout⟩

theorem exists_does (schedule : Schedule Memory) (memory : Memory)
    (hs : submissions[number]? = some s) {plan : Plan} (hp : (s.plan contexts).1 = .ok (some plan))
    (hf : s.query.executor.Faithful) :
    ∃ c, Does (s.setting plan) (world schedule memory submissions contexts number) s.room
        (s.job plan) c ((run schedule memory submissions contexts).events number) ∧
      (run schedule memory submissions contexts).output number =
        .of c ((run schedule memory submissions contexts).errors number) :=
  exists_does_of_covers (.world _ _ number) hs hp hf

theorem run_of_between {st : State} {run' : Run} (hs : submissions[number]? = some s)
    (hb : State.Between (initial submissions contexts)
      (run schedule memory submissions contexts) st)
    (hr : st.runs[number]? = some run') :
    run'.debug = s.query.executor.configuration.debug ∧ run'.context = (s.plan contexts).2 := by
  obtain ⟨run₁, h₁, hd, hc, -⟩ := State.run_of_reaches hb.1 (getElem?_initial hs)
  obtain rfl : run' = run₁ := Option.some.inj (hr.symm.trans h₁)
  exact ⟨hd, hc⟩

/-- Without debug mode a call is refused only when the deadline has passed. -/
theorem sees_expired_of_refuses (hs : submissions[number]? = some s)
    (hdebug : s.query.executor.configuration.debug = false) {r : Reply}
    (h : (world schedule memory submissions contexts number).refuses r) :
    r = .timedOut ∧ ∃ c, (world schedule memory submissions contexts number).sees c ∧
      c.isExpired = true := by
  obtain ⟨st, run', hb, hr, hrefusal⟩ := h
  have hd := (run_of_between hs hb hr).1
  rw [hdebug] at hd
  simp only [State.refusal?, State.isAborted, hd, Bool.false_and, Bool.false_eq_true,
    if_false] at hrefusal
  split at hrefusal
  · next he => exact ⟨(Option.some.inj hrefusal).symm, _, ⟨st, run', hb, hr, rfl⟩, he⟩
  · cases hrefusal

theorem expired_of_refuses (hs : submissions[number]? = some s)
    (hdebug : s.query.executor.configuration.debug = false) {r : Reply}
    (h : (world schedule memory submissions contexts number).refuses r) :
    r = .timedOut ∧ ((run schedule memory submissions contexts).contexts.read
      (s.plan contexts).2).isExpired = true := by
  obtain ⟨hr, _, ⟨st, run', hb, hrun, rfl⟩, he⟩ := sees_expired_of_refuses hs hdebug h
  rw [(run_of_between hs hb hrun).2] at he
  exact ⟨hr, State.isExpired_of_reaches hb.2 he⟩

theorem sees_ahead_of_admits (h : (world schedule memory submissions contexts number).admits) :
    ∃ c, (world schedule memory submissions contexts number).sees c ∧ c.isExpired = false := by
  obtain ⟨st, run', hb, hr, hrefusal⟩ := h
  refine ⟨_, ⟨st, run', hb, hr, rfl⟩, ?_⟩
  by_contra he
  simp only [State.refusal?, eq_true_of_ne_false he, if_true] at hrefusal
  split at hrefusal <;> cases hrefusal

/-- It stands with the deadline of a submission in the end as in the beginning. -/
def Steady (schedule : Schedule Memory) (memory : Memory) (submissions : List Submission)
    (contexts : ContextStore) (s : Submission) : Prop :=
  ((run schedule memory submissions contexts).contexts.read (s.plan contexts).2).isExpired =
    (contexts.read (s.plan contexts).2).isExpired

theorem steady_of_no_deadline (h : (s.plan contexts).2.deadline = none) :
    Steady schedule memory submissions contexts s := by
  simp [Steady, ContextStore.read, Context.isExpired, h]

/-- Where no time passes no deadline does. -/
theorem steady_of_lapse (h : ∀ memory st, schedule.lapse memory st = 0) :
    Steady schedule memory submissions contexts s := by
  have hnow : (run schedule memory submissions contexts).contexts.now = contexts.now :=
    State.now_run h memory _
  rw [Steady, Bool.eq_iff_iff, ContextStore.isExpired_read_iff, ContextStore.isExpired_read_iff,
    hnow]

end Submission

/-- The document of `{a b}`. -/
def Document.small : Document where
  operations := [("", ⟨none, .query, [], [],
    [.field ⟨none, "a", [], [], some ⟨1, 2⟩⟩ [], .field ⟨none, "b", [], [], some ⟨1, 4⟩⟩ []],
    some ⟨1, 1⟩⟩)]
  fragments := []

/-- Whether what was read of a text is the operation of the small document. -/
def Document.readsSmall : Except Syntax.SyntaxError (List Syntax.Item) → Bool
  | .ok [.executable (.operation ⟨none, .query, [], [],
      [.field ⟨none, "a", [], [], some ⟨1, 2⟩⟩ [], .field ⟨none, "b", [], [], some ⟨1, 4⟩⟩ []],
      some ⟨1, 1⟩⟩)] => true
  | _ => false

theorem Document.parse_small : parse "{a b}" = .ok small := by
  have hread : readsSmall (Syntax.Item.parse "{a b}") = true := by decide +kernel
  unfold readsSmall at hread
  split at hread
  · next hitems =>
    rw [parse, hitems]
    rfl
  · cases hread

/-- Without options, except for the value under the root. -/
def Executor.small (resolver : Resolver) : Executor where
  schema := .small (some resolver)
  configuration := {}
  directives := .standard
  rootValue := .object [("b", .int 1)]
  rootStrategy := fun _ => .concurrent 32
  nested := .concurrent 32
  validator := none
  queryCache := none

theorem Executor.faithful_small (resolver : Resolver) : (Executor.small resolver).Faithful :=
  ⟨fun _ => Strategy.faithful_concurrent 32, Strategy.faithful_concurrent 32⟩

/-- The plan of the document of `{a b}` for the small schema. -/
def Plan.small (resolver : Resolver) : Plan where
  operation := ⟨none, .query, [], [],
    [.field ⟨none, "a", [], [], some ⟨1, 2⟩⟩ [], .field ⟨none, "b", [], [], some ⟨1, 4⟩⟩ []],
    some ⟨1, 1⟩⟩
  rootType := ⟨"Query", [],
    [("a", ⟨"a", .int, [], some resolver⟩), ("b", ⟨"b", .nonNull .int, [], none⟩)]⟩
  bindings := []

/-- The small schema has a resolver for one field. -/
theorem Schema.resolver_small {resolver r : Resolver} {name field : String} {type : ObjectType}
    {d : FieldDefinition} (ht : (small (some resolver)).type? name = some (.object type))
    (hd : Entries.get? field type.fields = some d) (hr : d.resolver = some r) :
    field = "a" ∧ r = resolver := by
  have htype : (name, TypeDefinition.object type) ∈ (small (some resolver)).types :=
    Entries.mem_of_get? ht
  have hobject : name = "Query" ∧ type = (Plan.small resolver).rootType := by
    simpa [small, builtin, Plan.small] using htype
  have hfield : (field, d) ∈ (Plan.small resolver).rootType.fields :=
    Entries.mem_of_get? (hobject.2 ▸ hd)
  simp only [Plan.small, List.mem_cons, Prod.mk.injEq, List.not_mem_nil, or_false] at hfield
  rcases hfield with ⟨rfl, rfl⟩ | ⟨-, rfl⟩
  · cases hr
    exact ⟨rfl, rfl⟩
  · cases hr

theorem Executor.resolvers_small {P : Resolver → Prop} {resolver : Resolver} (h : P resolver) :
    (Executor.small resolver).schema.Resolvers P := by
  intro name type ht field d r hd hr
  obtain ⟨-, rfl⟩ := Schema.resolver_small ht hd hr
  exact h

/-- A query for both fields of the small schema. -/
def Submission.small (resolver : Resolver) : Submission where
  query := (Executor.small resolver).prepare .small
  variableValues := []
  context := ⟨0, none⟩
  operationName := none

/-- The operation of `{a c:a}`. -/
def Operation.twice : Operation Literal :=
  ⟨none, .query, [], [], [.field ⟨none, "a", [], [], some ⟨1, 2⟩⟩ [],
    .field ⟨some "c", "a", [], [], some ⟨1, 4⟩⟩ []], some ⟨1, 1⟩⟩

def Document.twice : Document := ⟨[("", .twice)], []⟩

/-- Whether what was read of a text is that operation. -/
def Document.readsTwice : Except Syntax.SyntaxError (List Syntax.Item) → Bool
  | .ok [.executable (.operation ⟨none, .query, [], [],
      [.field ⟨none, "a", [], [], some ⟨1, 2⟩⟩ [],
        .field ⟨some "c", "a", [], [], some ⟨1, 4⟩⟩ []], some ⟨1, 1⟩⟩)] => true
  | _ => false

theorem Document.parse_twice : parse "{a c:a}" = .ok twice := by
  have hread : readsTwice (Syntax.Item.parse "{a c:a}") = true := by decide +kernel
  unfold readsTwice at hread
  split at hread
  · next hitems =>
    rw [parse, hitems]
    rfl
  · cases hread

/-- A query that asks twice for the field with a resolver, in a context with a deadline. -/
def Submission.late (resolver : Resolver) : Submission where
  query := (Executor.small resolver).prepare .twice
  variableValues := []
  context := ⟨0, some 8⟩
  operationName := none

def Plan.late (resolver : Resolver) : Plan := { Plan.small resolver with operation := .twice }

/-- The error of the field for which it was too late. -/
def Error.late : Error :=
  ⟨"Timed out before resolving field \"a\".", [⟨1, 4⟩], some [.key "c"],
    [("code", .string "TIMEOUT")]⟩

/-- The deadline may pass between two calls: the resolver is called once, and then it is too
late. -/
theorem Submission.events_late :
    (run .ticking () [late (.constant (.int 7))] ⟨[[]], 0⟩).events 0 =
      [.reached [.key "a"] (some .int), .invoked ⟨.object [("b", .int 1)], [], [.key "a"], "a",
        "Query"⟩, .produced [.key "a"] (.int 7), .reached [.key "c"] (some .int),
        .failed .late] := by cbv

theorem Submission.output_late :
    (run .ticking () [late (.constant (.int 7))] ⟨[[]], 0⟩).output 0 =
      ⟨.object [("a", .int 7), ("c", .null)], [.late]⟩ := by cbv

end GraphQL
