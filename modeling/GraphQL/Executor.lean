import GraphQL.Configuration.Basic
import GraphQL.ContextStore
import GraphQL.Execution.Complete
import GraphQL.Execution.Errors
import GraphQL.Execution.Rota
import GraphQL.ExecutionError
import GraphQL.QueryCache
import GraphQL.Request
import GraphQL.Validator

/-!
Executors: a schema with all that is needed to execute requests against it.

A document is prepared once and may then be executed many times, also several times at once. An
execution first settles its plan (`PreparedQuery.plan`), without looking at any resolver; only a
plan is run.
-/

set_option autoImplicit false

namespace GraphQL

open Json

structure Executor where
  schema : Schema
  configuration : Configuration
  directives : DirectiveChain
  /-- The parent of root fields. -/
  rootValue : Value
  rootStrategy : OperationKind → Execution.Strategy
  nested : Execution.Strategy
  validator : Option Validator
  queryCache : Option QueryCache

/-- What an executor is built from. Only the schema must be given; strategies that are not given
follow the configuration. -/
structure ExecutorParts where
  schema : Option Schema := none
  configuration : Configuration := {}
  directives : DirectiveChain := .standard
  rootValue : Value := .object []
  rootStrategy : OperationKind → Option Execution.Strategy := fun _ => none
  nested : Option Execution.Strategy := none
  validator : Option Validator := none
  queryCache : Option QueryCache := none

namespace ExecutorParts

def missingSchema : ConfigurationError :=
  .invalid "missing schema" "an executor needs a schema to execute against"

def build (parts : ExecutorParts) : Except ConfigurationError Executor :=
  match parts.schema with
  | none => .error missingSchema
  | some schema =>
    let configuration := parts.configuration
    let strategy := StrategyKind.strategy configuration.maxConcurrency
    .ok
      { schema
        configuration
        directives := parts.directives
        rootValue := parts.rootValue
        rootStrategy := fun kind =>
          (parts.rootStrategy kind).getD (strategy (configuration.strategies.get kind))
        nested := parts.nested.getD (strategy .concurrent)
        validator := parts.validator
        queryCache := parts.queryCache }

end ExecutorParts

/-- Variables and a context that stand in for those of a call when they are empty. -/
structure PreparedDefaults where
  variableValues : Entries Value
  context : ContextRef
  deriving Repr

structure PreparedQuery where
  executor : Executor
  document : Document
  validationErrors : List Error
  defaults : Option PreparedDefaults

/-- What an execution runs. -/
structure Plan where
  operation : Operation Literal
  rootType : ObjectType
  /-- The coerced values of the variables. -/
  bindings : Entries Value

/-- What executions come to. -/
structure Outcome (α : Type) where
  result : α
  /-- The calls of resolvers in the order in which they were made. -/
  invocations : List Invocation
  contexts : ContextStore

/-- A prepared query with what is given for one execution of it. -/
structure Submission where
  query : PreparedQuery
  variableValues : Entries Value
  context : ContextRef
  operationName : Option String

namespace Executor

def validate (executor : Executor) (document : Document) : List Error :=
  (executor.validator.getD .lenient) document executor.schema

/-- Binds a document to the executor and validates it. -/
def prepare (executor : Executor) (document : Document) : PreparedQuery :=
  ⟨executor, document, executor.validate document, none⟩

def prepareWithDefaults (executor : Executor) (document : Document)
    (defaults : PreparedDefaults) : PreparedQuery :=
  { executor.prepare document with defaults := some defaults }

/-- The setting of an execution of a document under bindings of variables. -/
def setting (executor : Executor) (document : Document) (bindings : Entries Value) :
    Execution.Setting where
  schema := executor.schema
  document
  bindings
  directives := executor.directives
  recursionLimit := executor.configuration.recursionLimit
  nested := executor.nested

/-- The task of a plan for a document. -/
def task (executor : Executor) (document : Document) (plan : Plan) : Execution.Task :=
  (executor.setting document plan.bindings).root (executor.rootStrategy plan.operation.kind)
    plan.rootType executor.rootValue plan.operation.selections

/-- The execution of a task, as it begins. -/
def start (executor : Executor) (context : ContextRef) (task : Execution.Task) : Execution.Run :=
  .start task executor.configuration.debug context executor.configuration.maxInFlightResolvers

/-- The result of an execution that comes to an output. In debug mode the first of its errors is a
failure. -/
def conclude (executor : Executor) (output : Execution.Output) :
    Except ExecutionError Response :=
  match executor.configuration.debug, output.errors with
  | true, e :: _ => .error (.field e)
  | _, errors => .ok ⟨some output.data, errors, []⟩

end Executor

namespace PreparedQuery

/-- The variables and the context of a call. A context with a deadline is not empty. -/
def inputs (q : PreparedQuery) (variableValues : Entries Value) (context : ContextRef)
    (contexts : ContextStore) : Entries Value × ContextRef :=
  match q.defaults with
  | none => (variableValues, context)
  | some defaults =>
    (if variableValues.isEmpty then defaults.variableValues else variableValues,
      if (contexts.entries context).isEmpty && context.deadline.isNone then defaults.context
      else context)

/-- Settles what to run; there is nothing to run if the document has no operation and none is
required. -/
def plan (q : PreparedQuery) (variableValues : Entries Value) (operationName : Option String) :
    Except ExecutionError (Option Plan) :=
  if !q.validationErrors.isEmpty then .error (.validation q.validationErrors)
  else
    match q.document.select operationName with
    | .error e => .error (.preparation (.operationNotSelected e))
    | .ok none =>
      if q.executor.configuration.requireOperation then .error (.preparation .noOperation)
      else .ok none
    | .ok (some operation) =>
      match q.executor.schema.rootType? operation.kind with
      | none => .error (.preparation (.unsupportedOperation operation.kind.render))
      | some rootType =>
        match coerceVariables q.executor.schema operation.variableDefinitions variableValues with
        | .error errors => .error (.invalidVariables errors)
        | .ok bindings => .ok (some ⟨operation, rootType, bindings⟩)

/-- The definitions of the variables that are coerced when it is settled what to run. -/
def coercedDefinitions (q : PreparedQuery) (operationName : Option String) :
    List (VariableDefinition Literal) :=
  match q.document.select operationName with
  | .ok (some operation) =>
    if q.validationErrors.isEmpty && (q.executor.schema.rootType? operation.kind).isSome then
      operation.variableDefinitions
    else []
  | _ => []

end PreparedQuery

namespace Execution

/-- No more permits than this, `2 ^ 61 - 1`, go into a semaphore; whoever asks for more panics. -/
def permitLimit : Nat := 2305843009213693951

/-- Whether the process is lost in which the executions took place. -/
def State.isLost (st : State) : Bool := st.trace.any fun (_, e) => e.isEndless

end Execution

/-- What the execution of a number has come to. -/
def Execution.State.output (number : Nat) (st : Execution.State) : Execution.Output :=
  .of ((st.runs[number]?.bind (·.task.completion?)).getD .propagate) (st.errors number)

namespace Submission

/-- The plan, and the context that it is run in. -/
def plan (s : Submission) (contexts : ContextStore) :
    Except ExecutionError (Option Plan) × ContextRef :=
  let (variableValues, context) := s.query.inputs s.variableValues s.context contexts
  (s.query.plan variableValues s.operationName, context)

/-- The execution as it begins; without a plan it has nothing to do. -/
def start (s : Submission) (contexts : ContextStore) : Execution.Run :=
  let task := match (s.plan contexts).1 with
    | .ok (some plan) => s.query.executor.task s.query.document plan
    | _ => .done .propagate
  s.query.executor.start (s.plan contexts).2 task

/-- The result of a submission, whose execution has a number, when nothing more can happen. -/
def conclude (s : Submission) (contexts : ContextStore) (number : Nat) (last : Execution.State) :
    Except ExecutionError Response :=
  match (s.plan contexts).1 with
  | .error e => .error e
  | .ok none => .ok .empty
  | .ok (some _) => s.query.executor.conclude (last.output number)

variable {Memory : Type}

/-- Whether a submission gets as far as to begin, if there is a plan: all of its variables come back
from their coercion, and there may be as many permits as are asked for. -/
def begins (s : Submission) (contexts : ContextStore) : Bool :=
  let (variableValues, _) := s.query.inputs s.variableValues s.context contexts
  let schema := s.query.executor.schema
  !(s.query.coercedDefinitions s.operationName).any (·.isEndless schema variableValues) &&
    match (s.plan contexts).1 with
    | .ok (some _) => s.query.executor.configuration.maxInFlightResolvers ≤ Execution.permitLimit
    | _ => true

/-- Runs submissions together under a schedule, until nothing more can happen. All plans are settled
before anything is run. -/
def run (schedule : Execution.Schedule Memory) (memory : Memory) (submissions : List Submission)
    (contexts : ContextStore) : Execution.State :=
  (Execution.State.start (submissions.map (·.start contexts)) contexts).run schedule memory

/-- Executes submissions together under a schedule. -/
def executeAllWith (schedule : Execution.Schedule Memory) (memory : Memory)
    (submissions : List Submission) (contexts : ContextStore) :
    Outcome (List (Except ExecutionError Response)) :=
  let last := run schedule memory submissions contexts
  ⟨submissions.mapIdx fun number s => s.conclude contexts number last, last.invocations,
    last.contexts⟩

/-- Executes submissions together, as long as no time passes. -/
def executeAll : List Submission → ContextStore → Outcome (List (Except ExecutionError Response)) :=
  executeAllWith .rota .start

/-- Executes a submission under a schedule. -/
def executeWith (schedule : Execution.Schedule Memory) (memory : Memory) (s : Submission)
    (contexts : ContextStore) : Outcome (Except ExecutionError Response) :=
  let last := run schedule memory [s] contexts
  ⟨s.conclude contexts 0 last, last.invocations, last.contexts⟩

/-- Whether submissions come back that are executed together. They do not if the process is lost, or
if one of them does not even begin. -/
def comeBack (schedule : Execution.Schedule Memory) (memory : Memory)
    (submissions : List Submission) (contexts : ContextStore) : Bool :=
  submissions.all (·.begins contexts) && !(run schedule memory submissions contexts).isLost

end Submission

/-- Executes the operation of a name, as long as no time passes. -/
def PreparedQuery.execute (q : PreparedQuery) (variableValues : Entries Value)
    (context : ContextRef) (operationName : Option String) (contexts : ContextStore) :
    Outcome (Except ExecutionError Response) :=
  Submission.executeWith .rota .start ⟨q, variableValues, context, operationName⟩ contexts

namespace Executor

/-- The document of a request: that of its text, or else the one stored under the name of its
operation. -/
def document (executor : Executor) (request : Request) : Except ExecutionError Document :=
  match request.query, request.operationName with
  | some text, _ =>
    match Document.parse text with
    | .ok document => .ok document
    | .error e => .error (.spec e)
  | none, some name =>
    match executor.queryCache.bind fun fetch => fetch name with
    | some document => .ok document
    | none => .error (.preparation (.unknownPersistedOperation name))
  | none, none => .error (.preparation .missingQuery)

/-- The execution of a document for a request. -/
def submission (executor : Executor) (request : Request) (context : ContextRef)
    (document : Document) : Submission :=
  ⟨executor.prepare document, request.variableValues, context, request.operationName⟩

variable {Memory : Type}

/-- Executes a request under a schedule. -/
def executeRequestWith (schedule : Execution.Schedule Memory) (memory : Memory)
    (executor : Executor) (request : Request) (context : ContextRef) (contexts : ContextStore) :
    Outcome (Except ExecutionError Response) :=
  match executor.document request with
  | .error e => ⟨.error e, [], contexts⟩
  | .ok document =>
    (executor.submission request context document).executeWith schedule memory contexts

/-- Executes a request, as long as no time passes. -/
def executeRequest (executor : Executor) (request : Request) (context : ContextRef)
    (contexts : ContextStore) : Outcome (Except ExecutionError Response) :=
  executor.executeRequestWith .rota .start request context contexts

/-- Whether a request comes back. -/
def comesBack (schedule : Execution.Schedule Memory) (memory : Memory) (executor : Executor)
    (request : Request) (context : ContextRef) (contexts : ContextStore) : Bool :=
  match executor.document request with
  | .error _ => true
  | .ok document =>
    Submission.comeBack schedule memory [executor.submission request context document] contexts

end Executor

end GraphQL
