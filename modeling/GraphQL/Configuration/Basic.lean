import GraphQL.Document.Definition
import GraphQL.Execution.Strategy
import GraphQL.Json.Record
import GraphQL.Yaml.Tree

/-!
The configuration of an executor, and its form in JSON and YAML.
-/

set_option autoImplicit false

namespace GraphQL

open Json

inductive StrategyKind where
  | serial
  | concurrent
  deriving DecidableEq, Repr

namespace StrategyKind

def render : StrategyKind → String
  | serial => "serial"
  | concurrent => "concurrent"

def ofName? (name : String) : Option StrategyKind :=
  if name = "serial" then some serial
  else if name = "concurrent" then some concurrent
  else none

/-- A name, or an object with the name as its only key and null under it. -/
def ofTree? : Tree → Option StrategyKind
  | .string s => s.bind ofName?
  | .object [(key, .null)] => key.bind ofName?
  | _ => none

def strategy (maxConcurrency : Nat) : StrategyKind → Execution.Strategy
  | serial => .serial
  | concurrent => .concurrent maxConcurrency

end StrategyKind

/-- The strategies for root fields. -/
structure Strategies where
  query : StrategyKind := .concurrent
  mutation : StrategyKind := .serial
  subscription : StrategyKind := .concurrent
  deriving DecidableEq, Repr

namespace Strategies

def get (s : Strategies) : OperationKind → StrategyKind
  | .query => s.query
  | .mutation => s.mutation
  | .subscription => s.subscription

def toJson (s : Strategies) : Value :=
  .object [("query", .string s.query.render), ("mutation", .string s.mutation.render),
    ("subscription", .string s.subscription.render)]

def ofTree? (tree : Tree) : Option Strategies := do
  let fields ← tree.record? ["query", "mutation", "subscription"] true
  let query ← Tree.field? fields "query" (some .concurrent) StrategyKind.ofTree?
  let mutation ← Tree.field? fields "mutation" (some .serial) StrategyKind.ofTree?
  let subscription ← Tree.field? fields "subscription" (some .concurrent) StrategyKind.ofTree?
  return ⟨query, mutation, subscription⟩

end Strategies

structure Configuration where
  /-- Whether the first field error is a failure of the whole execution. -/
  debug : Bool := false
  /-- How many siblings a concurrent strategy runs at a time. -/
  maxConcurrency : Nat := 32
  /-- How many resolvers run at a time in one execution. -/
  maxInFlightResolvers : Nat := 256
  /-- How deep selection sets may be nested below the root. -/
  recursionLimit : Nat := 512
  strategies : Strategies := {}
  /-- Whether a document without operations is an error. -/
  requireOperation : Bool := false
  deriving DecidableEq, Repr

inductive ConfigurationError where
  /-- The text is no configuration. -/
  | unreadable
  | invalid (message error : String)
  deriving DecidableEq, Repr

namespace ConfigurationError

def message : ConfigurationError → String
  | unreadable => "could not read the configuration"
  | invalid message error => message ++ ": " ++ error

end ConfigurationError

namespace Configuration

/-- At least one sibling and one resolver must be allowed to run. -/
def validate (c : Configuration) : Except ConfigurationError Configuration :=
  if c.maxConcurrency = 0 then .error (.invalid "invalid max_concurrency" "must be at least 1")
  else if c.maxInFlightResolvers = 0 then
    .error (.invalid "invalid max_in_flight_resolvers" "must be at least 1")
  else .ok c

def toJson (c : Configuration) : Value :=
  .object [("debug", .bool c.debug), ("max_concurrency", .int c.maxConcurrency),
    ("max_in_flight_resolvers", .int c.maxInFlightResolvers),
    ("recursion_limit", .int c.recursionLimit), ("strategies", c.strategies.toJson),
    ("require_operation", .bool c.requireOperation)]

def keys : List String :=
  ["debug", "max_concurrency", "max_in_flight_resolvers", "recursion_limit", "strategies",
    "require_operation"]

def ofTree? (tree : Tree) : Option Configuration := do
  let default : Configuration := {}
  let size := Tree.natBelow? (Nat.pow 2 64)
  let fields ← tree.record? keys true
  let debug ← Tree.field? fields "debug" (some default.debug) Tree.bool?
  let maxConcurrency ← Tree.field? fields "max_concurrency" (some default.maxConcurrency) size
  let maxInFlightResolvers ←
    Tree.field? fields "max_in_flight_resolvers" (some default.maxInFlightResolvers) size
  let recursionLimit ← Tree.field? fields "recursion_limit" (some default.recursionLimit) size
  let strategies ← Tree.field? fields "strategies" (some default.strategies) Strategies.ofTree?
  let requireOperation ←
    Tree.field? fields "require_operation" (some default.requireOperation) Tree.bool?
  return ⟨debug, maxConcurrency, maxInFlightResolvers, recursionLimit, strategies,
    requireOperation⟩

/-- Reads JSON text, without validation. -/
def parse? (text : String) : Option Configuration := (Tree.parse text).bind ofTree?

def ofYaml (text : String) : Except ConfigurationError Configuration :=
  match (Yaml.parse text).bind ofTree? with
  | some c => c.validate
  | none => .error .unreadable

end Configuration

end GraphQL
