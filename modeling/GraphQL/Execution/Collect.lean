import GraphQL.Coercion.Arguments
import GraphQL.Directives
import GraphQL.Document.Document
import GraphQL.Execution.Strategy
import GraphQL.Response.Error

/-!
Collecting the fields of a selection set: fragments that apply are expanded, and fields are
grouped by response key.

A named fragment is expanded at its first spread only, so expansions are never nested deeper than
there are fragments.
-/

set_option autoImplicit false

namespace GraphQL

open Json

/-- The error of a field: what a resolver or a directive answers, put in its place. -/
def FieldError.locate (e : FieldError) (location : Option Location) (path : Path) : Error :=
  ⟨e.message, location.toList, some path, e.extensions⟩

namespace Execution

/-- What does not change in an execution. -/
structure Setting where
  schema : Schema
  document : Document
  bindings : Entries Value
  directives : DirectiveChain
  /-- How deep selection sets may be nested below the root. -/
  recursionLimit : Nat
  /-- The strategy for nested selection sets and for list items. -/
  nested : Strategy

/-- What has been collected so far. -/
structure Collected where
  /-- Names of the fragments whose spread was met. -/
  visited : List String
  groups : Entries (List (Field Literal))
  errors : List Error

namespace Collected

def empty : Collected := ⟨[], [], []⟩

def addField (f : Field Literal) (c : Collected) : Collected :=
  let key := f.head.responseKey
  { c with groups := Entries.insert key ((Entries.get? key c.groups).getD [] ++ [f]) c.groups }

def record (e : Error) (c : Collected) : Collected := { c with errors := c.errors ++ [e] }

def visit (name : String) (c : Collected) : Collected := { c with visited := name :: c.visited }

end Collected

/-- Where fields are collected: for values of which type, and at which path. -/
structure Site where
  objectType : String
  path : Path
  context : Context

namespace Setting

/-- Collects from a node unless its directives exclude it. A directive that fails excludes it too,
with an error. -/
def whenIncluded (s : Setting) (site : Site) (directives : List (Directive Literal))
    (inside : Collected → Collected) (c : Collected) : Collected :=
  match s.directives.includes s.bindings site.context directives with
  | .ok true => inside c
  | .ok false => c
  | .error e => c.record (e.locate (directives.head?.bind (·.location)) site.path)

/-- Expands the first spread of a fragment. -/
def spread (s : Setting) (site : Site) (expand : List (Selection Literal) → Collected → Collected)
    (spread : Spread Literal) (c : Collected) : Collected :=
  if spread.fragment ∈ c.visited then c
  else
    let c := c.visit spread.fragment
    match s.document.fragment? spread.fragment with
    | none =>
      let message := "Unknown fragment \"" ++ spread.fragment ++ "\"."
      c.record ⟨message, spread.location.toList, some site.path, []⟩
    | some f => if s.schema.applies site.objectType f.condition then expand f.selections c else c

/-- Whether an inline fragment applies. -/
def applies (s : Setting) (site : Site) (condition : Option String) : Bool :=
  condition.all (s.schema.applies site.objectType)

section

variable (s : Setting) (site : Site) (expand : List (Selection Literal) → Collected → Collected)

mutual

def collectNode : Selection Literal → Collected → Collected
  | .field head selections =>
    s.whenIncluded site head.directives fun c => c.addField ⟨head, selections⟩
  | .spread sp => s.whenIncluded site sp.directives fun c => s.spread site expand sp c
  | .inline head selections =>
    s.whenIncluded site head.directives fun c =>
      if s.applies site head.condition then collectNodes selections c else c

def collectNodes : List (Selection Literal) → Collected → Collected
  | [], c => c
  | node :: nodes, c => collectNodes nodes (collectNode node c)

end

end

/-- Collects with at most `expansions` nested expansions of named fragments. -/
def collectWithin (s : Setting) (site : Site) :
    (expansions : Nat) → List (Selection Literal) → Collected → Collected
  | 0 => s.collectNodes site fun _ c => c
  | expansions + 1 => s.collectNodes site (s.collectWithin site expansions)

/-- The fields of a selection set, grouped by response key, and the errors met on the way. -/
def collect (s : Setting) (site : Site) (selections : List (Selection Literal)) : Collected :=
  s.collectWithin site s.document.fragments.length selections .empty

end Setting

end Execution

end GraphQL
