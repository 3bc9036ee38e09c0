import GraphQL.Json.Record

/-!
Requests: the text of a document or the name of a stored one, with variables.
-/

set_option autoImplicit false

namespace GraphQL

open Json

structure Request where
  query : Option String
  operationName : Option String
  variableValues : Entries Value
  extensions : Entries Value
  deriving Repr

namespace Request

def empty : Request := ⟨none, none, [], []⟩

def ofQuery (query : String) : Request := { empty with query := some query }

def withOperationName (name : String) (r : Request) : Request :=
  { r with operationName := some name }

def withVariables (variableValues : Entries Value) (r : Request) : Request :=
  { r with variableValues := variableValues }

/-- Whether the request has no part at all. -/
def isEmpty (r : Request) : Bool :=
  r.query.isNone && r.operationName.isNone && r.variableValues.isEmpty && r.extensions.isEmpty

/-- Absent and empty parts are left out. -/
def toJson (r : Request) : Value :=
  .object <|
    (match r.query with
      | some query => [("query", .string query)]
      | none => []) ++
    (match r.operationName with
      | some name => [("operationName", .string name)]
      | none => []) ++
    (if r.variableValues.isEmpty then [] else [("variables", .object r.variableValues)]) ++
    (if r.extensions.isEmpty then [] else [("extensions", .object r.extensions)])

/-- Null variables count as none. -/
def ofTree? (limit : Nat) (tree : Tree) : Option Request := do
  let fields ← tree.record? ["query", "operationName", "variables", "extensions"] false
  let query ← Tree.field? fields "query" (some none) (Tree.optional? Tree.string?)
  let name ← Tree.field? fields "operationName" (some none) (Tree.optional? Tree.string?)
  let variableValues ←
    Tree.field? fields "variables" (some none) (Tree.optional? (Tree.object? (limit - 1)))
  let extensions ← Tree.field? fields "extensions" (some []) (Tree.object? (limit - 1))
  return ⟨query, name, variableValues.getD [], extensions⟩

def parse? (text : String) : Option Request := (Tree.parse text).bind (ofTree? nestingLimit)

end Request

end GraphQL
