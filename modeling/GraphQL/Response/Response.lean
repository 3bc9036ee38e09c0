import GraphQL.Response.Error

/-!
Responses: the data, the errors and the extensions that answer a request.
-/

set_option autoImplicit false

namespace GraphQL

open Json

/-- Data is absent when execution never started, and null when a null reached the root. -/
structure Response where
  data : Option Value
  errors : List Error
  extensions : Entries Value
  deriving Repr

namespace Response

def empty : Response := ⟨none, [], []⟩

def ofErrors (errors : List Error) : Response := ⟨none, errors, []⟩

def isOk (r : Response) : Bool := r.errors.isEmpty

/-- Absent and empty parts are left out. -/
def toJson (r : Response) : Value :=
  .object <|
    (match r.data with
      | some data => [("data", data)]
      | none => []) ++
    (if r.errors.isEmpty then [] else [("errors", .array (r.errors.map Error.toJson))]) ++
    (if r.extensions.isEmpty then [] else [("extensions", .object r.extensions)])

def render (r : Response) : String := r.toJson.render

/-- A null for the data is read as absent data. -/
def ofTree? (limit : Nat) (tree : Tree) : Option Response := do
  let fields ← tree.record? ["data", "errors", "extensions"] false
  let data ← Tree.field? fields "data" (some none) (Tree.optional? (Tree.toValue (limit - 1)))
  let errors ← Tree.field? fields "errors" (some []) (Tree.list? (Error.ofTree? (limit - 2)))
  let extensions ← Tree.field? fields "extensions" (some []) (Tree.object? (limit - 1))
  return ⟨data, errors, extensions⟩

def parse? (text : String) : Option Response :=
  (Tree.parse text).bind (ofTree? nestingLimit)

end Response

end GraphQL
