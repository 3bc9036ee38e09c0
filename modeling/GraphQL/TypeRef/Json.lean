import GraphQL.Json.Record
import GraphQL.TypeRef

/-!
References to types in JSON: a built-in scalar is the name of its case, any other reference an
object whose only key is the name of its case.
-/

set_option autoImplicit false

namespace GraphQL.TypeRef

open Json

def toJson : TypeRef → Value
  | string => .string "String"
  | int => .string "Int"
  | float => .string "Float"
  | id => .string "Id"
  | boolean => .string "Boolean"
  | named name => .object [("Named", .string name)]
  | list item => .object [("List", item.toJson)]
  | nonNull inner => .object [("NonNull", inner.toJson)]

/-- The built-in scalar of a case. -/
def ofCase? (name : String) : Option TypeRef :=
  if name = "String" then some string
  else if name = "Int" then some int
  else if name = "Float" then some float
  else if name = "Id" then some id
  else if name = "Boolean" then some boolean
  else none

/-- A built-in scalar may also be written as an object, with null under the name of its case. -/
def ofTree? : (limit : Nat) → Tree → Option TypeRef
  | _, .string s => s.bind ofCase?
  | limit + 1, .object [(some key, tree)] =>
    if key = "Named" then tree.string?.map named
    else if key = "List" then (ofTree? limit tree).map list
    else if key = "NonNull" then (ofTree? limit tree).map nonNull
    else
      match tree with
      | .null => ofCase? key
      | _ => none
  | _, _ => none

def parse? (text : String) : Option TypeRef := (Tree.parse text).bind (ofTree? nestingLimit)

end GraphQL.TypeRef
