/-!
References to types, as fields, arguments and variables declare them.
-/

set_option autoImplicit false

namespace GraphQL

/-- The five built-in scalars have constructors of their own. -/
inductive TypeRef where
  | string
  | int
  | float
  | id
  | boolean
  | named (name : String)
  | list (item : TypeRef)
  | nonNull (inner : TypeRef)
  deriving DecidableEq, Repr, Inhabited

namespace TypeRef

/-- The names of the built-in scalars, in the order in which a schema lists them. -/
def builtinNames : List String := ["Int", "Float", "String", "Boolean", "ID"]

def ofName (name : String) : TypeRef :=
  if name = "String" then string
  else if name = "Int" then int
  else if name = "Float" then float
  else if name = "ID" then id
  else if name = "Boolean" then boolean
  else named name

/-- SDL notation. -/
def render : TypeRef → String
  | string => "String"
  | int => "Int"
  | float => "Float"
  | id => "ID"
  | boolean => "Boolean"
  | named name => name
  | list item => "[" ++ item.render ++ "]"
  | nonNull inner => inner.render ++ "!"

def isNonNull : TypeRef → Bool
  | nonNull _ => true
  | _ => false

def isBuiltin : TypeRef → Bool
  | string | int | float | id | boolean => true
  | _ => false

/-- The name of the type that is not built in and stands inside all lists and non-null marks. -/
def innerName? : TypeRef → Option String
  | named name => some name
  | list item => item.innerName?
  | nonNull inner => inner.innerName?
  | _ => none

end TypeRef

end GraphQL
