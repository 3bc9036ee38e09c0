import GraphQL.Document.Definition

/-!
Declarations of a type system as they stand in a schema text, over the type `V` of the default
values in them.
-/

set_option autoImplicit false

namespace GraphQL

/-- An argument of a field, or a field of an input object. -/
structure InputValue (V : Type) where
  name : String
  type : TypeRef
  default : Option V
  deriving DecidableEq, Repr

structure FieldDeclaration (V : Type) where
  name : String
  type : TypeRef
  arguments : List (InputValue V)
  deriving DecidableEq, Repr

inductive Declaration (V : Type) where
  /-- A root operation may lack its type. -/
  | schema (roots : List (OperationKind × Option String))
  | scalar (name : String)
  | object (name : String) (implements : List String) (fields : List (FieldDeclaration V))
  | interface (name : String) (implements : List String) (fields : List (FieldDeclaration V))
  | union (name : String) (members : List String)
  | enum (name : String) (values : List String)
  | input (name : String) (fields : List (InputValue V))
  | directive (name : String)
  deriving DecidableEq, Repr

/-- A declaration, or an extension of an earlier or later one. -/
structure SchemaItem (V : Type) where
  extends? : Bool
  declaration : Declaration V
  deriving DecidableEq, Repr

section Traverse

variable {V W E : Type} (f : V → Except E W)

def InputValue.traverse (v : InputValue V) : Except E (InputValue W) := do
  return ⟨v.name, v.type, ← v.default.mapM f⟩

def FieldDeclaration.traverse (d : FieldDeclaration V) : Except E (FieldDeclaration W) := do
  return ⟨d.name, d.type, ← d.arguments.mapM (·.traverse f)⟩

end Traverse

end GraphQL
