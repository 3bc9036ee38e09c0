import GraphQL.Proofs.Schema.Bare

/-!
Schemas with other resolvers.

Which root types there are and how variables are coerced does not depend on the resolvers.
-/

set_option autoImplicit false

namespace GraphQL

open Json

variable (resolvers : String → String → Option Resolver)

/-- The field of a type with the resolver that is registered for it. -/
def FieldDefinition.register (type : String) (d : FieldDefinition) : FieldDefinition :=
  { d with resolver := resolvers type d.name }

def ObjectType.register (type : ObjectType) : ObjectType :=
  { type with
    fields := type.fields.map (Prod.map id (FieldDefinition.register resolvers type.name)) }

def InterfaceType.register (type : InterfaceType) : InterfaceType :=
  { type with
    fields := type.fields.map (Prod.map id (FieldDefinition.register resolvers type.name)) }

def TypeDefinition.register : TypeDefinition → TypeDefinition
  | object type => object (type.register resolvers)
  | interface type => interface (type.register resolvers)
  | d => d

namespace Schema

/-- The schema with these resolvers and no others. -/
def register (typeResolvers : Entries TypeResolver) (schema : Schema) : Schema :=
  { schema with
    types := schema.types.map (Prod.map id (TypeDefinition.register resolvers))
    typeResolvers }

theorem keepsInputs_register : TypeDefinition.KeepsInputs (TypeDefinition.register resolvers) where
  scalar _ := rfl
  object type := ⟨type.register resolvers, rfl⟩
  interface type := ⟨type.register resolvers, rfl⟩
  union _ := rfl
  enum _ := rfl
  input _ := rfl

variable (typeResolvers : Entries TypeResolver) (schema : Schema)

theorem rootType?_register (kind : OperationKind) :
    (schema.register resolvers typeResolvers).rootType? kind =
      (schema.rootType? kind).map (ObjectType.register resolvers) := by
  have hobject : ∀ name, (schema.register resolvers typeResolvers).objectType? name =
      (schema.objectType? name).map (ObjectType.register resolvers) := by
    intro name
    rw [objectType?, objectType?, type?_mapTypes rfl]
    cases schema.type? name with
    | none => rfl
    | some d => cases d <;> rfl
  rw [rootType?, rootType?, Option.map_bind]
  exact congrArg _ (funext hobject)

theorem coerceInput_register (type : TypeRef) (value : Value) :
    type.coerceInput (schema.register resolvers typeResolvers) value =
      type.coerceInput schema value :=
  coerceInput_mapTypes (keepsInputs_register resolvers) rfl type value

theorem coerceVariables_register (definitions : List (VariableDefinition Literal))
    (provided : Entries Value) :
    coerceVariables (schema.register resolvers typeResolvers) definitions provided =
      coerceVariables schema definitions provided :=
  coerceVariables_mapTypes (keepsInputs_register resolvers) rfl definitions provided

end Schema

end GraphQL
