import GraphQL.Literal
import GraphQL.Resolver
import GraphQL.Schema.Declaration

/-!
Schemas: types under their names, root operations, and the resolvers of fields and abstract types.
-/

set_option autoImplicit false

namespace GraphQL

structure FieldDefinition where
  name : String
  type : TypeRef
  arguments : Entries (InputValue Literal)
  resolver : Option Resolver

structure ObjectType where
  name : String
  implements : List String
  fields : Entries FieldDefinition

structure InterfaceType where
  name : String
  implements : List String
  fields : Entries FieldDefinition

structure UnionType where
  name : String
  members : List String

structure EnumType where
  name : String
  values : List String

structure InputObjectType where
  name : String
  fields : Entries (InputValue Literal)

inductive TypeDefinition where
  | scalar (name : String)
  | object (type : ObjectType)
  | interface (type : InterfaceType)
  | union (type : UnionType)
  | enum (type : EnumType)
  | input (type : InputObjectType)

namespace TypeDefinition

def name : TypeDefinition → String
  | scalar name => name
  | object type => type.name
  | interface type => type.name
  | union type => type.name
  | enum type => type.name
  | input type => type.name

/-- Values of a leaf type are written without a selection set. -/
def isLeaf : TypeDefinition → Bool
  | scalar _ => true
  | enum _ => true
  | _ => false

def isAbstract : TypeDefinition → Bool
  | interface _ => true
  | union _ => true
  | _ => false

end TypeDefinition

/-- The names of the root types, which need not exist. -/
structure RootNames where
  query : Option String
  mutation : Option String
  subscription : Option String
  deriving DecidableEq, Repr

namespace RootNames

def get? (roots : RootNames) : OperationKind → Option String
  | .query => roots.query
  | .mutation => roots.mutation
  | .subscription => roots.subscription

def set (roots : RootNames) (kind : OperationKind) (name : String) : RootNames :=
  match kind with
  | .query => { roots with query := some name }
  | .mutation => { roots with mutation := some name }
  | .subscription => { roots with subscription := some name }

end RootNames

structure Schema where
  types : Entries TypeDefinition
  roots : RootNames
  typeResolvers : Entries TypeResolver

namespace Schema

def type? (schema : Schema) (name : String) : Option TypeDefinition :=
  Entries.get? name schema.types

def objectType? (schema : Schema) (name : String) : Option ObjectType :=
  match schema.type? name with
  | some (.object type) => some type
  | _ => none

/-- The root type of a kind of operation, if it is an object type. -/
def rootType? (schema : Schema) (kind : OperationKind) : Option ObjectType :=
  (schema.roots.get? kind).bind schema.objectType?

/-- Whether values of the abstract type can be objects of the other one. -/
def isPossibleType (schema : Schema) (abstractType objectType : String) : Bool :=
  match schema.type? abstractType with
  | some (.interface _) =>
    match schema.objectType? objectType with
    | some type => type.implements.contains abstractType
    | none => false
  | some (.union type) => type.members.contains objectType
  | _ => false

/-- Whether a fragment with a type condition applies to an object type. -/
def applies (schema : Schema) (objectType condition : String) : Bool :=
  objectType == condition || schema.isPossibleType condition objectType

/-- The object type that a value of an abstract type claims to have: what the resolver of the
type answers, or else the value's `__typename`. -/
def claimedType? (schema : Schema) (abstractType : String) (value : Json.Value) : Option String :=
  match Entries.get? abstractType schema.typeResolvers with
  | some resolve => resolve value
  | none => (value.get? "__typename").bind Json.Value.string?

/-- The object type of a value of an abstract type, if it is a possible one. -/
def concreteType? (schema : Schema) (abstractType : String) (value : Json.Value) :
    Option ObjectType :=
  ((schema.claimedType? abstractType value).filter (schema.isPossibleType abstractType)).bind
    schema.objectType?

end Schema

end GraphQL
