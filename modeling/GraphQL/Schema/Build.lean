import GraphQL.Schema.Basic
import GraphQL.Syntax.Document

/-!
Building a schema from a text.

All definitions come first and all extensions after them, each in the order of the text, so an
extension may stand before what it extends. A repeated entry keeps its first position and takes
the last value.
-/

set_option autoImplicit false

namespace GraphQL

/-- A set of names in order of first appearance. -/
def addNames (names new : List String) : List String :=
  new.foldl (fun names n => if n ∈ names then names else names ++ [n]) names

/-- The input values of a declaration under their names. -/
def InputValue.table (values : List (InputValue Syntax.Value)) :
    Except SpecError (Entries (InputValue Literal)) := do
  let values ← values.mapM fun v => v.traverse (Literal.ofArgument v.name)
  return Entries.ofList (values.map fun v => (v.name, v))

/-- The fields of a declaration under their names, without resolvers. -/
def FieldDefinition.table (fields : List (FieldDeclaration Syntax.Value)) :
    Except SpecError (Entries FieldDefinition) := do
  let fields ← fields.mapM fun (f : FieldDeclaration Syntax.Value) => do
    return (⟨f.name, f.type, ← InputValue.table f.arguments, none⟩ : FieldDefinition)
  return Entries.ofList (fields.map fun f => (f.name, f))

namespace Schema

/-- The schema that holds the built-in scalars. -/
def builtin : Schema :=
  ⟨TypeRef.builtinNames.map fun name => (name, .scalar name), ⟨none, none, none⟩, []⟩

/-- Names the types of root operations; one without a type says nothing. -/
def addRoots (schema : Schema) (roots : List (OperationKind × Option String)) : Schema :=
  let set (all : RootNames) : OperationKind × Option String → RootNames
    | (kind, some name) => all.set kind name
    | (_, none) => all
  { schema with roots := roots.foldl set schema.roots }

def addType (schema : Schema) (type : TypeDefinition) : Schema :=
  { schema with types := Entries.insert type.name type schema.types }

/-- Adds a definition, in place of an earlier one of its name. -/
def define (schema : Schema) : Declaration Syntax.Value → Except SpecError Schema
  | .schema roots => .ok (schema.addRoots roots)
  | .scalar name => .ok (schema.addType (.scalar name))
  | .object name implements fields => do
    return schema.addType (.object ⟨name, addNames [] implements, ← FieldDefinition.table fields⟩)
  | .interface name implements fields => do
    return schema.addType
      (.interface ⟨name, addNames [] implements, ← FieldDefinition.table fields⟩)
  | .union name members => .ok (schema.addType (.union ⟨name, addNames [] members⟩))
  | .enum name values => .ok (schema.addType (.enum ⟨name, addNames [] values⟩))
  | .input name fields => do
    return schema.addType (.input ⟨name, ← InputValue.table fields⟩)
  | .directive _ => .ok schema

/-- Adds to a definition of the same kind. Extending a scalar adds nothing. -/
def extend (schema : Schema) : Declaration Syntax.Value → Except SpecError Schema
  | .schema roots => .ok (schema.addRoots roots)
  | .object name implements fields =>
    match schema.type? name with
    | some (.object type) => do
      let fields ← FieldDefinition.table fields
      return schema.addType (.object ⟨type.name, addNames type.implements implements,
        Entries.insertAll type.fields fields⟩)
    | _ => .error (.unknownType name)
  | .interface name implements fields =>
    match schema.type? name with
    | some (.interface type) => do
      let fields ← FieldDefinition.table fields
      return schema.addType (.interface ⟨type.name, addNames type.implements implements,
        Entries.insertAll type.fields fields⟩)
    | _ => .error (.unknownType name)
  | .union name members =>
    match schema.type? name with
    | some (.union type) =>
      .ok (schema.addType (.union ⟨type.name, addNames type.members members⟩))
    | _ => .error (.unknownType name)
  | .enum name values =>
    match schema.type? name with
    | some (.enum type) => .ok (schema.addType (.enum ⟨type.name, addNames type.values values⟩))
    | _ => .error (.unknownType name)
  | .input name fields =>
    match schema.type? name with
    | some (.input type) => do
      let fields ← InputValue.table fields
      return schema.addType (.input ⟨type.name, Entries.insertAll type.fields fields⟩)
    | _ => .error (.unknownType name)
  | .scalar _ => .ok schema
  | .directive _ => .ok schema

/-- A kind without a root operation gets the object type of its default name. -/
def addDefaultRoot (schema : Schema) (kind : OperationKind) : Schema :=
  if (schema.roots.get? kind).isNone && (schema.objectType? kind.defaultTypeName).isSome then
    schema.addRoots [(kind, some kind.defaultTypeName)]
  else schema

def ofItems (items : List (SchemaItem Syntax.Value)) : Except SpecError Schema := do
  let defined ← (items.filter (!·.extends?)).foldlM (fun s i => s.define i.declaration) builtin
  let extended ← (items.filter (·.extends?)).foldlM (fun s i => s.extend i.declaration) defined
  return [OperationKind.query, .mutation, .subscription].foldl addDefaultRoot extended

/-- The schema of a text, in which executable definitions are skipped. -/
def parse (text : String) : Except SpecError Schema :=
  match Syntax.Item.parse text with
  | .ok items => ofItems (items.filterMap (·.schema?))
  | .error e => .error (.syntaxError e)

/-- Gives a field of an object type its resolver. -/
def registerResolver (schema : Schema) (typeName fieldName : String) (resolver : Resolver) :
    Except SpecError Schema :=
  match schema.type? typeName with
  | some (.object type) =>
    if Entries.contains fieldName type.fields then
      let fields := Entries.modify fieldName
        (fun f => { f with resolver := some resolver }) type.fields
      .ok { schema with
        types := Entries.modify typeName (fun _ => .object { type with fields }) schema.types }
    else .error (.invalidField fieldName typeName)
  | some _ => .error (.invalidType typeName)
  | none => .error (.unknownType typeName)

/-- Gives an abstract type its type resolver. -/
def registerTypeResolver (schema : Schema) (typeName : String) (resolver : TypeResolver) :
    Except SpecError Schema :=
  match schema.type? typeName with
  | some type =>
    if type.isAbstract then
      .ok { schema with typeResolvers := Entries.insert typeName resolver schema.typeResolvers }
    else .error (.invalidType typeName)
  | none => .error (.unknownType typeName)

end Schema

end GraphQL
