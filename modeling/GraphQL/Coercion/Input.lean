import GraphQL.Coercion.Invalid
import GraphQL.Schema.Basic

/-!
Coercion of input values: variables, arguments, and the fields of input objects.

Wrappers of a type are taken off by recursion on the type. A field of an input object that is not
given takes its default, which is coerced in turn; since only so many defaults can be nested before
one repeats, a bound on the nesting of input objects tells the defaults that need themselves.
-/

set_option autoImplicit false

namespace GraphQL

open Json

namespace Json.Value

mutual

/-- How deep the containers in a value are nested. -/
def depth : Value → Nat
  | array items => depthItems items + 1
  | object members => depthMembers members + 1
  | _ => 0

def depthItems : List Value → Nat
  | [] => 0
  | v :: vs => max v.depth (depthItems vs)

def depthMembers : List (String × Value) → Nat
  | [] => 0
  | (_, v) :: vs => max v.depth (depthMembers vs)

end

end Json.Value

namespace TypeRef

/-- Coercion to a built-in scalar of a value that is not null. -/
def coerceInputScalar (type : TypeRef) (value : Value) : Except InvalidValue Value :=
  match type, value with
  | string, .string s => .ok (.string s)
  | int, value =>
    match value.int32? with
    | some i => .ok (.int i)
    | none => .error (.notA type.render)
  | float, value => if value.isFiniteNumber then .ok value else .error (.notA type.render)
  | id, .string s => .ok (.string s)
  | id, .number (.int i) => .ok (.string (toString i))
  | boolean, .bool b => .ok (.bool b)
  | _, _ => .error (.notA type.render)

/-- Coerces items in order and places the first error at its index. -/
def coerceItems (coerce : Value → Except InvalidValue Value) :
    Nat → List Value → Except InvalidValue (List Value)
  | _, [] => .ok []
  | index, item :: items =>
    match coerce item with
    | .ok v => (coerceItems coerce (index + 1) items).map (v :: ·)
    | .error e => .error (.inItem index e)

/-- Coercion to a type whose named types are coerced to by `named`. A value that is no list stands
for a list of itself alone. -/
def coerceInputWith (named : String → Value → Except InvalidValue Value) :
    TypeRef → Value → Except InvalidValue Value
  | nonNull _, .null => .error .null
  | nonNull inner, value => coerceInputWith named inner value
  | _, .null => .ok .null
  | list inner, .array items =>
    (coerceItems (coerceInputWith named inner) 0 items).map .array
  | list inner, value => (coerceInputWith named inner value).map fun v => .array [v]
  | .named name, value => named name value
  | type, value => type.coerceInputScalar value

end TypeRef

namespace InputObjectType

/-- The value that is to be coerced for a field: what is given, else the default. -/
def fieldValue? (given : Option Value) (default : Option Literal) : Option Value :=
  given.or (default.map Literal.evaluateConst)

/-- Coerces the fields in the order of the type. -/
def coerceFields (coerce : TypeRef → Value → Except InvalidValue Value)
    (provided : Entries Value) :
    Entries (InputValue Literal) → Except InvalidValue (Entries Value)
  | [] => .ok []
  | (name, field) :: fields =>
    match fieldValue? (Entries.get? name provided) field.default with
    | some value =>
      match coerce field.type value with
      | .ok v => (coerceFields coerce provided fields).map ((name, v) :: ·)
      | .error e => .error (.inField name e)
    | none =>
      if field.type.isNonNull then .error (.missingField name field.type.render)
      else coerceFields coerce provided fields

def coerce (type : InputObjectType) (coerce : TypeRef → Value → Except InvalidValue Value)
    (provided : Entries Value) : Except InvalidValue (Entries Value) :=
  match (Entries.keys provided).find? (!Entries.contains · type.fields) with
  | some unknown => .error (.unknownField unknown type.name)
  | none => coerceFields coerce provided type.fields

end InputObjectType

namespace Schema

/-- Coercion to a named type of a value that is not null; `room` bounds the nesting of input
objects. -/
def coerceNamedInput (schema : Schema) : (room : Nat) → String → Value → Except InvalidValue Value
  | room, name, value =>
    match schema.type? name with
    | some (.scalar _) => .ok value
    | some (.enum type) =>
      match value.string? with
      | some s => if s ∈ type.values then .ok value else .error (.notA name)
      | none => .error (.notA name)
    | some (.input type) =>
      match value with
      | .object provided =>
        match room with
        | 0 => .error (.endlessDefault name)
        | room + 1 =>
          (type.coerce (TypeRef.coerceInputWith (schema.coerceNamedInput room)) provided).map
            .object
      | _ => .error (.notA name)
    | _ => .error (.notA name)

end Schema

/-- The depths of the defaults of input fields, added up with one more for each. -/
def InputValue.defaultsDepth : Entries (InputValue Literal) → Nat
  | [] => 0
  | (_, field) :: fields =>
    (match field.default with
      | some literal => literal.evaluateConst.depth + 1
      | none => 0) + defaultsDepth fields

def TypeDefinition.defaultsDepth : Entries TypeDefinition → Nat
  | [] => 0
  | (_, .input type) :: types => InputValue.defaultsDepth type.fields + defaultsDepth types
  | _ :: types => defaultsDepth types

/-- Defaults of input fields that do not need themselves are nested less deep than this. -/
def Schema.defaultDepth (schema : Schema) : Nat := TypeDefinition.defaultsDepth schema.types

/-- Coercion of an input value to a type. -/
def TypeRef.coerceInput (type : TypeRef) (schema : Schema) (value : Value) :
    Except InvalidValue Value :=
  type.coerceInputWith (schema.coerceNamedInput (value.depth + schema.defaultDepth + 1)) value

end GraphQL
