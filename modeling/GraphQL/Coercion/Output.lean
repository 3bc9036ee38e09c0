import GraphQL.Coercion.Invalid
import GraphQL.Schema.Basic

/-!
Serialization of what resolvers answer for fields of leaf types.
-/

set_option autoImplicit false

namespace GraphQL

open Json

/-- The value of a leaf type for a resolved value that is not null. -/
def TypeRef.coerceOutput (type : TypeRef) (schema : Schema) (value : Value) :
    Except InvalidValue Value :=
  match type, value with
  | int, value =>
    match value.int32? with
    | some i => .ok (.int i)
    | none => .error (.notA type.render)
  | float, .number n => .ok (.number n)
  | string, .string s => .ok (.string s)
  | string, .number n => .ok (.string n.render)
  | string, .bool b => .ok (.string (if b then "true" else "false"))
  | boolean, .bool b => .ok (.bool b)
  | id, .string s => .ok (.string s)
  | id, .number (.int i) => .ok (.string (toString i))
  | named name, value =>
    match schema.type? name with
    | some (.scalar _) => .ok value
    | some (.enum type) =>
      match value.string? with
      | some s => if s ∈ type.values then .ok value else .error (.notA name)
      | none => .error (.notA name)
    | _ => .error (.notA name)
  | _, _ => .error (.notA type.render)

end GraphQL
