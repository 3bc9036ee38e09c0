import GraphQL.Coercion.Input

/-!
Coercion of the arguments of a field.
-/

set_option autoImplicit false

namespace GraphQL

open Json

inductive ArgumentError where
  | required (name type : String)
  | invalid (name type : String) (reason : InvalidValue)
  | unknown (name : String)
  deriving DecidableEq, Repr

namespace ArgumentError

def message : ArgumentError → String
  | required name type =>
    "argument '" ++ name ++ "' of type '" ++ type ++ "' is required but was not provided"
  | invalid name type reason =>
    "argument '" ++ name ++ "' has an invalid value; expected type '" ++ type ++ "': " ++
      reason.message
  | unknown name => "unknown argument '" ++ name ++ "'"

/-- Whether the coercion of an argument does not come back. -/
def isEndless : ArgumentError → Bool
  | invalid _ _ reason => reason.isEndless
  | _ => false

end ArgumentError

/-- The value of one argument. A variable without a binding counts as not given, so that the
default applies. -/
def InputValue.argumentValue? (d : InputValue Literal) (bindings : Entries Value)
    (given : List (Argument Literal)) : Option Value :=
  ((given.find? (·.name == d.name)).bind fun a => a.value.evaluate bindings).or
    (d.default.map Literal.evaluateConst)

/-- Coerces the defined arguments in their order; one that has no value is left out. -/
def coerceDefined (schema : Schema) (bindings : Entries Value)
    (given : List (Argument Literal)) :
    Entries (InputValue Literal) → Except ArgumentError (Entries Value)
  | [] => .ok []
  | (name, d) :: definitions =>
    match d.argumentValue? bindings given with
    | some value =>
      match d.type.coerceInput schema value with
      | .ok v => (coerceDefined schema bindings given definitions).map ((name, v) :: ·)
      | .error e => .error (.invalid name d.type.render e)
    | none =>
      if d.type.isNonNull then .error (.required name d.type.render)
      else coerceDefined schema bindings given definitions

/-- The coerced arguments of a field. An argument that the field does not define is an error
before any other. -/
def FieldDefinition.coerceArguments (d : FieldDefinition) (schema : Schema)
    (bindings : Entries Value) (given : List (Argument Literal)) :
    Except ArgumentError (Entries Value) :=
  match given.find? fun a => !Entries.contains a.name d.arguments with
  | some a => .error (.unknown a.name)
  | none => coerceDefined schema bindings given d.arguments

end GraphQL
