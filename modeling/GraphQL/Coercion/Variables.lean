import GraphQL.Coercion.Input
import GraphQL.Response.Response

/-!
Coercion of the variables of an operation.
-/

set_option autoImplicit false

namespace GraphQL

open Json

/-- Why a variable has no value. -/
structure VariableError where
  name : String
  /-- The declared type in SDL notation. -/
  type : String
  /-- Absent if the variable was not provided, or null. -/
  reason : Option String
  deriving DecidableEq, Repr

namespace VariableError

def isMissing (e : VariableError) : Bool := e.reason.isNone

def reasonText (e : VariableError) : String := e.reason.getD "can't be null"

def message (e : VariableError) : String :=
  match e.reason with
  | none =>
    "Variable \"$" ++ e.name ++ "\" of required type \"" ++ e.type ++
      "\" was not provided or can't be null"
  | some reason =>
    "Variable \"$" ++ e.name ++ "\" got invalid value; expected type \"" ++ e.type ++ "\": " ++
      reason

def code (e : VariableError) : String :=
  if e.isMissing then "VALIDATION_MISSING_VARIABLE" else "VALIDATION_INVALID_TYPE_VARIABLE"

def toError (e : VariableError) : Error :=
  .ofFailure e.message [("name", .string e.name), ("type", .string e.type)] e.code

end VariableError

namespace VariableDefinition

/-- The value that is to be coerced for a variable: what is provided, else the default. -/
def value? (d : VariableDefinition Literal) (provided : Entries Value) : Option Value :=
  (Entries.get? d.name provided).or (d.default.map Literal.evaluateConst)

/-- The value of one declared variable. A nullable variable stays unbound if nothing is given for
it. -/
def coerce (d : VariableDefinition Literal) (schema : Schema) (provided : Entries Value) :
    Except VariableError (Option Value) :=
  match d.value? provided with
  | some value =>
    match d.type.coerceInput schema value with
    | .ok v => .ok (some v)
    | .error .null => .error ⟨d.name, d.type.render, none⟩
    | .error e => .error ⟨d.name, d.type.render, some e.message⟩
  | none => if d.type.isNonNull then .error ⟨d.name, d.type.render, none⟩ else .ok none

/-- Whether the coercion of a declared variable does not come back. -/
def isEndless (d : VariableDefinition Literal) (schema : Schema) (provided : Entries Value) :
    Bool :=
  (d.value? provided).any fun value => decide (Endless (d.type.coerceInput schema value))

end VariableDefinition

/-- The bindings of the declared variables, or the errors of all that have none. -/
def coerceVariables (schema : Schema) (definitions : List (VariableDefinition Literal))
    (provided : Entries Value) : Except (List VariableError) (Entries Value) :=
  let (bound, errors) := definitions.foldl (fun (bound, errors) d =>
    match d.coerce schema provided with
    | .ok (some v) => (Entries.insert d.name v bound, errors)
    | .ok none => (bound, errors)
    | .error e => (bound, errors ++ [e])) (([] : Entries Value), ([] : List VariableError))
  if errors.isEmpty then .ok bound else .error errors

end GraphQL
