import GraphQL.Coercion.Variables
import GraphQL.Document.Document

/-!
Why a request has no data.
-/

set_option autoImplicit false

namespace GraphQL

open Json

def SpecError.toError (e : SpecError) : Error := .ofFailure e.message e.details e.code

/-- Why there is no operation to run. -/
inductive PreparationError where
  | noOperation
  | operationNotSelected (e : OperationNotSelected)
  | unknownPersistedOperation (name : String)
  | missingQuery
  | unsupportedOperation (kind : String)
  deriving DecidableEq, Repr

namespace PreparationError

def message : PreparationError → String
  | noOperation => "the document does not contain any operation"
  | operationNotSelected e => e.message
  | unknownPersistedOperation name => "no persisted query found for operation '" ++ name ++ "'"
  | missingQuery => "the request contains neither a query nor an operation name"
  | unsupportedOperation kind => kind ++ " operations are not supported by this executor"

def code : PreparationError → String
  | noOperation => "NO_OPERATION"
  | operationNotSelected _ => "OPERATION_NAME_MISSING"
  | unknownPersistedOperation _ => "PERSISTED_QUERY_NOT_FOUND"
  | missingQuery => "MISSING_QUERY"
  | unsupportedOperation _ => "UNSUPPORTED_OPERATION"

/-- The extensions of the error besides its code. -/
def details : PreparationError → Entries Value
  | operationNotSelected e => [("availableOperations", .strings e.available)]
  | _ => []

def toError (e : PreparationError) : Error := .ofFailure e.message e.details e.code

end PreparationError

/-- The failure of a whole execution. Errors of fields are a failure in debug mode only. -/
inductive ExecutionError where
  | preparation (e : PreparationError)
  | spec (e : SpecError)
  | validation (errors : List Error)
  | invalidVariables (errors : List VariableError)
  | field (e : Error)
  deriving Repr

namespace ExecutionError

def message : ExecutionError → String
  | preparation e => e.message
  | spec e => e.message
  | validation _ => "the document failed validation"
  | invalidVariables _ => "invalid variables"
  | field e => "field error: " ++ e.message

def toErrors : ExecutionError → List Error
  | preparation e => [e.toError]
  | spec e => [e.toError]
  | validation errors => errors
  | invalidVariables errors => errors.map VariableError.toError
  | field e => [e]

/-- A response without data. -/
def toResponse (e : ExecutionError) : Response := .ofErrors e.toErrors

end ExecutionError

end GraphQL
