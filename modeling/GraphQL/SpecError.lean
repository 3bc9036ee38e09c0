import GraphQL.Json.Value
import GraphQL.Syntax.Token

/-!
What can be wrong with a document or a schema.
-/

set_option autoImplicit false

namespace GraphQL

inductive SpecError where
  | recursionLimitExceeded
  | invalidType (type : String)
  | invalidField (field type : String)
  | syntaxError (error : Syntax.SyntaxError)
  | parsing (detail : String)
  | invalidLiteral (detail : String)
  | unknownType (type : String)
  deriving DecidableEq, Repr

namespace SpecError

def missingArgumentValue (argument : String) : SpecError :=
  parsing ("missing value for argument '" ++ argument ++ "'")

def missingFieldValue (field : String) : SpecError :=
  invalidLiteral ("missing value for field '" ++ field ++ "'")

def invalidInt (text : String) : SpecError := invalidLiteral ("invalid int '" ++ text ++ "'")

def message : SpecError → String
  | recursionLimitExceeded => "selection processing recursion limit exceeded"
  | invalidType type => "invalid type error, expected another type than '" ++ type ++ "'"
  | invalidField field type => "cannot query field '" ++ field ++ "' on type '" ++ type ++ "'"
  | syntaxError error => "parsing error: " ++ error.message
  | parsing detail => "parsing error: " ++ detail
  | invalidLiteral detail => "invalid literal: " ++ detail
  | unknownType type => "unknown type '" ++ type ++ "'"

def code : SpecError → String
  | recursionLimitExceeded => "RECURSION_LIMIT_EXCEEDED"
  | invalidType _ => "INVALID_TYPE"
  | invalidField _ _ => "INVALID_FIELD"
  | syntaxError _ => "PARSING_ERROR"
  | parsing _ => "PARSING_ERROR"
  | invalidLiteral _ => "INVALID_LITERAL"
  | unknownType _ => "UNKNOWN_TYPE"

/-- The extensions of the error besides its code. -/
def details : SpecError → Entries Json.Value
  | invalidType type => [("type", .string type)]
  | unknownType type => [("type", .string type)]
  | invalidField field type => [("type", .string type), ("field", .string field)]
  | _ => []

end SpecError

end GraphQL
