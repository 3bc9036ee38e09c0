import GraphQL.Json.Writer
import GraphQL.Text.Quoted

/-!
Typed reading and writing of JSON values.

A value of the wrong type is described in the message; a number always as a floating point one,
save an integer that is too large where an integer is wanted.
-/

set_option autoImplicit false

namespace GraphQL.Json

/-- How the values of a type are kept as JSON values. Writing and reading may fail, with a
message. -/
structure Codec (α : Type) where
  encode : α → Except String Value
  decode : Value → Except String α

namespace Value

/-- A value as a message about its type describes it. -/
def description : Value → String
  | null => "null"
  | bool b => "boolean `" ++ (if b then "true" else "false") ++ "`"
  | number n => "floating point `" ++ n.toDouble.render ++ "`"
  | string s => "string " ++ Text.quoted s
  | array _ => "sequence"
  | object _ => "map"

def invalidType (expected : String) (v : Value) : String :=
  "invalid type: " ++ v.description ++ ", expected " ++ expected

end Value

namespace Codec

/-- Null is the absent value. -/
def encodeOption {α : Type} (codec : Codec α) : Option α → Except String Value
  | some a => codec.encode a
  | none => .ok .null

/-- Integers of 64 bits. -/
def int : Codec Int64 where
  encode i := .ok (Value.int i.toInt)
  decode
    | .number (.int i) =>
      if i < 0x8000000000000000 then .ok (Int64.ofInt i)
      else .error ("invalid value: integer `" ++ toString i ++ "`, expected i64")
    | v => .error (v.invalidType "i64")

def string : Codec String where
  encode s := .ok (Value.string s)
  decode
    | .string s => .ok s
    | v => .error (v.invalidType "a string")

def bool : Codec Bool where
  encode b := .ok (Value.bool b)
  decode
    | .bool b => .ok b
    | v => .error (v.invalidType "a boolean")

/-- Any JSON value, as it is. -/
def json : Codec Value where
  encode := .ok
  decode := .ok

end Codec

end GraphQL.Json
