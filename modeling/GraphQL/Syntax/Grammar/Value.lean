import GraphQL.Syntax.Parser
import GraphQL.Syntax.Value
import GraphQL.TypeRef
import GraphQL.Document.Selection

/-!
The grammar of values, type references, arguments and directives.

`room` is how many more levels of nesting are allowed: each list item, field value and selection
set takes one.
-/

set_option autoImplicit false

namespace GraphQL.Syntax.Grammar

open Syntax.Parser

/-- Levels of nesting allowed in a text. -/
def nestingLimit : Nat := 500

/-- What follows the name of an argument or of an object field: the colon and the value may be
left out together. -/
def valueAfterColon (value : Parser Value) : Parser Value := do
  if ← punctuator? .colon then value else return .missing

def objectField (value : Parser Value) : Parser (String × Value) := do
  let name ← anyName
  return (name, ← valueAfterColon value)

/-- A value whose items and field values are read by `inner`. A constant has no variables. -/
def valueWith (constant : Bool) (inner : Parser Value) : Parser Value := do
  match ← peek? with
  | some (.punctuator .dollar) =>
    if constant then unexpected
    else
      skip
      return .variable (← anyName)
  | some (.int text) =>
    skip
    return .int text
  | some (.float text) =>
    skip
    return .float text
  | some (.string contents) =>
    skip
    return .string contents
  | some (.name text) =>
    skip
    return if text = "true" then .boolean true
      else if text = "false" then .boolean false
      else if text = "null" then .null
      else .enum text
  | some (.punctuator .openBracket) =>
    skip
    return .list (← upTo .closeBracket inner)
  | some (.punctuator .openBrace) =>
    skip
    return .object (← upTo .closeBrace (objectField inner))
  | _ => unexpected

def value (constant : Bool) : (room : Nat) → Parser Value
  | 0 => valueWith constant unexpected
  | room + 1 => valueWith constant (value constant room)

/-- A type whose list items are read by `inner`; at most one non-null mark follows it. -/
def typeWith (inner : Parser TypeRef) : Parser TypeRef := do
  let type ← (do
    if ← punctuator? .openBracket then
      let item ← inner
      punctuator .closeBracket
      return .list item
    else return .ofName (← anyName) : Parser TypeRef)
  if ← punctuator? .bang then return .nonNull type else return type

def typeRef : (room : Nat) → Parser TypeRef
  | 0 => typeWith unexpected
  | room + 1 => typeWith (typeRef room)

def argument (constant : Bool) (room : Nat) : Parser (Argument Value) := do
  let name ← anyName
  return ⟨name, ← valueAfterColon (value constant room)⟩

/-- Arguments in parentheses, if there are any. -/
def arguments (constant : Bool) (room : Nat) : Parser (List (Argument Value)) := do
  if ← punctuator? .openParen then someUpTo .closeParen (argument constant room) else return []

def directive (constant : Bool) (room : Nat) : Parser (Directive Value) := do
  let location ← location
  punctuator .at
  let name ← anyName
  return ⟨name, ← arguments constant room, location⟩

def directives (constant : Bool) (room : Nat) : Parser (List (Directive Value)) :=
  whileNext (.punctuator .at) (directive constant room)

def defaultValue (room : Nat) : Parser (Option Value) := do
  if ← punctuator? .equals then return some (← value true room) else return none

end GraphQL.Syntax.Grammar
