import GraphQL.Syntax.Grammar.Value
import GraphQL.Document.Definition

/-!
The grammar of selection sets and of executable definitions.
-/

set_option autoImplicit false

namespace GraphQL.Syntax.Grammar

open Syntax.Parser

/-- A selection whose own selection set is read by `nested`. -/
def selectionWith (room : Nat) (nested : Parser (List (Selection Value))) :
    Parser (Selection Value) := do
  let location ← location
  if ← punctuator? .spread then
    noComma
    match ← peek? with
    | some (.name "on") =>
      skip
      let condition ← anyName
      let directives ← directives false room
      return .inline ⟨some condition, directives, location⟩ (← nested)
    | some (.name fragment) =>
      skip
      return .spread ⟨fragment, ← directives false room, location⟩
    | _ =>
      let directives ← directives false room
      return .inline ⟨none, directives, location⟩ (← nested)
  else
    let first ← anyName
    let (alias?, name) ← (do
      if (← peek?) = some (.punctuator .colon) then
        noComma
        skip
        return (some first, ← anyName)
      else return (none, first) : Parser (Option String × String))
    let arguments ← arguments false room
    let directives ← directives false room
    let selections ← whenNext (.punctuator .openBrace) nested
    return .field ⟨alias?, name, arguments, directives, location⟩ (selections.getD [])

/-- A selection set: at least one selection between braces. -/
def selectionSet : (room : Nat) → Parser (List (Selection Value))
  | 0 => unexpected
  | room + 1 => do
    punctuator .openBrace
    someUpTo .closeBrace (selectionWith room (selectionSet room))

def variableDefinition : Parser (VariableDefinition Value) := do
  let location ← location
  punctuator .dollar
  let name ← anyName
  punctuator .colon
  let type ← typeRef nestingLimit
  let default ← defaultValue nestingLimit
  let _ ← directives true nestingLimit
  return ⟨name, type, default, location⟩

def variableDefinitions : Parser (List (VariableDefinition Value)) := do
  if ← punctuator? .openParen then someUpTo .closeParen variableDefinition else return []

/-- What follows the keyword of an operation. -/
def operationBody (kind : OperationKind) (location : Option Location) :
    Parser (Operation Value) := do
  let name ← name?
  let definitions ← variableDefinitions
  let directives ← directives false nestingLimit
  return ⟨name, kind, definitions, directives, ← selectionSet nestingLimit, location⟩

/-- What follows the keyword of a fragment, which cannot be named `on`. -/
def fragmentBody (location : Option Location) : Parser (Fragment Value) := do
  if (← peek?) = some (.name "on") then unexpected
  else
    let name ← anyName
    keyword "on"
    let condition ← anyName
    let directives ← directives false nestingLimit
    return ⟨name, condition, directives, ← selectionSet nestingLimit, location⟩

/-- A selection set that stands for a query of its own. -/
def shorthand (location : Option Location) : Parser (Operation Value) := do
  return ⟨none, .query, [], [], ← selectionSet nestingLimit, location⟩

end GraphQL.Syntax.Grammar
