import GraphQL.Syntax.Grammar.Value
import GraphQL.Schema.Declaration

/-!
The grammar of type system definitions and extensions.
-/

set_option autoImplicit false

namespace GraphQL.Syntax.Grammar

open Syntax.Parser

/-- A description, which means nothing here. -/
def description : Parser Unit := do
  match ← peek? with
  | some (.string _) => skip
  | _ => return ()

/-- Directives in a schema, which mean nothing here either; answers whether there were any. -/
def schemaDirectives : Parser Bool := do return !(← directives true nestingLimit).isEmpty

def braced {α : Type} (item : Parser α) : Parser (List α) := do
  if ← punctuator? .openBrace then someUpTo .closeBrace item else return []

def operationKind : Parser OperationKind := do
  if ← keyword? "query" then return .query
  else if ← keyword? "mutation" then return .mutation
  else
    keyword "subscription"
    return .subscription

/-- A root operation and its type, which may be left out after the colon. -/
def rootOperation : Parser (OperationKind × Option String) := do
  let kind ← operationKind
  punctuator .colon
  return (kind, ← name?)

def implementsList : Parser (List String) := do
  if ← keyword? "implements" then separatedBy .ampersand anyName else return []

def inputValue : Parser (InputValue Value) := do
  description
  let name ← anyName
  punctuator .colon
  let type ← typeRef nestingLimit
  let default ← defaultValue nestingLimit
  let _ ← schemaDirectives
  return ⟨name, type, default⟩

def argumentDeclarations : Parser (List (InputValue Value)) := do
  if ← punctuator? .openParen then someUpTo .closeParen inputValue else return []

def fieldDeclaration : Parser (FieldDeclaration Value) := do
  description
  let name ← anyName
  let arguments ← argumentDeclarations
  punctuator .colon
  let type ← typeRef nestingLimit
  let _ ← schemaDirectives
  return ⟨name, type, arguments⟩

def unionMembers : Parser (List String) := do
  if ← punctuator? .equals then separatedBy .pipe anyName else return []

/-- An enum value is any name but those of the literals. -/
def enumValue : Parser String := do
  description
  match ← peek? with
  | some (.name text) =>
    if text = "true" ∨ text = "false" ∨ text = "null" then unexpected
    else
      skip
      let _ ← schemaDirectives
      return text
  | _ => unexpected

def executableLocations : List String :=
  ["QUERY", "MUTATION", "SUBSCRIPTION", "FIELD", "FRAGMENT_DEFINITION", "FRAGMENT_SPREAD",
    "INLINE_FRAGMENT", "VARIABLE_DEFINITION"]

def schemaLocations : List String :=
  ["SCHEMA", "SCALAR", "OBJECT", "FIELD_DEFINITION", "ARGUMENT_DEFINITION", "INTERFACE", "UNION",
    "ENUM", "ENUM_VALUE", "INPUT_OBJECT", "INPUT_FIELD_DEFINITION"]

def directiveLocation : Parser Unit := do
  match ← peek? with
  | some (.name text) =>
    if text ∈ executableLocations ∨ text ∈ schemaLocations then skip else unexpected
  | _ => unexpected

def directiveDeclaration : Parser (Declaration Value) := do
  punctuator .at
  let name ← anyName
  let _ ← argumentDeclarations
  let _ ← keyword? "repeatable"
  keyword "on"
  let _ ← separatedBy .pipe directiveLocation
  return .directive name

/-- An extension has to add something. -/
def nonEmpty (extending something : Bool) (d : Declaration Value) : Parser (Declaration Value) :=
  if extending && !something then unexpected else return d

/-- A declaration, or what follows `extend` in an extension. -/
def declaration (extending : Bool) : Parser (Declaration Value) := do
  if ← keyword? "schema" then
    let directed ← schemaDirectives
    if !extending then return .schema (← braced rootOperation)
    else
      let roots ← (do
        if ← punctuator? .openBrace then upTo .closeBrace rootOperation else return [] :
          Parser (List (OperationKind × Option String)))
      nonEmpty true (directed || !roots.isEmpty) (.schema roots)
  else if ← keyword? "scalar" then
    let name ← anyName
    nonEmpty extending (← schemaDirectives) (.scalar name)
  else if ← keyword? "type" then
    let name ← anyName
    let implements ← implementsList
    let directed ← schemaDirectives
    let fields ← braced fieldDeclaration
    nonEmpty extending (directed || !implements.isEmpty || !fields.isEmpty)
      (.object name implements fields)
  else if ← keyword? "interface" then
    let name ← anyName
    let implements ← implementsList
    let directed ← schemaDirectives
    let fields ← braced fieldDeclaration
    nonEmpty extending (directed || !implements.isEmpty || !fields.isEmpty)
      (.interface name implements fields)
  else if ← keyword? "union" then
    let name ← anyName
    let directed ← schemaDirectives
    let members ← unionMembers
    nonEmpty extending (directed || !members.isEmpty) (.union name members)
  else if ← keyword? "enum" then
    let name ← anyName
    let directed ← schemaDirectives
    let values ← braced enumValue
    nonEmpty extending (directed || !values.isEmpty) (.enum name values)
  else if ← keyword? "input" then
    let name ← anyName
    let directed ← schemaDirectives
    let fields ← braced inputValue
    nonEmpty extending (directed || !fields.isEmpty) (.input name fields)
  else if extending then unexpected
  else
    keyword "directive"
    directiveDeclaration

end GraphQL.Syntax.Grammar
