import GraphQL.Syntax.Grammar.Operation
import GraphQL.Syntax.Grammar.Schema

/-!
Whole texts: executable definitions and type system definitions in any mixture.
-/

set_option autoImplicit false

namespace GraphQL.Syntax

open Syntax.Parser Syntax.Grammar

/-- One definition of a text, as written. -/
inductive Item where
  | executable (definition : Definition Value)
  | schema (item : SchemaItem Value)
  deriving Repr

namespace Item

/-- Only type system definitions can have a description. Before a fragment it takes the place of
the keyword, which then is the name. -/
def grammar : Parser Item := do
  let start ← location
  match ← peek? with
  | some (.string _) =>
    skip
    noComma
    if (← peek?) = some (.name "fragment") then
      return .executable (.fragment (← fragmentBody start))
    else return .schema ⟨false, ← declaration false⟩
  | some (.punctuator .openBrace) => return .executable (.operation (← shorthand start))
  | _ =>
    if ← keyword? "query" then
      return .executable (.operation (← operationBody .query start))
    else if ← keyword? "mutation" then
      return .executable (.operation (← operationBody .mutation start))
    else if ← keyword? "subscription" then
      return .executable (.operation (← operationBody .subscription start))
    else if ← keyword? "fragment" then
      return .executable (.fragment (← fragmentBody start))
    else if ← keyword? "extend" then
      noComma
      return .schema ⟨true, ← declaration true⟩
    else return .schema ⟨false, ← declaration false⟩

/-- A text has at least one definition. -/
def all : Parser (List Item) := do
  let first ← grammar
  return first :: (← manyUntil (· == none) grammar)

def parse (text : String) : Except SyntaxError (List Item) := do
  parseAll all (← Token.ofText text)

def executable? : Item → Option (Definition Value)
  | executable definition => some definition
  | schema _ => none

def schema? : Item → Option (SchemaItem Value)
  | executable _ => none
  | schema item => some item

end Item

end GraphQL.Syntax
