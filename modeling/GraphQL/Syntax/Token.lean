import GraphQL.Text.Location

/-!
The lexical tokens of GraphQL text, and the tokens with their place in the text.
-/

set_option autoImplicit false

namespace GraphQL.Syntax

inductive Punctuator where
  | bang
  | dollar
  | ampersand
  | openParen
  | closeParen
  | spread
  | colon
  | equals
  | at
  | openBracket
  | closeBracket
  | openBrace
  | pipe
  | closeBrace
  deriving DecidableEq, Repr

/-- Numbers keep their spelling; a string is given by its contents. -/
inductive Lexeme where
  | punctuator (p : Punctuator)
  | name (text : String)
  | int (text : String)
  | float (text : String)
  | string (contents : String)
  deriving DecidableEq, Repr

structure Token where
  lexeme : Lexeme
  /-- The byte at which the token starts. -/
  offset : Nat
  location : Location
  /-- Whether a comma stands between the token and the one before it. -/
  afterComma : Bool
  deriving DecidableEq, Repr

/-- Where a text stops being GraphQL: at a byte, or only by ending. -/
inductive SyntaxError where
  | unexpected (offset : Nat)
  | unexpectedEnd
  deriving DecidableEq, Repr

namespace SyntaxError

def message : SyntaxError → String
  | unexpected offset => "unexpected text at index " ++ toString offset
  | unexpectedEnd => "unexpected end of text"

end SyntaxError

end GraphQL.Syntax
