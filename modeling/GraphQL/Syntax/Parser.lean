import GraphQL.Syntax.Lexer

/-!
Parsers over a list of tokens, and the ways in which the grammar repeats things.

Every repetition checks that an item takes at least one token, so that it ends.
-/

set_option autoImplicit false

namespace GraphQL.Syntax

/-- A parser takes tokens off the front, or says where it cannot go on. -/
abbrev Parser := StateT (List Token) (Except SyntaxError)

namespace Parser

variable {α : Type}

/-- The error at the next token. -/
def unexpected : Parser α := fun tokens =>
  match tokens with
  | [] => .error .unexpectedEnd
  | t :: _ => .error (.unexpected t.offset)

def peek? : Parser (Option Lexeme) := do return (← get).head?.map Token.lexeme

/-- The location of the next token. -/
def location : Parser (Option Location) := do return (← get).head?.map Token.location

def skip : Parser Unit := modify (List.drop 1)

/-- Refuses a comma before the next token. -/
def noComma : Parser Unit := do
  if (← get).head?.any Token.afterComma then unexpected

def punctuator (p : Punctuator) : Parser Unit := do
  if (← peek?) = some (.punctuator p) then skip else unexpected

/-- Takes the punctuator if it comes next. -/
def punctuator? (p : Punctuator) : Parser Bool := do
  if (← peek?) = some (.punctuator p) then
    skip
    return true
  else return false

def anyName : Parser String := do
  match ← peek? with
  | some (.name text) =>
    skip
    return text
  | _ => unexpected

/-- Takes a name if one comes next. -/
def name? : Parser (Option String) := do
  match ← peek? with
  | some (.name text) =>
    skip
    return some text
  | _ => return none

def keyword (word : String) : Parser Unit := do
  if (← peek?) = some (.name word) then skip else unexpected

def keyword? (word : String) : Parser Bool := do
  if (← peek?) = some (.name word) then
    skip
    return true
  else return false

/-- Runs `item` if the next lexeme is `first`. -/
def whenNext (first : Lexeme) (item : Parser α) : Parser (Option α) := do
  if (← peek?) = some first then return some (← item) else return none

/-- As many items as there are up to where `stop` holds of the next lexeme. -/
def manyUntil (stop : Option Lexeme → Bool) (item : Parser α) (tokens : List Token) :
    Except SyntaxError (List α × List Token) :=
  if stop (tokens.head?.map Token.lexeme) then .ok ([], tokens)
  else do
    let (a, rest) ← item tokens
    if _h : rest.length < tokens.length then
      let (as, rest) ← manyUntil stop item rest
      return (a :: as, rest)
    else unexpected tokens
termination_by tokens.length

/-- Items up to a closing punctuator, which is taken too. -/
def upTo (close : Punctuator) (item : Parser α) : Parser (List α) := do
  let items ← manyUntil (· == some (.punctuator close)) item
  punctuator close
  return items

/-- At least one item up to a closing punctuator. -/
def someUpTo (close : Punctuator) (item : Parser α) : Parser (List α) := do
  let first ← item
  return first :: (← upTo close item)

/-- Items for as long as the next lexeme is `first`. -/
def whileNext (first : Lexeme) (item : Parser α) : Parser (List α) :=
  manyUntil (· != some first) item

/-- At least one item, with a separator between any two and perhaps before the first. -/
def separatedBy (separator : Punctuator) (item : Parser α) : Parser (List α) := do
  let _ ← punctuator? separator
  let first ← item
  let others ← whileNext (.punctuator separator) do
    punctuator separator
    item
  return first :: others

/-- Runs a parser that has to take all tokens. -/
def parseAll (p : Parser α) (tokens : List Token) : Except SyntaxError α := do
  let (a, rest) ← p tokens
  match rest with
  | [] => return a
  | t :: _ => .error (.unexpected t.offset)

end Parser

end GraphQL.Syntax
