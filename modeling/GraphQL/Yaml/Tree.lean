import GraphQL.Json.Record
import GraphQL.Yaml.Token

/-!
Reading the tokens of a YAML text as a tree.

What is left out, be it a key, a value or an item, is null. A text holds one document.
-/

set_option autoImplicit false

namespace GraphQL.Yaml

open Json (Tree)

/-- A parser takes tokens off the front. -/
abbrev Parser := StateT (List Token) Option

namespace Parser

variable {α : Type}

def peek? : Parser (Option Token) := do return (← get).head?

def skip : Parser Unit := modify (List.drop 1)

/-- Items until there is none; each takes at least one token. -/
def many (item : Parser (Option α)) (tokens : List Token) : Option (List α × List Token) := do
  match ← item tokens with
  | (none, rest) => return ([], rest)
  | (some a, rest) =>
    if _h : rest.length < tokens.length then
      let (as, rest) ← many item rest
      return (a :: as, rest)
    else none
termination_by tokens.length

/-- What `node` reads, or null before one of the tokens `ends`. -/
def orNull (ends : List Token) (node : Parser Tree) : Parser Tree := do
  if (← peek?).any (· ∈ ends) then return .null else node

/-- A value after its mark, or null. -/
def valueOr (ends : List Token) (node : Parser Tree) : Parser Tree := do
  if (← peek?) = some .value then
    skip
    orNull ends node
  else return .null

end Parser

open Yaml.Parser

def member (key value : Tree) : Option String × Tree := (key.string?, value)

/-- A member of a block mapping, or its end. -/
def blockMember (node : Parser Tree) : Parser (Option (Option String × Tree)) := do
  let ends := [Token.key, .value, .blockEnd]
  match ← peek? with
  | some .key =>
    skip
    let key ← orNull ends node
    return some (member key (← valueOr ends node))
  | some .value => return some (member .null (← valueOr ends node))
  | some .blockEnd =>
    skip
    return none
  | _ => failure

/-- An item of a block sequence, or its end. -/
def blockItem (node : Parser Tree) : Parser (Option Tree) := do
  match ← peek? with
  | some .entry =>
    skip
    return some (← orNull [.entry, .blockEnd] node)
  | some .blockEnd =>
    skip
    return none
  | _ => failure

/-- An item of a block sequence that is indented as the mapping around it is, or nothing. -/
def alignedItem (node : Parser Tree) : Parser (Option Tree) := do
  match ← peek? with
  | some .entry =>
    skip
    return some (← orNull [.entry, .key, .value, .blockEnd] node)
  | _ => return none

/-- The rest of a flow collection after an entry of it: nothing, or a comma and perhaps another
entry. -/
def nextInFlow {α : Type} (close : Token) (item : Parser α) : Parser (Option α) := do
  let ended ← (do
    if (← peek?) = some close then return true
    else if (← peek?) = some .comma then
      skip
      return (← peek?) = some close
    else failure : Parser Bool)
  if ended then
    skip
    return none
  else return some (← item)

/-- The entries of a flow collection up to its closing mark. -/
def flow {α : Type} (close : Token) (item : Parser α) : Parser (List α) := do
  if (← peek?) = some close then
    skip
    return []
  else
    let first ← item
    return first :: (← many (nextInFlow close item))

/-- A member of a flow mapping; a node that no colon follows is a key without a value. -/
def flowMember (node : Parser Tree) : Parser (Option String × Tree) := do
  let ends := [Token.comma, .closeMapping]
  match ← peek? with
  | some .key =>
    skip
    let key ← orNull (.value :: ends) node
    return member key (← valueOr ends node)
  | some .value => return member .null (← valueOr ends node)
  | _ => return member (← node) .null

/-- An item of a flow sequence; a key makes it a mapping with one member. -/
def flowItem (node : Parser Tree) : Parser Tree := do
  if (← peek?) = some .key then
    skip
    let key ← node
    return .object [member key (← valueOr [.comma, .closeSequence] node)]
  else node

/-- A node whose parts are read by `inner`. Only where `block` is set may it be a block, and only
where `aligned` is set a block sequence without an indentation of its own. -/
def nodeWith (block aligned : Bool) (inner : (block aligned : Bool) → Parser Tree) :
    Parser Tree := do
  match ← peek? with
  | some (.plain text) =>
    skip
    return Plain.tree text
  | some (.quoted text) =>
    skip
    return .string (some text)
  | some .openSequence =>
    skip
    return .array (← flow .closeSequence (flowItem (inner false false)))
  | some .openMapping =>
    skip
    return .object (← flow .closeMapping (flowMember (inner false false)))
  | some .entry =>
    if aligned then return .array (← many (alignedItem (inner true false))) else failure
  | some .blockSequence =>
    if block then
      skip
      return .array (← many (blockItem (inner true false)))
    else failure
  | some .blockMapping =>
    if block then
      skip
      return .object (← many (blockMember (inner true true)))
    else failure
  | _ => failure

/-- Levels of nesting allowed in a text. -/
def nestingLimit : Nat := 128

def node : (room : Nat) → (block aligned : Bool) → Parser Tree
  | 0 => fun block aligned => nodeWith block aligned fun _ _ => failure
  | room + 1 => fun block aligned => nodeWith block aligned (node room)

/-- A document. After directives it has to be announced; it may be empty only if it is. -/
def document : Parser Tree := do
  let tokens ← get
  if tokens.head?.any (· ∈ [Token.directive, .documentStart]) then
    set (tokens.dropWhile (· = .directive))
    if (← peek?) = some .documentStart then
      skip
      if (← get).isEmpty then return .null
      else orNull [.directive, .documentStart, .documentEnd] (node nestingLimit true false)
    else failure
  else node nestingLimit true false

/-- The tree of a text. -/
def parse (text : String) : Option Tree := do
  let (tree, rest) ← document (← Token.ofText text)
  if rest.all (· = .documentEnd) then some tree else none

end GraphQL.Yaml
