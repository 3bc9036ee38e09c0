import GraphQL.Yaml.Scalar

/-!
Splitting YAML text into tokens.

Blocks have no brackets in the text: a block mapping or sequence opens where a key or an entry
stands deeper than the block around it, and closes before the first line that is less indented. A
scalar or a flow collection turns out to be a key only at the colon after it, which is on the same
line and not more than 1024 characters away; its token is then preceded by `key`, and by
`openMapping` if it opens a block. There are no anchors, aliases, tags and block scalars.
-/

set_option autoImplicit false

namespace GraphQL.Yaml

inductive Token where
  | directive
  | documentStart
  | documentEnd
  /-- Blocks. -/
  | blockMapping
  | blockSequence
  | blockEnd
  /-- An item of a block sequence. -/
  | entry
  /-- Flow collections. -/
  | openMapping
  | closeMapping
  | openSequence
  | closeSequence
  | comma
  /-- Before a key and before a value. -/
  | key
  | value
  | plain (text : String)
  | quoted (text : String)
  deriving DecidableEq, Repr

/-- A place where a key may have begun. -/
structure KeyStart where
  place : Cursor
  /-- How many tokens come before it. -/
  tokens : Nat
  /-- Whether nothing but a key can stand there. -/
  required : Bool
  deriving Repr

namespace KeyStart

/-- How long a key may be. -/
def reach : Nat := 1024

/-- Whether the colon of a key may not come any more. -/
def isStale (now : Cursor) (k : KeyStart) : Bool :=
  k.place.line < now.line || k.place.index + reach < now.index

end KeyStart

/-- How far a text has been split. -/
structure Layout where
  cursor : Cursor
  /-- Latest first. -/
  tokens : List Token
  /-- The columns of the open blocks, innermost first. -/
  blocks : List Nat
  /-- Where the next key may have begun, in the innermost flow collection or outside of all. -/
  candidate : Option KeyStart
  /-- The same for what is around it; as many as there are open flow collections. -/
  outer : List (Option KeyStart)
  /-- Whether a key may begin here. -/
  keyAllowed : Bool
  /-- Where the last quoted scalar ended. -/
  quotedEnd : Option Nat

namespace Layout

def ofText (text : String) : Layout := ⟨.ofText text, [], [], none, [], true, none⟩

def inFlow (l : Layout) : Bool := !l.outer.isEmpty

/-- Takes `length` characters for a token. -/
def push (token : Token) (length : Nat) (l : Layout) : Layout :=
  { l with tokens := token :: l.tokens, cursor := l.cursor.skip length }

/-- Puts a token after the first `position` tokens. -/
def insert (token : Token) (position : Nat) (l : Layout) : Layout :=
  let later := l.tokens.length - position
  { l with tokens := l.tokens.take later ++ token :: l.tokens.drop later }

/-- Gives up the candidate for a key; it may not have been required. -/
def dropCandidate (l : Layout) : Option Layout :=
  if l.candidate.any (·.required) then none else some { l with candidate := none }

/-- Takes the next token as a candidate for a key if one may begin here. -/
def offerKey (l : Layout) : Option Layout :=
  if l.keyAllowed then do
    let required := l.inFlow && l.blocks.head? == some l.cursor.column
    let l ← l.dropCandidate
    return { l with candidate := some ⟨l.cursor, l.tokens.length, required⟩ }
  else some l

def dropStale (l : Layout) : Option Layout :=
  let stale (k : Option KeyStart) : Bool := k.any (·.isStale l.cursor)
  if (l.candidate :: l.outer).any fun k => stale k && k.any (·.required) then none
  else
    let keep (k : Option KeyStart) : Option KeyStart := if stale k then none else k
    some { l with candidate := keep l.candidate, outer := l.outer.map keep }

/-- Closes the blocks that stand deeper than `column`, or all. -/
def closeBlocks (column : Option Nat) (l : Layout) : Layout :=
  if l.inFlow then l
  else
    let closed := (l.blocks.takeWhile fun block => column.all (· < block)).length
    { l with
      tokens := List.replicate closed .blockEnd ++ l.tokens
      blocks := l.blocks.drop closed }

/-- Opens a block at `column` if that is deeper than the block around it; its token is put after
the first `position` tokens. -/
def openBlock (column : Nat) (token : Token) (position : Nat) (l : Layout) : Layout :=
  if !l.inFlow && l.blocks.head?.all (· < column) then
    { l.insert token position with blocks := column :: l.blocks }
  else l

/-- Passes white space and comments, which a number sign begins wherever a token could stand. A tab
is no white space where a key of a block may begin. -/
def skipSpace (l : Layout) : Layout :=
  match _h : l.cursor.rest with
  | [] => l
  | c :: _ =>
    if c == ' ' || (c == '\t' && (l.inFlow || !l.keyAllowed)) then
      skipSpace { l with cursor := l.cursor.next }
    else if isBreak c then
      skipSpace { l with cursor := l.cursor.next, keyAllowed := l.keyAllowed || !l.inFlow }
    else if c == '#' then
      let comment := (l.cursor.rest.drop 1).takeWhile (!isBreak ·)
      skipSpace { l with cursor := l.cursor.next.skip comment.length }
    else l
termination_by l.cursor.rest.length
decreasing_by
  all_goals simp only [Cursor.rest_next, Cursor.rest_skip, List.length_drop, _h,
    List.length_cons]
  all_goals omega

/-- The tokens that separate documents close all blocks. -/
def documentLine (token : Token) (length : Nat) (l : Layout) : Option Layout := do
  let l ← (l.closeBlocks none).dropCandidate
  return { l with keyAllowed := false }.push token length

/-- The length of a directive that takes a line; one that gives a version has two numbers. -/
def directive? (line : List Char) : Option Nat := do
  let name := line.takeWhile fun c => c.isAlphanum || c == '_' || c == '-'
  let rest := line.drop name.length
  guard (!name.isEmpty && endsWord rest.head?)
  if name = "TAG".toList then none
  else if name = "YAML".toList then
    let rest := rest.dropWhile isBlank
    let major := rest.takeWhile Char.isDigit
    let rest := rest.drop major.length
    guard (!major.isEmpty && rest.head? == some '.')
    let minor := (rest.drop 1).takeWhile Char.isDigit
    let rest := (rest.drop (minor.length + 1)).dropWhile isBlank
    guard (!minor.isEmpty && rest.head?.all (· == '#'))
    return line.length
  else return line.length

def openFlow (token : Token) (l : Layout) : Option Layout := do
  let l ← l.offerKey
  return { l with candidate := none, outer := l.candidate :: l.outer, keyAllowed := true }.push
    token 1

def closeFlow (token : Token) (l : Layout) : Option Layout := do
  let l ← l.dropCandidate
  let l := match l.outer with
    | [] => l
    | candidate :: outer => { l with candidate, outer }
  return { l with keyAllowed := false }.push token 1

def comma (l : Layout) : Option Layout := do
  return { (← l.dropCandidate) with keyAllowed := true }.push .comma 1

def entry (l : Layout) : Option Layout :=
  if l.inFlow || !l.keyAllowed then none
  else do
    let l ← (l.openBlock l.cursor.column .blockSequence l.tokens.length).dropCandidate
    return l.push .entry 1

/-- A question mark, which announces a key. -/
def announcedKey (l : Layout) : Option Layout :=
  if !l.inFlow && !l.keyAllowed then none
  else do
    let l ← (l.openBlock l.cursor.column .blockMapping l.tokens.length).dropCandidate
    return { l with keyAllowed := !l.inFlow }.push .key 1

/-- A colon: after a candidate for a key, which it confirms, or on its own. -/
def value (l : Layout) : Option Layout :=
  match l.candidate with
  | some k =>
    let l := (l.insert .key k.tokens).openBlock k.place.column .blockMapping k.tokens
    some ({ l with candidate := none, keyAllowed := false }.push .value 1)
  | none =>
    if !l.inFlow && !l.keyAllowed then none
    else
      let l := l.openBlock l.cursor.column .blockMapping l.tokens.length
      some ({ l with keyAllowed := !l.inFlow }.push .value 1)

def quotedScalar (quote : Char) (l : Layout) : Option Layout := do
  let l ← l.offerKey
  let (text, cursor) ← Quoted.read quote l.cursor.next
  return { l with
    tokens := .quoted (String.ofList text) :: l.tokens
    cursor
    keyAllowed := false
    quotedEnd := some cursor.index }

def plainScalar (l : Layout) : Option Layout := do
  let l ← l.offerKey
  let indent := (l.blocks.head?.map (· + 1)).getD 0
  let r ← Plain.read l.inFlow indent l.cursor
  return { l with
    tokens := .plain (String.ofList r.text) :: l.tokens
    cursor := r.after
    keyAllowed := r.broken }

/-- Reads what stands at the cursor. -/
def next (l : Layout) : Option Layout :=
  match l.cursor.rest with
  | [] => none
  | c :: rest =>
    let alone := endsWord rest.head?
    let adjoins := l.inFlow &&
      (rest.head?.any isFlowMark || l.quotedEnd == some l.cursor.index)
    if c == '%' && l.cursor.column == 0 then do
      l.documentLine .directive ((← directive? (rest.takeWhile (!isBreak ·))) + 1)
    else if l.cursor.atTriple '-' then l.documentLine .documentStart 3
    else if l.cursor.atTriple '.' then l.documentLine .documentEnd 3
    else if c == '[' then l.openFlow .openSequence
    else if c == '\x7b' then l.openFlow .openMapping
    else if c == ']' then l.closeFlow .closeSequence
    else if c == '\x7d' then l.closeFlow .closeMapping
    else if c == ',' then l.comma
    else if c == '-' && alone then l.entry
    else if c == '?' && alone then l.announcedKey
    else if c == ':' && (alone || adjoins) then l.value
    else if c == '\'' || c == '"' then l.quotedScalar c
    else if c == '*' || c == '&' || c == '!' || c == '%' || c == '@' || c == '\x60' then none
    else if (c == '|' || c == '>') && !l.inFlow then none
    else l.plainScalar

/-- The tokens of a text. -/
def split (l : Layout) : Option (List Token) := do
  let ready ← l.skipSpace.dropStale
  let ready := ready.closeBlocks (some ready.cursor.column)
  if ready.cursor.rest.isEmpty then
    let done ← (ready.closeBlocks none).dropCandidate
    return done.tokens.reverse
  else
    let after ← ready.next
    if _h : after.cursor.rest.length < l.cursor.rest.length then split after else none
termination_by l.cursor.rest.length

end Layout

def Token.ofText (text : String) : Option (List Token) := (Layout.ofText text).split

end GraphQL.Yaml
