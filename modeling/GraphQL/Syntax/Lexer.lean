import GraphQL.Syntax.Token
import GraphQL.Syntax.StringValue

/-!
Splitting GraphQL text into tokens.

Blanks, line ends, commas, comments and byte order marks stand between tokens and mean nothing;
only of a comma does the token after it keep a trace.
-/

set_option autoImplicit false

namespace GraphQL.Syntax

namespace Punctuator

def ofChar? : Char → Option Punctuator
  | '!' => some bang
  | '$' => some dollar
  | '&' => some ampersand
  | '(' => some openParen
  | ')' => some closeParen
  | ':' => some colon
  | '=' => some equals
  | '@' => some .at
  | '[' => some openBracket
  | ']' => some closeBracket
  | '\x7b' => some openBrace
  | '|' => some pipe
  | '\x7d' => some closeBrace
  | _ => none

end Punctuator

namespace Lexeme

def isIgnored (c : Char) : Bool :=
  c == ' ' || c == '\t' || c == '\n' || c == '\r' || c == ',' || c == '\ufeff'

def isNameStart (c : Char) : Bool := c.isAlpha || c == '_'

def isNamePart (c : Char) : Bool := c.isAlphanum || c == '_'

def isWhole : List Char → Bool
  | [] => false
  | ['0'] => true
  | '0' :: _ => false
  | digits => digits.all Char.isDigit

/-- The integer part, the fraction and the exponent part of a number's spelling. -/
structure Spelling where
  negative : Bool
  whole : List Char
  /-- The digits after the point, if there is one. -/
  fraction : Option (List Char)
  /-- What follows the `e`, if there is one. -/
  exponent : Option (List Char)
  deriving Repr

namespace Spelling

def ofChars (text : List Char) : Spelling :=
  let negative := text.head? == some '-'
  let text := if negative then text.drop 1 else text
  let whole := text.takeWhile Char.isDigit
  let rest := text.drop whole.length
  let (fraction, rest) := match rest with
    | '.' :: rest =>
      let digits := rest.takeWhile Char.isDigit
      (some digits, rest.drop digits.length)
    | rest => (none, rest)
  let exponent := match rest with
    | 'e' :: rest => some rest
    | 'E' :: rest => some rest
    | [] => none
    | rest => some ('e' :: rest)
  ⟨negative, whole, fraction, exponent⟩

def isDigits (cs : List Char) : Bool := !cs.isEmpty && cs.all Char.isDigit

def unsigned : List Char → List Char
  | '+' :: cs => cs
  | '-' :: cs => cs
  | cs => cs

def isValid (s : Spelling) : Bool :=
  isWhole s.whole && s.fraction.all isDigits && s.exponent.all fun e => isDigits (unsigned e)

def isInt (s : Spelling) : Bool := s.fraction.isNone && s.exponent.isNone

end Spelling

/-- The run of characters that continues a number after `previous`. A sign belongs to it only after
an exponent mark. -/
def numberTail (previous : Char) : List Char → List Char
  | [] => []
  | c :: cs =>
    if isNamePart c || c == '.' || ((c == '+' || c == '-') && (previous == 'e' || previous == 'E'))
    then c :: numberTail c cs
    else []

/-- The lexeme that a run of number characters spells; the whole run must be one number. -/
def number? (text : List Char) : Option Lexeme :=
  let s := Spelling.ofChars text
  if !s.isValid then none
  else if s.isInt then some (int (String.ofList text))
  else some (float (String.ofList text))

end Lexeme

/-- How many bytes a run of characters takes. -/
def byteCount (cs : List Char) : Nat := cs.foldl (fun n c => n + c.utf8Size) 0

open Lexeme in
/-- The tokens of the rest of a text, which starts at byte `offset`; `comma` tells whether a comma
was seen since the last token. -/
def scan (index : LineIndex) (offset : Nat) (comma : Bool) :
    List Char → Except SyntaxError (List Token)
  | [] => .ok []
  | c :: cs =>
    let token (lexeme : Lexeme) : Token := ⟨lexeme, offset, index.location offset, comma⟩
    if isIgnored c then scan index (offset + c.utf8Size) (comma || c == ',') cs
    else if c = '#' then
      let comment := cs.takeWhile (!StringValue.isLineEnd ·)
      scan index (offset + 1 + byteCount comment) comma (cs.drop comment.length)
    else if let some p := Punctuator.ofChar? c then
      (scan index (offset + 1) false cs).map (token (punctuator p) :: ·)
    else if c = '.' then
      match cs with
      | '.' :: '.' :: rest =>
        (scan index (offset + 3) false rest).map (token (punctuator .spread) :: ·)
      | _ => .error (.unexpected offset)
    else if isNameStart c then
      let rest := cs.takeWhile isNamePart
      (scan index (offset + 1 + rest.length) false (cs.drop rest.length)).map
        (token (name (String.ofList (c :: rest))) :: ·)
    else if c.isDigit || c == '-' then
      let tail := numberTail c cs
      match number? (c :: tail) with
      | some lexeme =>
        (scan index (offset + 1 + tail.length) false (cs.drop tail.length)).map (token lexeme :: ·)
      | none => .error (.unexpected offset)
    else if c = '"' then
      match cs with
      | '"' :: '"' :: body =>
        match h : StringValue.blockRaw body with
        | some (raw, rest) =>
          have := StringValue.blockRaw_length h
          let size := byteCount body - byteCount rest
          (scan index (offset + 3 + size) false rest).map
            (token (string (String.ofList (StringValue.block raw))) :: ·)
        | none => .error (.unexpected offset)
      | body =>
        match h : StringValue.afterQuote body with
        | some (contents, rest) =>
          have := StringValue.afterQuote_length h
          let size := byteCount body - byteCount rest
          (scan index (offset + 1 + size) false rest).map
            (token (string (String.ofList contents)) :: ·)
        | none => .error (.unexpected offset)
    else .error (.unexpected offset)
termination_by cs => cs.length
decreasing_by all_goals simp only [List.length_cons, List.length_drop] at *; omega

namespace Token

/-- The tokens of a text. -/
def ofText (text : String) : Except SyntaxError (List Token) :=
  scan (LineIndex.ofText text) 0 false text.toList

end Token

end GraphQL.Syntax
