/-!
A place in a YAML text and the text from there on.

Columns are counted from the last line feed; a lone carriage return ends a line for the reader of a
scalar but starts no new column count.
-/

set_option autoImplicit false

namespace GraphQL.Yaml

def isBlank (c : Char) : Bool := c == ' ' || c == '\t'

def isBreak (c : Char) : Bool := c == '\n' || c == '\r'

def isSpace (c : Char) : Bool := isBlank c || isBreak c

/-- The marks of flow collections. -/
def isFlowMark (c : Char) : Bool :=
  c == '[' || c == ']' || c == '\x7b' || c == '\x7d' || c == ','

/-- Whether a word ends before `next`: at white space, or at the end of the text. -/
def endsWord (next : Option Char) : Bool := next.all isSpace

structure Cursor where
  rest : List Char
  /-- How many characters have been passed. -/
  index : Nat
  line : Nat
  column : Nat
  deriving Repr

namespace Cursor

/-- A text ends at its first null character. -/
def ofText (text : String) : Cursor := ⟨text.toList.takeWhile (· != '\x00'), 0, 0, 0⟩

def next (c : Cursor) : Cursor :=
  match c.rest with
  | [] => c
  | a :: rest =>
    if a = '\n' then ⟨rest, c.index + 1, c.line + 1, 0⟩
    else ⟨rest, c.index + 1, c.line, c.column + 1⟩

def skip : Nat → Cursor → Cursor
  | 0, c => c
  | n + 1, c => skip n c.next

theorem rest_next (c : Cursor) : c.next.rest = c.rest.drop 1 := by
  unfold next
  split
  · simp_all
  · split <;> simp_all

theorem rest_skip (n : Nat) (c : Cursor) : (c.skip n).rest = c.rest.drop n := by
  induction n generalizing c with
  | zero => rfl
  | succ n ih => rw [skip, ih, rest_next, List.drop_drop, Nat.add_comm]

/-- Whether a line begins here with three times `mark`, standing alone. -/
def atTriple (mark : Char) (c : Cursor) : Bool :=
  c.column == 0 && c.rest.take 3 == [mark, mark, mark] && endsWord c.rest[3]?

/-- Whether a line begins here that separates documents. -/
def atDocumentMark (c : Cursor) : Bool := c.atTriple '-' || c.atTriple '.'

end Cursor

end GraphQL.Yaml
