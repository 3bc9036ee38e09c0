import GraphQL.Json.Reader
import GraphQL.Yaml.Cursor

/-!
The scalars of YAML: how quoted and plain ones are read off a text, and what a plain one stands
for.

White space within a scalar that holds a line break is folded: one break becomes a space, and of
more than one all but the first are kept.
-/

set_option autoImplicit false

namespace GraphQL.Yaml

open Json (Token Tree)

/-- How many line breaks a run of white space holds. -/
def lineBreaks : List Char → Nat
  | [] => 0
  | '\r' :: '\n' :: cs => lineBreaks cs + 1
  | c :: cs => if isBreak c then lineBreaks cs + 1 else lineBreaks cs

/-- What a run of white space within a scalar stands for. -/
def fold (gap : List Char) : List Char :=
  match lineBreaks gap with
  | 0 => gap
  | 1 => [' ']
  | n + 1 => List.replicate n '\n'

def digit? (base : Nat) (c : Char) : Option Nat := (Token.hexDigit? c).filter (· < base)

def digits? (base : Nat) (cs : List Char) : Option Nat :=
  if cs.isEmpty then none else cs.foldlM (fun n c => (digit? base c).map (n * base + ·)) 0

namespace Quoted

def escaped? : Char → Option Char
  | '0' => some '\x00'
  | 'a' => some '\x07'
  | 'b' => some '\x08'
  | 't' => some '\t'
  | '\t' => some '\t'
  | 'n' => some '\n'
  | 'v' => some '\x0b'
  | 'f' => some '\x0c'
  | 'r' => some '\r'
  | 'e' => some '\x1b'
  | ' ' => some ' '
  | '"' => some '"'
  | '\'' => some '\''
  | '\\' => some '\\'
  | 'N' => some '\u0085'
  | '_' => some '\u00a0'
  | 'L' => some '\u2028'
  | 'P' => some '\u2029'
  | _ => none

/-- How many hexadecimal digits follow the letter of an escape. -/
def codeLength? : Char → Option Nat
  | 'x' => some 2
  | 'u' => some 4
  | 'U' => some 8
  | _ => none

/-- What the text after a backslash denotes, and how many characters spell it. -/
def escape? : List Char → Option (Char × Nat)
  | [] => none
  | c :: cs =>
    match codeLength? c with
    | none => (escaped? c).map (·, 1)
    | some length => do
      let digits := cs.take length
      if digits.length < length then none
      else
        let n ← digits? 16 digits
        if n.isValidChar then some (Char.ofNat n, length + 1) else none

theorem takeWhile_pos {p : Char → Bool} {a : Char} {rest : List Char} (h : p a = true) :
    0 < ((a :: rest).takeWhile p).length := by
  simp [h]

/-- The contents of a quoted scalar from `c` on, and the cursor after its closing quote. Only
between double quotes does a backslash escape; there it also takes away a line break. No line in it
may separate documents. -/
def read (quote : Char) (c : Cursor) : Option (List Char × Cursor) :=
  match _hc : c.rest with
  | [] => none
  | a :: rest =>
    if ha : isSpace a then
      let gap := (a :: rest).takeWhile isSpace
      have : 0 < ((a :: rest).takeWhile isSpace).length := takeWhile_pos ha
      let after := c.skip gap.length
      if after.atDocumentMark then none
      else (read quote after).map fun (text, c) => (fold gap ++ text, c)
    else if a == quote then
      if quote == '\'' && rest.head? == some '\'' then
        (read quote (c.skip 2)).map fun (text, c) => ('\'' :: text, c)
      else some ([], c.next)
    else if a == '\\' && quote == '"' then
      if rest.head?.any isBreak then
        let line := if rest.take 2 == ['\r', '\n'] then 3 else 2
        let gap := (rest.drop (line - 1)).takeWhile isSpace
        let after := c.skip (line + gap.length)
        if after.atDocumentMark then none
        else (read quote after).map fun (text, c) =>
          (List.replicate (lineBreaks gap) '\n' ++ text, c)
      else
        match escape? rest with
        | none => none
        | some (ch, length) =>
          (read quote (c.skip (length + 1))).map fun (text, c) => (ch :: text, c)
    else (read quote c.next).map fun (text, c) => (a :: text, c)
termination_by c.rest.length
decreasing_by
  all_goals
    simp only [Cursor.rest_skip, Cursor.rest_next, List.length_drop, _hc, List.length_cons] at *
  all_goals first | omega | (split <;> omega)

end Quoted

namespace Plain

/-- The word that begins a text: up to white space, a colon before white space, and within a flow
collection its marks. -/
def word (inFlow : Bool) : List Char → List Char
  | [] => []
  | c :: cs =>
    if isSpace c then []
    else if c == ':' && (endsWord cs.head? || (inFlow && cs.head?.any isFlowMark)) then []
    else if inFlow && isFlowMark c then []
    else c :: word inFlow cs

/-- Whether white space from a column on, `broken` by a line break or not, holds a tab in the
indentation. -/
def tabIndented (indent : Nat) (broken : Bool) (column : Nat) : List Char → Bool
  | [] => false
  | c :: cs =>
    if c == '\n' then tabIndented indent true 0 cs
    else if c == '\r' then tabIndented indent true (column + 1) cs
    else (broken && column < indent && c == '\t') || tabIndented indent broken (column + 1) cs

/-- A plain scalar as read: its text, whether a line break came after it, and the place after
that. -/
structure Reading where
  text : List Char
  broken : Bool
  after : Cursor

/-- A plain scalar goes on over line breaks for as long as its lines are indented to column
`indent`; within a flow collection they need not be. -/
def read (inFlow : Bool) (indent : Nat) (c : Cursor) : Option Reading :=
  let text := word inFlow c.rest
  let ended := c.skip text.length
  let gap := ended.rest.takeWhile isSpace
  if _h : gap = [] then some ⟨text, false, ended⟩
  else if tabIndented indent false ended.column gap then none
  else
    let after := ended.skip gap.length
    if (!inFlow && after.column < indent) || after.atDocumentMark ||
        after.rest.head? == some '#' || (word inFlow after.rest).isEmpty then
      some ⟨text, 0 < lineBreaks gap, after⟩
    else (read inFlow indent after).map fun r => { r with text := text ++ fold gap ++ r.text }
termination_by c.rest.length
decreasing_by
  have h₁ : 0 < gap.length := List.length_pos_iff.2 _h
  have h₂ : gap.length ≤ ended.rest.length :=
    (List.takeWhile_prefix isSpace).length_le
  have h₃ : ended.rest.length ≤ c.rest.length := by simp [ended, Cursor.rest_skip]
  have h₄ : (ended.skip gap.length).rest.length = ended.rest.length - gap.length := by
    rw [Cursor.rest_skip, List.length_drop]
  show (ended.skip gap.length).rest.length < c.rest.length
  omega

/-- The digits of an integer without a minus sign, in base 16, 8 or 2 after a mark of the base; a
plus sign may come before and after that mark. -/
def natural? (cs : List Char) : Option Nat :=
  let unsigned (cs : List Char) := if cs.head? == some '+' then cs.drop 1 else cs
  let cs := unsigned cs
  match cs with
  | '0' :: 'x' :: cs => digits? 16 (unsigned cs)
  | '0' :: 'o' :: cs => digits? 8 (unsigned cs)
  | '0' :: 'b' :: cs => digits? 2 (unsigned cs)
  | cs => digits? 10 cs

/-- As `natural?` reads, after a minus sign and with no other sign. -/
def negative? (cs : List Char) : Option Nat := if '+' ∈ cs then none else natural? cs

/-- Digits with a needless zero in front are no number. -/
def hasLeadingZero (cs : List Char) : Bool :=
  1 < cs.length && cs.head? == some '0' && cs.all Char.isDigit

def integer? (cs : List Char) : Option Int :=
  match cs with
  | '-' :: digits =>
    if hasLeadingZero digits then none else (negative? digits).map fun n => -(n : Int)
  | '+' :: digits => if hasLeadingZero digits then none else (natural? cs).map Int.ofNat
  | _ => if hasLeadingZero cs then none else (natural? cs).map Int.ofNat

/-- What a plain scalar stands for. -/
def tree (text : String) : Tree :=
  if text = "~" ∨ text = "null" then .null
  else if text = "true" then .bool true
  else if text = "false" then .bool false
  else
    match integer? text.toList with
    | some i => .number (some (.int i))
    | none => .string (some text)

end Plain

end GraphQL.Yaml
