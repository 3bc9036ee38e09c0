import GraphQL.Json.Value

/-!
The tokens of JSON text.

A number or a string can be well-formed as text and still stand for no value: a number beyond the
range of doubles, or a string with half a surrogate pair. Such tokens carry `none`; whether that
matters is for the reader of the value to say.
-/

set_option autoImplicit false

namespace GraphQL.Json

inductive Token where
  | openArray
  | closeArray
  | openObject
  | closeObject
  | colon
  | comma
  | null
  | bool (b : Bool)
  | number (n : Option Number)
  | string (s : Option String)
  deriving Repr

namespace Token

def hexDigit? (c : Char) : Option Nat :=
  if '0' ≤ c ∧ c ≤ '9' then some (c.toNat - '0'.toNat)
  else if 'a' ≤ c ∧ c ≤ 'f' then some (c.toNat - 'a'.toNat + 10)
  else if 'A' ≤ c ∧ c ≤ 'F' then some (c.toNat - 'A'.toNat + 10)
  else none

def hexUnit? (a b c d : Char) : Option Nat := do
  return (((← hexDigit? a) * 16 + (← hexDigit? b)) * 16 + (← hexDigit? c)) * 16 + (← hexDigit? d)

def escaped? : Char → Option Char
  | '"' => some '"'
  | '\\' => some '\\'
  | '/' => some '/'
  | 'b' => some '\x08'
  | 'f' => some '\x0c'
  | 'n' => some '\n'
  | 'r' => some '\r'
  | 't' => some '\t'
  | _ => none

/-- A UTF-16 code unit or a character, as the body of a string is read. -/
inductive Piece where
  | char (c : Char)
  | unit (u : Nat)

/-- The body of a string up to its closing quote, and what follows the quote. -/
def stringBody : List Char → Option (List Piece × List Char)
  | [] => none
  | '"' :: rest => some ([], rest)
  | '\\' :: 'u' :: a :: b :: c :: d :: rest => do
    let u ← hexUnit? a b c d
    let (pieces, rest) ← stringBody rest
    return (.unit u :: pieces, rest)
  | '\\' :: c :: rest => do
    let e ← escaped? c
    let (pieces, rest) ← stringBody rest
    return (.char e :: pieces, rest)
  | c :: rest =>
    if c.toNat < 0x20 ∨ c = '\\' then none
    else do
      let (pieces, rest) ← stringBody rest
      return (.char c :: pieces, rest)

theorem stringBody_length {cs : List Char} {pieces : List Piece} {rest : List Char}
    (h : stringBody cs = some (pieces, rest)) : rest.length < cs.length := by
  fun_induction stringBody cs generalizing pieces rest with
  | case1 => simp at h
  | case2 r => simp at h; simp [h.2]
  | case3 a b c d r ih =>
    simp only [Option.bind_eq_bind, Option.bind_eq_some_iff] at h
    obtain ⟨u, _, ⟨p, r'⟩, hb, he⟩ := h
    simp at he
    have := ih hb
    simp [← he.2]; omega
  | case4 c r _ ih =>
    simp only [Option.bind_eq_bind, Option.bind_eq_some_iff] at h
    obtain ⟨u, _, ⟨p, r'⟩, hb, he⟩ := h
    simp at he
    have := ih hb
    simp [← he.2]; omega
  | case5 => simp at h
  | case6 c r _ _ _ _ ih =>
    simp only [Option.bind_eq_bind, Option.bind_eq_some_iff] at h
    obtain ⟨⟨p, r'⟩, hb, he⟩ := h
    simp at he
    have := ih hb
    simp [← he.2]; omega

/-- Joins surrogate pairs; half a pair has no text. -/
def joinUnits : List Piece → Option (List Char)
  | [] => some []
  | .char c :: rest => (joinUnits rest).map (c :: ·)
  | .unit high :: .unit low :: rest =>
    if 0xD800 ≤ high ∧ high < 0xDC00 ∧ 0xDC00 ≤ low ∧ low < 0xE000 then
      (joinUnits rest).map (Char.ofNat (0x10000 + (high - 0xD800) * 0x400 + (low - 0xDC00)) :: ·)
    else if 0xD800 ≤ high ∧ high < 0xE000 then none
    else (joinUnits (.unit low :: rest)).map (Char.ofNat high :: ·)
  | .unit u :: rest =>
    if 0xD800 ≤ u ∧ u < 0xE000 then none else (joinUnits rest).map (Char.ofNat u :: ·)

def natOfDigits (digits : List Char) : Nat :=
  digits.foldl (fun n c => n * 10 + (c.toNat - '0'.toNat)) 0

def isNumberChar (c : Char) : Bool :=
  c.isDigit || c == '+' || c == '-' || c == '.' || c == 'e' || c == 'E'

/-- Digits without a leading zero. -/
def isWhole : List Char → Bool
  | [] => false
  | ['0'] => true
  | '0' :: _ => false
  | digits => digits.all Char.isDigit

/-- The exponent part, `e` included; absent means zero. -/
def exponent? : List Char → Option Int
  | [] => some 0
  | e :: rest =>
    if e != 'e' && e != 'E' then none
    else
      let (negative, digits) := match rest with
        | '-' :: digits => (true, digits)
        | '+' :: digits => (false, digits)
        | digits => (false, digits)
      if digits.isEmpty || !digits.all Char.isDigit then none
      else some (if negative then -(natOfDigits digits : Int) else natOfDigits digits)

/-- The number that a text spells. The outer `none` is a text that is no number, the inner one a
number beyond the range of doubles. -/
def number? (text : List Char) : Option (Option Number) :=
  let (negative, text) := match text with
    | '-' :: text => (true, text)
    | text => (false, text)
  let whole := text.takeWhile Char.isDigit
  let rest := text.drop whole.length
  let fraction := match rest with
    | '.' :: digits => digits.takeWhile Char.isDigit
    | _ => []
  let tail := match rest with
    | '.' :: digits => digits.drop fraction.length
    | rest => rest
  if !isWhole whole || (fraction.isEmpty && rest.head? == some '.') then none
  else if rest.isEmpty then
    let n := natOfDigits whole
    if negative && 0 < n && n ≤ Nat.pow 2 63 then some (some (.int (-n)))
    else if !negative && n < Nat.pow 2 64 then some (some (.int n))
    else
      let x := Binary64.ofDecimal negative n 0
      some (if x.isFinite then some (.double x) else none)
  else
    (exponent? tail).map fun e =>
      let x := Binary64.ofDecimal negative (natOfDigits (whole ++ fraction)) (e - fraction.length)
      if x.isFinite then some (.double x) else none

def punctuation? : Char → Option Token
  | '[' => some openArray
  | ']' => some closeArray
  | '{' => some openObject
  | '}' => some closeObject
  | ':' => some colon
  | ',' => some comma
  | _ => none

def word? : List Char → Option Token
  | ['n', 'u', 'l', 'l'] => some null
  | ['t', 'r', 'u', 'e'] => some (bool true)
  | ['f', 'a', 'l', 's', 'e'] => some (bool false)
  | _ => none

def isBlank (c : Char) : Bool := c == ' ' || c == '\n' || c == '\r' || c == '\t'

/-- The tokens of a text; `none` if some part of it is no token. -/
def scan : List Char → Option (List Token)
  | [] => some []
  | c :: cs =>
    if isBlank c then scan cs
    else if let some t := punctuation? c then (scan cs).map (t :: ·)
    else if c = '"' then
      match h : stringBody cs with
      | none => none
      | some (pieces, rest) =>
        have := stringBody_length h
        (scan rest).map (string ((joinUnits pieces).map String.ofList) :: ·)
    else if isNumberChar c then do
      let n ← number? (c :: cs.takeWhile isNumberChar)
      let rest ← scan (cs.drop (cs.takeWhile isNumberChar).length)
      return number n :: rest
    else do
      let w ← word? (c :: cs.takeWhile Char.isAlpha)
      let rest ← scan (cs.drop (cs.takeWhile Char.isAlpha).length)
      return w :: rest
termination_by cs => cs.length
decreasing_by all_goals simp only [List.length_cons, List.length_drop]; omega

end Token

end GraphQL.Json
