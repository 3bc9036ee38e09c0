/-!
The contents of string literals.

A quoted string ends at the first quote that is not escaped and stays on one line, save that a
line end may come right after the opening quote. A block string
ends at the first three quotes that are not escaped; its contents are its lines less their common
indentation and less the blank lines around them.
-/

set_option autoImplicit false

namespace GraphQL.Syntax.StringValue

def hexDigit? (c : Char) : Option Nat :=
  if '0' ≤ c ∧ c ≤ '9' then some (c.toNat - '0'.toNat)
  else if 'a' ≤ c ∧ c ≤ 'f' then some (c.toNat - 'a'.toNat + 10)
  else if 'A' ≤ c ∧ c ≤ 'F' then some (c.toNat - 'A'.toNat + 10)
  else none

def hexNumber? (digits : List Char) : Option Nat :=
  if digits.isEmpty then none
  else digits.foldlM (fun n c => (hexDigit? c).map (n * 16 + ·)) 0

def scalar? (n : Nat) : Option Char :=
  if n.isValidChar then some (Char.ofNat n) else none

def escaped? : Char → Option Char
  | '"' => some '"'
  | '\\' => some '\\'
  | '/' => some '/'
  | 'b' => some '\x08'
  | 'f' => some '\x0c'
  | 'n' => some '\n'
  | 'r' => some '\r'
  | 't' => some '\t'
  | _ => none

def isHighSurrogate (n : Nat) : Bool := 0xD800 ≤ n && n < 0xDC00

def isLowSurrogate (n : Nat) : Bool := 0xDC00 ≤ n && n < 0xE000

/-- What the text after `\u` denotes, and how many characters spell it: a number in braces, four
digits, or two groups of four digits that are a surrogate pair. -/
def unicode? (cs : List Char) : Option (Char × Nat) :=
  match cs with
  | '\x7b' :: rest => do
    let digits := rest.takeWhile (· != '\x7d')
    if rest.length = digits.length then none
    else return (← scalar? (← hexNumber? digits), digits.length + 2)
  | a :: b :: c :: d :: rest => do
    let high ← hexNumber? [a, b, c, d]
    match scalar? high, rest with
    | some ch, _ => return (ch, 4)
    | none, '\\' :: 'u' :: e :: f :: g :: h :: _ => do
      let low ← hexNumber? [e, f, g, h]
      if isHighSurrogate high && isLowSurrogate low then
        return (← scalar? (0x10000 + (high - 0xD800) * 0x400 + (low - 0xDC00)), 10)
      else none
    | none, _ => none
  | _ => none

def isLineEnd (c : Char) : Bool := c == '\n' || c == '\r'

/-- The rest of the contents of a quoted string, and the text after it. -/
def quoted : List Char → Option (List Char × List Char)
  | [] => none
  | '"' :: rest => some ([], rest)
  | '\\' :: 'u' :: rest => do
    let (c, length) ← unicode? rest
    let (contents, rest) ← quoted (rest.drop length)
    return (c :: contents, rest)
  | '\\' :: c :: rest => do
    let e ← escaped? c
    let (contents, rest) ← quoted rest
    return (e :: contents, rest)
  | c :: rest =>
    if isLineEnd c || c == '\\' then none
    else do
      let (contents, rest) ← quoted rest
      return (c :: contents, rest)
termination_by cs => cs.length
decreasing_by all_goals simp only [List.length_cons, List.length_drop]; omega

theorem quoted_length {cs contents rest : List Char} (h : quoted cs = some (contents, rest)) :
    rest.length < cs.length := by
  fun_induction quoted cs generalizing contents rest with
  | case1 => simp at h
  | case2 r => simp at h; simp [h.2]
  | case3 r ih =>
    simp only [Option.bind_eq_bind, Option.bind_eq_some_iff] at h
    obtain ⟨⟨c, n⟩, _, ⟨s, r'⟩, hq, he⟩ := h
    simp at he
    have := ih n hq
    simp only [List.length_drop] at this
    simp [← he.2]; omega
  | case4 c r _ ih =>
    simp only [Option.bind_eq_bind, Option.bind_eq_some_iff] at h
    obtain ⟨e, _, ⟨s, r'⟩, hq, he⟩ := h
    simp at he
    have := ih hq
    simp [← he.2]; omega
  | case5 => simp at h
  | case6 c r _ _ _ _ ih =>
    simp only [Option.bind_eq_bind, Option.bind_eq_some_iff] at h
    obtain ⟨⟨s, r'⟩, hq, he⟩ := h
    simp at he
    have := ih hq
    simp [← he.2]; omega

/-- The contents of a quoted string whose opening quote has been read, and the text after it. -/
def afterQuote : List Char → Option (List Char × List Char)
  | [] => none
  | c :: rest =>
    if isLineEnd c then (quoted rest).map fun (contents, rest) => (c :: contents, rest)
    else quoted (c :: rest)

theorem afterQuote_length {cs contents rest : List Char}
    (h : afterQuote cs = some (contents, rest)) : rest.length < cs.length := by
  cases cs with
  | nil => simp [afterQuote] at h
  | cons c r =>
    by_cases hc : isLineEnd c
    · simp only [afterQuote, hc, if_true, Option.map_eq_some_iff] at h
      obtain ⟨⟨s, r'⟩, hq, he⟩ := h
      simp only [Prod.mk.injEq] at he
      have := quoted_length hq
      simp [← he.2]; omega
    · simp only [afterQuote, hc] at h
      exact quoted_length h

/-- The raw text of a block string whose opening quotes have been read, and the text after it.
Three quotes after a backslash stand for three quotes. -/
def blockRaw : List Char → Option (List Char × List Char)
  | [] => none
  | '\\' :: '"' :: '"' :: '"' :: rest => do
    let (raw, rest) ← blockRaw rest
    return ('"' :: '"' :: '"' :: raw, rest)
  | '"' :: '"' :: '"' :: rest => some ([], rest)
  | c :: rest => do
    let (raw, rest) ← blockRaw rest
    return (c :: raw, rest)

theorem blockRaw_length {cs raw rest : List Char} (h : blockRaw cs = some (raw, rest)) :
    rest.length < cs.length := by
  fun_induction blockRaw cs generalizing raw rest with
  | case1 => simp at h
  | case2 r ih =>
    simp only [Option.bind_eq_bind, Option.bind_eq_some_iff] at h
    obtain ⟨⟨s, r'⟩, hq, he⟩ := h
    simp at he
    have := ih hq
    simp [← he.2]; omega
  | case3 r => simp at h; simp [h.2]; omega
  | case4 c r _ _ ih =>
    simp only [Option.bind_eq_bind, Option.bind_eq_some_iff] at h
    obtain ⟨⟨s, r'⟩, hq, he⟩ := h
    simp at he
    have := ih hq
    simp [← he.2]; omega

/-- The lines of a text; a carriage return and a line feed together end one line. -/
def lines : List Char → List (List Char)
  | [] => [[]]
  | '\r' :: '\n' :: rest => [] :: lines rest
  | c :: rest =>
    if isLineEnd c then [] :: lines rest
    else
      match lines rest with
      | [] => [[c]]
      | line :: lines => (c :: line) :: lines

def isIndent (c : Char) : Bool := c == ' ' || c == '\t'

def isBlankLine (line : List Char) : Bool := line.all isIndent

def indentation (line : List Char) : Nat := (line.takeWhile isIndent).length

/-- The least indentation of the lines that are not blank. -/
def commonIndent (lines : List (List Char)) : Nat :=
  (((lines.filter (!isBlankLine ·)).map indentation).min?).getD 0

/-- Takes the common indentation off every line but the first, and then blank lines off both
ends. -/
def block (raw : List Char) : List Char :=
  match lines raw with
  | [] => []
  | first :: others =>
    let indent := commonIndent others
    let all := first :: others.map (List.drop indent)
    let trimmed := ((all.dropWhile isBlankLine).reverse.dropWhile isBlankLine).reverse
    (['\n'] : List Char).intercalate trimmed

end GraphQL.Syntax.StringValue
