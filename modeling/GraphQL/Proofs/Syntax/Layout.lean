import GraphQL.Proofs.Syntax.Names
import GraphQL.Proofs.Syntax.Numbers
import GraphQL.Proofs.Syntax.Strings

/-!
Texts in which words stand one after the other, and the tokens of such a text.

A text is laid out freely: blanks, line ends, commas, byte order marks and comments may stand
before, between and after its words. The tokens found in it are its words
(`Token.ofText_of_laid`).
-/

set_option autoImplicit false

namespace GraphQL.Syntax

namespace Punctuator

def chars : Punctuator → List Char
  | bang => ['!']
  | dollar => ['$']
  | ampersand => ['&']
  | openParen => ['(']
  | closeParen => [')']
  | spread => ['.', '.', '.']
  | colon => [':']
  | equals => ['=']
  | .at => ['@']
  | openBracket => ['[']
  | closeBracket => [']']
  | openBrace => ['\x7b']
  | pipe => ['|']
  | closeBrace => ['\x7d']

end Punctuator

namespace Lexeme

/-- The lexeme is spelled by `text`, and `rest` may come right after it. -/
inductive Spelled : Lexeme → (text rest : List Char) → Prop where
  | punctuator {p : Punctuator} {rest : List Char} : Spelled (punctuator p) p.chars rest
  | name {text : String} {rest : List Char} : IsName text →
      (∀ c ∈ rest.head?, isNamePart c = false) → Spelled (name text) text.toList rest
  | int {s : Spelling} {text : String} {rest : List Char} :
      s.isValid = true → s.isInt = true → text.toList = s.chars 'e' →
      (∀ c ∈ rest.head?, isNamePart c = false ∧ c ≠ '.') → Spelled (int text) text.toList rest
  | float {s : Spelling} {mark : Char} {text : String} {rest : List Char} :
      s.isValid = true → s.isInt = false → IsMark mark → text.toList = s.chars mark →
      (∀ c ∈ rest.head?, isNamePart c = false ∧ c ≠ '.') → Spelled (float text) text.toList rest
  /-- An empty string is told from the beginning of a block by what follows it. -/
  | quoted {contents text rest : List Char} : StringValue.Quotes contents text →
      (text = [] → rest.head? ≠ some '"') →
      Spelled (string (String.ofList contents)) ('"' :: (text ++ ['"'])) rest
  | block {raw text rest : List Char} : StringValue.Blocks raw text →
      Spelled (string (String.ofList (StringValue.block raw))) ('"' :: '"' :: '"' :: text) rest

end Lexeme

/-- A lexeme of a text. Before a joined one there is no comma. -/
structure Word where
  lexeme : Lexeme
  joined : Bool

/-- A punctuator by itself. -/
def sign (p : Punctuator) : Word := ⟨.punctuator p, false⟩

/-- A name by itself. -/
def word (text : String) : Word := ⟨.name text, false⟩

/-- The words stand in the text one after the other. -/
inductive Laid : List Word → (text : List Char) → Prop where
  | nil : Laid [] []
  | blank {c : Char} {ws : List Word} {text : List Char} : Lexeme.isIgnored c = true → c ≠ ',' →
      Laid ws text → Laid ws (c :: text)
  | comma {ws : List Word} {text : List Char} : (∀ w ∈ ws.head?, w.joined = false) →
      Laid ws text → Laid ws (',' :: text)
  | comment {body : List Char} {ws : List Word} {text : List Char} :
      (∀ c ∈ body, StringValue.isLineEnd c = false) →
      (∀ c ∈ text.head?, StringValue.isLineEnd c = true) →
      Laid ws text → Laid ws ('#' :: (body ++ text))
  | word {w : Word} {ws : List Word} {text rest : List Char} : w.lexeme.Spelled text rest →
      Laid ws rest → Laid (w :: ws) (text ++ rest)

namespace Laid

variable {ws : List Word} {rest : List Char}

theorem punctuator {p : Punctuator} (h : Laid ws rest) : Laid (sign p :: ws) (p.chars ++ rest) :=
  .word .punctuator h

theorem name {text : String} {c : Char} (hname : IsName text) (hc : Lexeme.isNamePart c = false)
    (h : Laid ws (c :: rest)) : Laid (Syntax.word text :: ws) (text.toList ++ c :: rest) :=
  .word (.name hname fun _ hd => Option.some.inj hd ▸ hc) h

theorem space (h : Laid ws rest) : Laid ws (' ' :: rest) := .blank rfl (by decide) h

end Laid

/-- The token is the word, with a comma before it only where one may stand. -/
def Token.Bears (t : Token) (w : Word) : Prop :=
  t.lexeme = w.lexeme ∧ (w.joined = true → t.afterComma = false)

open Lexeme

variable (index : LineIndex) (offset : Nat) (comma : Bool)

theorem scan_ignored {c : Char} (hc : isIgnored c = true) (text : List Char) :
    scan index offset comma (c :: text) =
      scan index (offset + c.utf8Size) (comma || c == ',') text := by
  rw [scan.eq_def]
  dsimp only
  rw [if_pos hc]

theorem scan_comment {body text : List Char}
    (hbody : ∀ c ∈ body, StringValue.isLineEnd c = false)
    (htext : ∀ c ∈ text.head?, StringValue.isLineEnd c = true) :
    scan index offset comma ('#' :: (body ++ text)) =
      scan index (offset + 1 + byteCount body) comma text := by
  have hrun : (body ++ text).takeWhile (!StringValue.isLineEnd ·) = body :=
    takeWhile_append_eq (fun c hc => by simp [hbody c hc]) fun c hc => by simp [htext c hc]
  rw [scan.eq_def]
  dsimp only
  rw [if_neg (by decide), if_pos rfl]
  simp only [hrun, List.drop_left]

theorem scan_punctuator {p : Punctuator} (rest : List Char) : ∃ offset',
    scan index offset comma (p.chars ++ rest) = (scan index offset' false rest).map
      (⟨punctuator p, offset, index.location offset, comma⟩ :: ·) := by
  have hone : ∀ c, isIgnored c = false → c ≠ '#' → Punctuator.ofChar? c = some p →
      scan index offset comma (c :: rest) = (scan index (offset + 1) false rest).map
        (⟨punctuator p, offset, index.location offset, comma⟩ :: ·) := by
    intro c hignored hcomment hp
    rw [scan.eq_def]
    simp only [hignored, hcomment, hp, Bool.false_eq_true, if_false]
  cases p with
  | spread =>
    refine ⟨offset + 3, ?_⟩
    rw [scan.eq_def]
    simp [Punctuator.chars, Punctuator.ofChar?, isIgnored]
  | _ => exact ⟨offset + 1, hone _ rfl (by decide) rfl⟩

/-- A character that begins neither ignored text nor a punctuator. -/
structure Begins (c : Char) : Prop where
  ignored : isIgnored c = false
  comment : c ≠ '#'
  punctuator : Punctuator.ofChar? c = none
  spread : c ≠ '.'

/-- It is enough to tell the character from all those that do. -/
theorem begins_of {P : Char → Bool} {c : Char} (hc : P c = true)
    (h : [' ', '\t', '\n', '\r', ',', '\ufeff', '#', '!', '$', '&', '(', ')', ':', '=', '@', '[',
      ']', '\x7b', '|', '\x7d', '.'].any P = false) : Begins c := by
  have hne : ∀ d ∈ [' ', '\t', '\n', '\r', ',', '\ufeff', '#', '!', '$', '&', '(', ')', ':', '=',
      '@', '[', ']', '\x7b', '|', '\x7d', '.'], c ≠ d := by
    rintro d hd rfl
    exact List.any_eq_false.1 h c hd hc
  simp only [List.forall_mem_cons, List.not_mem_nil, false_implies, implies_true, and_true] at hne
  refine ⟨by simp [isIgnored, hne], by simp [hne], ?_, by simp [hne]⟩
  unfold Punctuator.ofChar?
  split <;> simp_all

theorem scan_name {text : String} {rest : List Char} (h : IsName text)
    (hrest : ∀ c ∈ rest.head?, isNamePart c = false) : ∃ offset',
    scan index offset comma (text.toList ++ rest) = (scan index offset' false rest).map
      (⟨name text, offset, index.location offset, comma⟩ :: ·) := by
  obtain ⟨c, cs, htext, hc, hcs⟩ := h
  have hbegins : Begins c := begins_of hc (by decide)
  have hrun := takeWhile_append_eq hcs hrest
  have hname : String.ofList (c :: cs) = text := by rw [← htext, String.ofList_toList]
  rw [htext, List.cons_append, scan.eq_def]
  simp only [hbegins.ignored, hbegins.comment, hbegins.punctuator, hbegins.spread, hc, hrun, hname,
    List.drop_left, Bool.false_eq_true, if_false, if_true]
  exact ⟨_, rfl⟩

theorem scan_number {s : Spelling} {mark : Char} {rest : List Char} (hmark : IsMark mark)
    (hvalid : s.isValid = true) (hrest : ∀ c ∈ rest.head?, isNamePart c = false ∧ c ≠ '.') :
    ∃ offset', scan index offset comma (s.chars mark ++ rest) = (scan index offset' false rest).map
      (⟨if s.isInt then int (String.ofList (s.chars mark))
        else float (String.ofList (s.chars mark)), offset, index.location offset, comma⟩ :: ·) := by
  have hnumber := Spelling.number?_chars hmark hvalid
  obtain ⟨c, tail, hchars, hc, htail⟩ := continues_chars hmark hvalid
  have hrun := htail.numberTail_append hrest
  have hsign : (c.isDigit || c == '-') = true := by simpa using hc
  have hbegins : Begins c := begins_of (P := fun c => c.isDigit || c == '-') hsign (by decide)
  have hname : isNameStart c = false := by
    rcases hc with hc | rfl
    · exact PathElement.not_isNameStart_of_isDigit hc
    · rfl
  rw [hchars] at hnumber ⊢
  rw [List.cons_append, scan.eq_def]
  simp only [hbegins.ignored, hbegins.comment, hbegins.punctuator, hbegins.spread, hname, hsign,
    hrun, hnumber, List.drop_left, Bool.false_eq_true, if_false, if_true]
  exact ⟨_, rfl⟩

theorem begins_quote : Begins '"' :=
  begins_of (P := fun c => c == '"') (by decide) (by decide)

theorem not_name_quote : isNameStart '"' = false := rfl

theorem not_number_quote : (Char.isDigit '"' || '"' == '-') = false := rfl

theorem scan_quoted {contents text rest : List Char} (h : StringValue.Quotes contents text)
    (hrest : text = [] → rest.head? ≠ some '"') : ∃ offset',
    scan index offset comma ('"' :: (text ++ '"' :: rest)) = (scan index offset' false rest).map
      (⟨string (String.ofList contents), offset, index.location offset, comma⟩ :: ·) := by
  have hread := StringValue.afterQuote_of_quotes h rest
  have hblock : ∀ body, text ++ '"' :: rest ≠ '"' :: '"' :: body := by
    intro body heq
    cases text with
    | nil => exact hrest rfl (by rw [(List.cons.inj heq).2]; rfl)
    | cons c text => exact h.head_ne.1 (List.cons.inj heq).1
  rw [scan.eq_def]
  simp only [begins_quote.ignored, begins_quote.comment, begins_quote.punctuator,
    begins_quote.spread, not_name_quote, not_number_quote, Bool.false_eq_true, if_false, if_true]
  split
  · next hfound =>
    cases hread.symm.trans hfound
    exact ⟨_, rfl⟩
  · next hfound => cases hread.symm.trans hfound

theorem scan_block {raw text : List Char} (h : StringValue.Blocks raw text) (rest : List Char) :
    ∃ offset', scan index offset comma ('"' :: '"' :: '"' :: (text ++ rest)) =
      (scan index offset' false rest).map (⟨string (String.ofList (StringValue.block raw)), offset,
        index.location offset, comma⟩ :: ·) := by
  have hread := StringValue.blockRaw_of_blocks h rest
  rw [scan.eq_def]
  simp only [begins_quote.ignored, begins_quote.comment, begins_quote.punctuator,
    begins_quote.spread, not_name_quote, not_number_quote, Bool.false_eq_true, if_false, if_true]
  split
  · next hfound =>
    cases hread.symm.trans hfound
    exact ⟨_, rfl⟩
  · next hfound => cases hread.symm.trans hfound

/-- The first token of a text that begins with the spelling of a lexeme. -/
theorem scan_spelled {l : Lexeme} {text rest : List Char} (h : l.Spelled text rest) :
    ∃ offset', scan index offset comma (text ++ rest) =
      (scan index offset' false rest).map (⟨l, offset, index.location offset, comma⟩ :: ·) := by
  cases h with
  | punctuator => exact scan_punctuator index offset comma rest
  | name hname hrest => exact scan_name index offset comma hname hrest
  | int hvalid hint htext hrest =>
    have hscan := scan_number index offset comma (.inl rfl) hvalid hrest
    rwa [← htext, hint, if_pos rfl, String.ofList_toList] at hscan
  | float hvalid hfloat hmark htext hrest =>
    have hscan := scan_number index offset comma hmark hvalid hrest
    rwa [← htext, hfloat, if_neg (by decide), String.ofList_toList] at hscan
  | quoted hquotes hrest =>
    have hscan := scan_quoted index offset comma hquotes hrest
    rwa [← List.singleton_append (l := rest), ← List.append_assoc] at hscan
  | block hblocks => exact scan_block index offset comma hblocks rest

/-- The tokens of a text are the words that stand in it. -/
theorem scan_laid {ws : List Word} {text : List Char} (h : Laid ws text) :
    ∀ offset comma, (comma = true → ∀ w ∈ ws.head?, w.joined = false) →
      ∃ tokens, scan index offset comma text = .ok tokens ∧ List.Forall₂ Token.Bears tokens ws := by
  induction h with
  | nil => exact fun offset comma _ => ⟨[], by rw [scan], .nil⟩
  | blank hblank hc _ ih =>
    intro offset comma hcomma
    rw [scan_ignored index offset comma hblank, beq_false_of_ne hc, Bool.or_false]
    exact ih _ comma hcomma
  | comma hfree _ ih =>
    intro offset comma _
    rw [scan_ignored index offset comma (by decide)]
    exact ih _ _ fun _ => hfree
  | comment hbody hend _ ih =>
    intro offset comma hcomma
    rw [scan_comment index offset comma hbody hend]
    exact ih _ comma hcomma
  | word hspelled _ ih =>
    intro offset comma hcomma
    obtain ⟨offset', hscan⟩ := scan_spelled index offset comma hspelled
    obtain ⟨tokens, htokens, hbears⟩ := ih offset' false (by simp)
    rw [hscan, htokens]
    refine ⟨_, rfl, .cons ⟨rfl, fun hjoined => ?_⟩ hbears⟩
    -- a comma is told of by the flag, and does not stand before a joined word
    cases hc : comma with
    | false => rfl
    | true => exact absurd hjoined (by simp [hcomma hc _ rfl])

theorem Token.ofText_of_laid {ws : List Word} {text : String} (h : Laid ws text.toList) :
    ∃ tokens, ofText text = .ok tokens ∧ List.Forall₂ Bears tokens ws :=
  scan_laid _ h 0 false nofun

end GraphQL.Syntax
