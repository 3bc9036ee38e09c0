import GraphQL.Syntax.StringValue
import Mathlib.Data.List.Basic

/-!
How the contents of string literals are spelled.

The spellings are those of the grammar: characters and escapes between quotes, and the lines of a
block between triple quotes. Whatever follows the closing quotes in a text, the contents are read
back from the spelling, and what follows is left.
-/

set_option autoImplicit false

namespace GraphQL.Syntax.StringValue

/-- The text between the quotes of a string with these contents. -/
inductive Quotes : (contents text : List Char) → Prop where
  | nil : Quotes [] []
  | char {c : Char} {contents text : List Char} : c ≠ '"' → c ≠ '\\' → isLineEnd c = false →
      Quotes contents text → Quotes (c :: contents) (c :: text)
  | escape {c e : Char} {contents text : List Char} : escaped? e = some c →
      Quotes contents text → Quotes (c :: contents) ('\\' :: e :: text)
  | unicode {c d₁ d₂ d₃ d₄ : Char} {contents text : List Char} :
      hexNumber? [d₁, d₂, d₃, d₄] = some c.toNat →
      Quotes contents text → Quotes (c :: contents) ('\\' :: 'u' :: d₁ :: d₂ :: d₃ :: d₄ :: text)
  /-- A character beyond the basic plane by its surrogates. -/
  | surrogates {c d₁ d₂ d₃ d₄ e₁ e₂ e₃ e₄ : Char} {high low : Nat} {contents text : List Char} :
      hexNumber? [d₁, d₂, d₃, d₄] = some high → isHighSurrogate high = true →
      hexNumber? [e₁, e₂, e₃, e₄] = some low → isLowSurrogate low = true →
      c.toNat = 0x10000 + (high - 0xD800) * 0x400 + (low - 0xDC00) → Quotes contents text →
      Quotes (c :: contents)
        ('\\' :: 'u' :: d₁ :: d₂ :: d₃ :: d₄ :: '\\' :: 'u' :: e₁ :: e₂ :: e₃ :: e₄ :: text)

/-- The text between the opening quotes of a block string with these raw contents and what follows
its closing quotes. Neither three quotes nor a backslash before three quotes can be a part of it as
they are. -/
inductive Blocks : (raw text : List Char) → Prop where
  | close : Blocks [] ['"', '"', '"']
  | escape {raw text : List Char} : Blocks raw text →
      Blocks ('"' :: '"' :: '"' :: raw) ('\\' :: '"' :: '"' :: '"' :: text)
  | char {c : Char} {raw text : List Char} : ¬ ['"', '"', '"'] <+: c :: text →
      ¬ ['\\', '"', '"', '"'] <+: c :: text → Blocks raw text → Blocks (c :: raw) (c :: text)

theorem scalar?_toNat (c : Char) : scalar? c.toNat = some c := by
  have hvalid : c.toNat.isValidChar := c.valid
  rw [scalar?, if_pos hvalid, Char.ofNat_toNat]

theorem scalar?_of_isHighSurrogate {n : Nat} (h : isHighSurrogate n = true) : scalar? n = none := by
  simp only [isHighSurrogate, Bool.and_eq_true, decide_eq_true_eq] at h
  have hinvalid : ¬ n.isValidChar := by
    unfold Nat.isValidChar
    omega
  rw [scalar?, if_neg hinvalid]

/-- A brace begins another form of escape, and is no digit. -/
theorem ne_brace_of_hexNumber? {d₁ d₂ d₃ d₄ : Char} {n : Nat}
    (h : hexNumber? [d₁, d₂, d₃, d₄] = some n) : d₁ ≠ '\x7b' := by
  rintro rfl
  simp [hexNumber?, hexDigit?] at h

theorem unicode?_of_hexNumber? {c d₁ d₂ d₃ d₄ : Char} (rest : List Char)
    (h : hexNumber? [d₁, d₂, d₃, d₄] = some c.toNat) :
    unicode? (d₁ :: d₂ :: d₃ :: d₄ :: rest) = some (c, 4) := by
  have hbrace := ne_brace_of_hexNumber? h
  simp [unicode?, h, scalar?_toNat]

theorem unicode?_of_surrogates {c d₁ d₂ d₃ d₄ e₁ e₂ e₃ e₄ : Char} {high low : Nat}
    (rest : List Char) (hhigh : hexNumber? [d₁, d₂, d₃, d₄] = some high)
    (hs : isHighSurrogate high = true) (hlow : hexNumber? [e₁, e₂, e₃, e₄] = some low)
    (ht : isLowSurrogate low = true)
    (hc : c.toNat = 0x10000 + (high - 0xD800) * 0x400 + (low - 0xDC00)) :
    unicode? (d₁ :: d₂ :: d₃ :: d₄ :: '\\' :: 'u' :: e₁ :: e₂ :: e₃ :: e₄ :: rest) =
      some (c, 10) := by
  have hbrace := ne_brace_of_hexNumber? hhigh
  simp [unicode?, hhigh, scalar?_of_isHighSurrogate hs, hlow, hs, ht, ← hc, scalar?_toNat]

theorem quoted_of_quotes {contents text : List Char} (h : Quotes contents text)
    (rest : List Char) : quoted (text ++ '"' :: rest) = some (contents, rest) := by
  induction h with
  | nil => simp [quoted]
  | char hquote hbackslash hline _ ih => simp [quoted, hbackslash, hline, ih]
  | @escape c e _ _ he _ ih =>
    have hu : e ≠ 'u' := by
      rintro rfl
      cases he
    simp [quoted, he, ih]
  | unicode hn _ ih => simp [quoted, unicode?_of_hexNumber? _ hn, ih]
  | surrogates hhigh hs hlow ht hc _ ih =>
    simp [quoted, unicode?_of_surrogates _ hhigh hs hlow ht hc, ih]

/-- The first character is neither a quote nor a line end. -/
theorem Quotes.head_ne {c : Char} {contents text : List Char} (h : Quotes contents (c :: text)) :
    c ≠ '"' ∧ isLineEnd c = false := by
  cases h with
  | char hquote _ hline => exact ⟨hquote, hline⟩
  | escape | unicode | surrogates => exact ⟨by decide, by decide⟩

theorem afterQuote_of_quotes {contents text : List Char} (h : Quotes contents text)
    (rest : List Char) : afterQuote (text ++ '"' :: rest) = some (contents, rest) := by
  have hline : ∀ c cs, text ++ '"' :: rest = c :: cs → isLineEnd c = false := by
    intro c cs heq
    cases text with
    | nil =>
      cases heq
      rfl
    | cons d text =>
      cases heq
      exact h.head_ne.2
  have hquoted := quoted_of_quotes h rest
  cases htext : text ++ '"' :: rest with
  | nil => simp at htext
  | cons c cs => simp [afterQuote, hline c cs htext, ← hquoted, htext]

theorem Blocks.three_le_length {raw text : List Char} (h : Blocks raw text) : 3 ≤ text.length := by
  induction h with
  | close => exact Nat.le_refl _
  | escape _ ih | char _ _ _ ih => simp only [List.length_cons]; omega

theorem blockRaw_of_blocks {raw text : List Char} (h : Blocks raw text) (rest : List Char) :
    blockRaw (text ++ rest) = some (raw, rest) := by
  induction h with
  | close => simp [blockRaw]
  | escape _ ih => simp [blockRaw, ih]
  | @char c raw text hquotes hescape htext ih =>
    have hlength := htext.three_le_length
    -- three more characters are there before `rest` begins
    obtain ⟨x, y, z, text, rfl⟩ : ∃ x y z text', text = x :: y :: z :: text' := by
      match text, hlength with
      | x :: y :: z :: text, _ => exact ⟨x, y, z, text, rfl⟩
    simp only [List.cons_append] at ih ⊢
    rw [blockRaw, ih]
    · rfl
    · rintro _ rfl ⟨⟩
      exact hescape ⟨_, rfl⟩
    · rintro _ rfl ⟨⟩
      exact hquotes ⟨_, rfl⟩

end GraphQL.Syntax.StringValue
