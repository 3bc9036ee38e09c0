import GraphQL.Proofs.Syntax.Items
import GraphQL.Proofs.Syntax.Parsing
import GraphQL.Proofs.Syntax.Scanning

/-!
SDL notation of types: the words of a type, how they are laid out in a text, and what of a text is
left when everything that means nothing is taken away.
-/

set_option autoImplicit false

namespace GraphQL

open Syntax Syntax.Parser

namespace Syntax

/-- The characters of a word. -/
def Lexeme.chars : Lexeme → List Char
  | punctuator p => p.chars
  | name text => text.toList
  | _ => []

@[simp] theorem chars_sign (p : Punctuator) : (sign p).lexeme.chars = p.chars := rfl

@[simp] theorem chars_word (text : String) : (word text).lexeme.chars = text.toList := rfl

/-- What is left of a text without ignored characters and comments, in one of which it may begin. -/
def significant : (comment : Bool) → List Char → List Char
  | _, [] => []
  | true, c :: cs => significant (!StringValue.isLineEnd c) cs
  | false, c :: cs =>
    if c = '#' then significant true cs
    else if Lexeme.isIgnored c then significant false cs
    else c :: significant false cs

theorem significant_blank {c : Char} (hc : Lexeme.isIgnored c = true) (text : List Char) :
    significant false (c :: text) = significant false text := by
  have hne : c ≠ '#' := by
    rintro rfl
    cases hc
  rw [significant, if_neg hne, if_pos hc]

theorem significant_comment {body text : List Char}
    (hbody : ∀ c ∈ body, StringValue.isLineEnd c = false)
    (htext : ∀ c ∈ text.head?, StringValue.isLineEnd c = true) :
    significant true (body ++ text) = significant false text := by
  induction body with
  | nil =>
    cases text with
    | nil => rfl
    | cons c text =>
      have hend : StringValue.isLineEnd c = true := htext c rfl
      have hblank : Lexeme.isIgnored c = true := by
        simp only [StringValue.isLineEnd, Bool.or_eq_true, beq_iff_eq] at hend
        rcases hend with rfl | rfl <;> rfl
      rw [List.nil_append, significant, hend, Bool.not_true, significant_blank hblank]
  | cons c body ih =>
    obtain ⟨hc, hbody⟩ := List.forall_mem_cons.1 hbody
    rw [List.cons_append, significant, hc, Bool.not_false, ih hbody]

theorem significant_append {run : List Char} (h : ∀ c ∈ run, Lexeme.isIgnored c = false ∧ c ≠ '#')
    (text : List Char) : significant false (run ++ text) = run ++ significant false text := by
  induction run with
  | nil => rfl
  | cons c run ih =>
    obtain ⟨⟨hc, hne⟩, hrun⟩ := List.forall_mem_cons.1 h
    rw [List.cons_append, significant, if_neg hne, if_neg (by simp [hc]), ih hrun, List.cons_append]

theorem significant_name {text : String} (h : IsName text) :
    ∀ c ∈ text.toList, Lexeme.isIgnored c = false ∧ c ≠ '#' := by
  obtain ⟨first, rest, htext, hfirst, hrest⟩ := h
  rw [htext, List.forall_mem_cons]
  have hbegins : Begins first := begins_of hfirst (by decide)
  refine ⟨⟨hbegins.ignored, hbegins.comment⟩, fun c hc => ?_⟩
  have hpart : Begins c := begins_of (hrest c hc) (by decide)
  exact ⟨hpart.ignored, hpart.comment⟩

/-- Of words in a text their characters are left. -/
theorem significant_laid {ws : List Word} {text : List Char} (h : Laid ws text)
    (hws : ∀ w ∈ ws, w.lexeme.IsWord) :
    significant false text = ws.flatMap fun w => w.lexeme.chars := by
  induction h with
  | nil => rfl
  | blank hc _ _ ih => rw [significant_blank hc, ih hws]
  | comma _ _ ih => rw [significant_blank rfl, ih hws]
  | comment hbody hend _ ih => rw [significant, if_pos rfl, significant_comment hbody hend, ih hws]
  | @word w ws own rest hspelled _ ih =>
    obtain ⟨hw, hws⟩ := List.forall_mem_cons.1 hws
    have hown : own = w.lexeme.chars ∧ ∀ c ∈ own, Lexeme.isIgnored c = false ∧ c ≠ '#' := by
      generalize w.lexeme = l at hspelled hw
      cases hspelled with
      | @punctuator p =>
        exact ⟨rfl, by cases p <;> simp [Punctuator.chars, Lexeme.isIgnored]⟩
      | name hname _ => exact ⟨rfl, significant_name hname⟩
      | int | float | quoted | block => cases hw
    rw [significant_append hown.2, ih hws, hown.1, List.flatMap_cons]

end Syntax

namespace TypeRef

/-- The words of a type in SDL notation. -/
def words : TypeRef → List Word
  | list item => sign .openBracket :: (item.words ++ [sign .closeBracket])
  | nonNull inner => inner.words ++ [sign .bang]
  | type => [word type.render]

/-- How many levels of lists a type has. -/
def depth : TypeRef → Nat
  | list item => item.depth + 1
  | nonNull inner => inner.depth
  | _ => 0

/-- The name of a type is a name, and not that of a built-in scalar. -/
def Named : TypeRef → Prop
  | named name => IsName name ∧ name ∉ builtinNames
  | list item => item.Named
  | nonNull inner => inner.Named
  | _ => True

theorem isWord_of_mem_words {t : TypeRef} : ∀ w ∈ t.words, w.lexeme.IsWord ∧ w.joined = false := by
  have hsign : ∀ p, (sign p).lexeme.IsWord ∧ (sign p).joined = false := fun _ => ⟨trivial, rfl⟩
  induction t with
  | list item ih =>
    intro w hw
    simp only [words, List.mem_cons, List.mem_append, List.not_mem_nil, or_false] at hw
    rcases hw with rfl | hw | rfl
    · exact hsign _
    · exact ih w hw
    · exact hsign _
  | nonNull inner ih =>
    intro w hw
    simp only [words, List.mem_append, List.mem_singleton] at hw
    rcases hw with hw | rfl
    · exact ih w hw
    · exact hsign _
  | _ => exact List.forall_mem_singleton.2 ⟨trivial, rfl⟩

theorem chars_words (t : TypeRef) :
    (t.words.flatMap fun w => w.lexeme.chars) = t.render.toList := by
  induction t with
  | list item ih => simp [words, render, ih, Punctuator.chars]
  | nonNull inner ih => simp [words, render, ih, Punctuator.chars]
  | _ => simp [words, render]

/-- A type in its notation, with anything after it that a name cannot go on with. -/
theorem laid_render {t : TypeRef} (h : t.Named) : ∀ {ws : List Word} {rest : List Char},
    (∀ c ∈ rest.head?, Lexeme.isNamePart c = false) → Laid ws rest →
      Laid (t.words ++ ws) (t.render.toList ++ rest) := by
  induction t with
  | list item ih =>
    intro ws rest _ hlaid
    have hitem : Laid (item.words ++ sign .closeBracket :: ws)
        (item.render.toList ++ ']' :: rest) :=
      ih h (by rintro _ ⟨⟩; rfl) (.punctuator hlaid)
    have hall : Laid (sign .openBracket :: _) ('[' :: _) := .punctuator hitem
    simpa [words, render] using hall
  | nonNull inner ih =>
    intro ws rest _ hlaid
    have hinner : Laid (inner.words ++ sign .bang :: ws) (inner.render.toList ++ '!' :: rest) :=
      ih h (by rintro _ ⟨⟩; rfl) (.punctuator hlaid)
    simpa [words, render] using hinner
  | named name => exact fun hrest hlaid => .word (.name h.1 hrest) hlaid
  | _ => exact fun hrest hlaid => .word (.name (by decide) hrest) hlaid

theorem ofName_of_not_mem {name : String} (h : name ∉ builtinNames) : ofName name = named name := by
  simp only [builtinNames, List.mem_cons, List.not_mem_nil, or_false, not_or] at h
  obtain ⟨hint, hfloat, hstring, hboolean, hid⟩ := h
  simp [ofName, hint, hfloat, hstring, hboolean, hid]

theorem words_ofName (name : String) : (ofName name).words = [word name] := by
  unfold ofName
  repeat' split
  all_goals simp [words, render, *]

/-- The words of a type may stand for it. -/
theorem written_words {t : TypeRef} (hplain : t.Plain) (hnamed : t.Named) : ∀ room : Nat,
    t.depth ≤ room → t.Written room t.words := by
  have hbuiltin : ∀ {room : Nat} (name : String), IsName name →
      Written room (ofName name) [word name] := fun _ h => .name h
  induction t with
  | list item ih =>
    intro room hroom
    cases room with
    | zero => cases hroom
    | succ room => exact .list (ih hplain hnamed room (Nat.le_of_succ_le_succ hroom))
  | nonNull inner ih => exact fun room hroom => .nonNull hplain.1 (ih hplain.2 hnamed room hroom)
  | named name =>
    intro room _
    have h : Written room (ofName name) [word name] := hbuiltin name hnamed.1
    rwa [ofName_of_not_mem hnamed.2] at h
  | string => exact fun _ _ => hbuiltin "String" (by decide)
  | int => exact fun _ _ => hbuiltin "Int" (by decide)
  | float => exact fun _ _ => hbuiltin "Float" (by decide)
  | id => exact fun _ _ => hbuiltin "ID" (by decide)
  | boolean => exact fun _ _ => hbuiltin "Boolean" (by decide)

theorem lexemes_of_occupies {t : TypeRef} {spots : List Spot} (h : t.Occupies spots) :
    spots.map (fun s => s.token.lexeme) = t.words.map Word.lexeme := by
  induction h with
  | name hs => simp [words_ofName, hs.lexeme, word]
  | list ho _ hc ih => simp [words, ih, ho.lexeme, hc.lexeme, sign]
  | nonNull _ _ hb ih => simp [words, ih, hb.lexeme, sign]

end TypeRef

end GraphQL
