import GraphQL.Syntax.Lexer
import Mathlib.Data.List.TakeWhile

/-!
How numbers are spelled.

A number is spelled by its parts: a sign, a whole number, a fraction and an exponent. Where no
letter, digit or point follows it in a text, the run of number characters that begins there is
the number, and its parts are found in it again.
-/

set_option autoImplicit false

namespace GraphQL.Syntax.Lexeme

/-- A run ends where the property fails. -/
theorem takeWhile_append_eq {P : Char → Bool} {run rest : List Char} (hrun : ∀ c ∈ run, P c = true)
    (hrest : ∀ c ∈ rest.head?, P c = false) : (run ++ rest).takeWhile P = run := by
  have hstop : rest.takeWhile P = [] := by
    cases rest with
    | nil => rfl
    | cons c rest => simp [hrest c rfl]
  rw [List.takeWhile_append_of_pos hrun, hstop, List.append_nil]

/-- A letter that introduces an exponent. -/
def IsMark (c : Char) : Prop := c = 'e' ∨ c = 'E'

theorem IsMark.isDigit {c : Char} (h : IsMark c) : c.isDigit = false := by
  rcases h with rfl | rfl <;> rfl

namespace Spelling

/-- The point and the digits after it, if there are any. -/
def point (s : Spelling) : List Char := s.fraction.elim [] ('.' :: ·)

/-- The exponent part, if there is one, with the letter that introduces it. -/
def power (mark : Char) (s : Spelling) : List Char := s.exponent.elim [] (mark :: ·)

/-- The characters of a number after its sign. -/
def unsignedChars (mark : Char) (s : Spelling) : List Char := s.whole ++ (s.point ++ s.power mark)

def chars (mark : Char) (s : Spelling) : List Char :=
  if s.negative then '-' :: s.unsignedChars mark else s.unsignedChars mark

variable {s : Spelling} {mark : Char}

theorem all_isDigit_of_isWhole {digits : List Char} (h : isWhole digits = true) :
    ∀ d ∈ digits, d.isDigit = true := by
  unfold isWhole at h
  split at h
  · cases h
  · simp
  · cases h
  · exact List.all_eq_true.1 h

theorem exists_of_isWhole {digits : List Char} (h : isWhole digits = true) :
    ∃ d ds, digits = d :: ds ∧ d.isDigit = true ∧ ∀ d ∈ ds, d.isDigit = true := by
  have hall := all_isDigit_of_isWhole h
  cases digits with
  | nil => cases h
  | cons d ds => exact ⟨d, ds, rfl, List.forall_mem_cons.1 hall⟩

theorem head?_power : ∀ c ∈ (s.power mark).head?, c = mark := by
  unfold power
  cases s.exponent with
  | none => nofun
  | some e =>
    rintro c ⟨⟩
    rfl

theorem head?_point : ∀ c ∈ s.point.head?, c = '.' := by
  unfold point
  cases s.fraction with
  | none => nofun
  | some digits =>
    rintro c ⟨⟩
    rfl

/-- What follows the whole number begins with a point or a letter. -/
theorem head?_point_append_power : ∀ c ∈ (s.point ++ s.power mark).head?, c = '.' ∨ c = mark := by
  unfold point
  cases s.fraction with
  | none => exact fun c hc => .inr (head?_power c hc)
  | some digits =>
    rintro c ⟨⟩
    exact .inl rfl

theorem drop_one_power : (s.power mark).drop 1 = s.exponent.getD [] := by
  unfold power
  cases s.exponent <;> rfl

theorem drop_one_point : s.point.drop 1 = s.fraction.getD [] := by
  unfold point
  cases s.fraction <;> rfl

theorem forall_isDigit_of_isDigits {digits : List Char} (h : isDigits digits = true) :
    ∀ d ∈ digits, d.isDigit = true := by
  rw [isDigits, Bool.and_eq_true] at h
  exact List.all_eq_true.1 h.2

theorem isWhole_of_isValid (h : s.isValid = true) : isWhole s.whole = true := by
  simp only [isValid, Bool.and_eq_true] at h
  exact h.1.1

theorem isDigits_of_isValid (h : s.isValid = true) {digits : List Char}
    (hd : s.fraction = some digits) : isDigits digits = true := by
  simp only [isValid, Bool.and_eq_true, hd] at h
  exact h.1.2

theorem mem_point (h : s.isValid = true) {c : Char} (hc : c ∈ s.point) :
    c = '.' ∨ c.isDigit = true := by
  unfold point at hc
  cases hf : s.fraction with
  | none =>
    rw [hf] at hc
    cases hc
  | some digits =>
    rw [hf] at hc
    rcases List.mem_cons.1 hc with rfl | hc
    · exact .inl rfl
    · exact .inr (forall_isDigit_of_isDigits (isDigits_of_isValid h hf) c hc)

/-- A number without a sign does not begin with one. -/
theorem head?_chars (h : s.isValid = true) :
    ((s.chars mark).head? == some '-') = s.negative := by
  obtain ⟨d, ds, hwhole, hd, -⟩ := exists_of_isWhole (isWhole_of_isValid h)
  have hsign : d ≠ '-' := by
    rintro rfl
    cases hd
  cases hn : s.negative <;> simp [chars, hn, unsignedChars, hwhole, hsign]

theorem drop_sign_chars :
    (if s.negative = true then (s.chars mark).drop 1 else s.chars mark) = s.unsignedChars mark := by
  cases hn : s.negative <;> simp [chars, hn]

/-- The parts of a number are found in its characters. -/
theorem ofChars_chars (hmark : IsMark mark) (h : s.isValid = true) :
    ofChars (s.chars mark) = s := by
  have hwhole : (s.unsignedChars mark).takeWhile Char.isDigit = s.whole := by
    refine takeWhile_append_eq (all_isDigit_of_isWhole (isWhole_of_isValid h)) fun c hc => ?_
    rcases head?_point_append_power c hc with rfl | rfl
    · rfl
    · exact hmark.isDigit
  have hfraction : ∀ digits, s.fraction = some digits →
      (digits ++ s.power mark).takeWhile Char.isDigit = digits := fun digits hd =>
    takeWhile_append_eq (forall_isDigit_of_isDigits (isDigits_of_isValid h hd))
      fun c hc => head?_power c hc ▸ hmark.isDigit
  unfold ofChars
  simp only [head?_chars h, drop_sign_chars, hwhole]
  obtain ⟨negative, whole, fraction, exponent⟩ := s
  simp only [unsignedChars, List.drop_left]
  cases fraction with
  | none =>
    cases exponent with
    | none => rfl
    | some e => rcases hmark with rfl | rfl <;> rfl
  | some digits =>
    simp only [point, Option.elim_some, List.cons_append, hfraction digits rfl, List.drop_left]
    cases exponent with
    | none => rfl
    | some e => rcases hmark with rfl | rfl <;> rfl

theorem number?_chars (hmark : IsMark mark) (h : s.isValid = true) :
    number? (s.chars mark) = some
      (if s.isInt then int (String.ofList (s.chars mark))
        else float (String.ofList (s.chars mark))) := by
  simp only [number?, ofChars_chars hmark h, h, Bool.not_true, Bool.false_eq_true, if_false]
  split <;> rfl

end Spelling

/-! The run of characters that a number begins. -/

/-- After `previous` these characters go on with a number, up to a digit. -/
def Continues (previous : Char) (cs : List Char) : Prop :=
  ∃ last, last.isDigit = true ∧
    ∀ rest, numberTail previous (cs ++ rest) = cs ++ numberTail last rest

theorem isNamePart_of_isDigit {c : Char} (h : c.isDigit = true) : isNamePart c = true := by
  simp [isNamePart, Char.isAlphanum, h]

namespace Continues

variable {previous c : Char} {cs ds : List Char}

theorem nil (h : previous.isDigit = true) : Continues previous [] := ⟨previous, h, fun _ => rfl⟩

theorem cons (h : Continues c cs) (hc : isNamePart c = true ∨ c = '.' ∨
    ((c = '+' ∨ c = '-') ∧ IsMark previous)) : Continues previous (c :: cs) := by
  obtain ⟨last, hlast, heq⟩ := h
  refine ⟨last, hlast, fun rest => ?_⟩
  rw [List.cons_append, numberTail, if_pos, heq, List.cons_append]
  rcases hc with hc | rfl | ⟨rfl | rfl, rfl | rfl⟩ <;> simp [*]

theorem append (h : Continues previous cs) (h' : ∀ q, q.isDigit = true → Continues q ds) :
    Continues previous (cs ++ ds) := by
  obtain ⟨q, hq, heq⟩ := h
  obtain ⟨last, hlast, heq'⟩ := h' q hq
  refine ⟨last, hlast, fun rest => ?_⟩
  rw [List.append_assoc, heq, heq', List.append_assoc]

theorem of_digits (h : ∀ d ∈ ds, d.isDigit = true) (hp : previous.isDigit = true) :
    Continues previous ds := by
  induction ds generalizing previous with
  | nil => exact nil hp
  | cons d ds ih =>
    obtain ⟨hd, hds⟩ := List.forall_mem_cons.1 h
    exact (ih hds hd).cons (.inl (isNamePart_of_isDigit hd))

/-- A run of digits that is not empty can follow anything. -/
theorem of_isDigits (h : Spelling.isDigits ds = true) : Continues previous ds := by
  have hdigits := Spelling.forall_isDigit_of_isDigits h
  cases ds with
  | nil => cases h
  | cons d ds =>
    obtain ⟨hd, hds⟩ := List.forall_mem_cons.1 hdigits
    exact (of_digits hds hd).cons (.inl (isNamePart_of_isDigit hd))

theorem of_exponent {mark : Char} (hmark : IsMark mark) {e : List Char}
    (h : Spelling.isDigits (Spelling.unsigned e) = true) : Continues previous (mark :: e) := by
  have hname : isNamePart mark = true := by rcases hmark with rfl | rfl <;> rfl
  refine Continues.cons ?_ (.inl hname)
  unfold Spelling.unsigned at h
  split at h
  · exact (of_isDigits h).cons (.inr (.inr ⟨.inl rfl, hmark⟩))
  · exact (of_isDigits h).cons (.inr (.inr ⟨.inr rfl, hmark⟩))
  · exact of_isDigits h

end Continues

/-- A number begins with its sign or a digit, and goes on up to its end. -/
theorem continues_chars {s : Spelling} {mark : Char} (hmark : IsMark mark)
    (h : s.isValid = true) :
    ∃ c tail, s.chars mark = c :: tail ∧ (c.isDigit = true ∨ c = '-') ∧ Continues c tail := by
  obtain ⟨negative, whole, fraction, exponent⟩ := s
  simp only [Spelling.isValid, Bool.and_eq_true] at h
  obtain ⟨⟨hwhole, hfraction⟩, hexponent⟩ := h
  obtain ⟨d, ds, rfl, hd, hds⟩ := Spelling.exists_of_isWhole hwhole
  have htail : ∀ q, q.isDigit = true → Continues q
      (Spelling.point ⟨negative, d :: ds, fraction, exponent⟩ ++
        Spelling.power mark ⟨negative, d :: ds, fraction, exponent⟩) := by
    intro q hq
    refine Continues.append ?_ fun q hq => ?_
    · cases fraction with
      | none => exact .nil hq
      | some digits => exact (Continues.of_isDigits hfraction).cons (.inr (.inl rfl))
    · cases exponent with
      | none => exact .nil hq
      | some e => exact .of_exponent hmark hexponent
  have hafter := (Continues.of_digits hds hd).append htail
  cases negative with
  | false => exact ⟨d, _, rfl, .inl hd, hafter⟩
  | true => exact ⟨'-', _, rfl, .inr rfl, hafter.cons (.inl (isNamePart_of_isDigit hd))⟩

/-- A number ends where neither a name nor a point follows. -/
theorem Continues.numberTail_append {c : Char} {tail rest : List Char} (h : Continues c tail)
    (hrest : ∀ d ∈ rest.head?, isNamePart d = false ∧ d ≠ '.') :
    numberTail c (tail ++ rest) = tail := by
  obtain ⟨last, hlast, heq⟩ := h
  have hmark : ¬ IsMark last := by
    rintro (rfl | rfl) <;> cases hlast
  have hstop : numberTail last rest = [] := by
    cases rest with
    | nil => rfl
    | cons d rest =>
      obtain ⟨hname, hpoint⟩ := hrest d rfl
      rw [IsMark, not_or] at hmark
      simp [numberTail, hname, hpoint, hmark.1, hmark.2]
  rw [heq, hstop, List.append_nil]

end GraphQL.Syntax.Lexeme
