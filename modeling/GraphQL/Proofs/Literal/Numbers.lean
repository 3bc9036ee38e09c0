import GraphQL.Proofs.Decimal.Nearest
import GraphQL.Proofs.Syntax.Denoting

/-!
What written numbers are read as.

An integer that does not have 64 bits is refused (`Literal.ofSyntax_int`). No float is: from the
end of the range of doubles on it is read as infinity (`Literal.ofSyntax_float`).
-/

set_option autoImplicit false

namespace GraphQL

open Syntax Syntax.Lexeme

namespace Syntax.Lexeme.Spelling

/-- The number of the digits before the point, with the sign. -/
def integer (s : Spelling) : Int :=
  if s.negative then -(Literal.digits s.whole : Int) else Literal.digits s.whole

/-- The number that is spelled, without its sign. -/
def magnitude (s : Spelling) : ℚ :=
  Literal.digits (s.whole ++ s.fraction.getD []) * 10 ^ (s.scale - (s.fraction.getD []).length)

/-- The number that is spelled. -/
def value (s : Spelling) : ℚ := Binary64.signed s.negative s.magnitude

theorem isFinite_nearest_iff (s : Spelling) :
    s.nearest.isFinite = true ↔ s.magnitude < Binary64.overflow :=
  Binary64.isFinite_ofDecimal_iff _ _ _

theorem abs_value_sub_nearest_le {s : Spelling} (h : s.nearest.isFinite = true) (y : Binary64) :
    |s.value - s.nearest.toRat| ≤ |s.value - y.toRat| :=
  Binary64.nearest_ofDecimal h y

theorem chars_of_isInt {s : Spelling} {mark : Char} (h : s.isInt = true) :
    s.chars mark = if s.negative then '-' :: s.whole else s.whole := by
  obtain ⟨negative, whole, fraction, exponent⟩ := s
  cases fraction <;> cases exponent <;> simp_all [isInt, chars, unsignedChars, point, power]

end Syntax.Lexeme.Spelling

namespace Literal

variable {s : Spelling} {mark : Char} {text : String}

/-- An integer is read as itself or refused. -/
theorem ofSyntax_int (missing : SpecError) (hvalid : s.isValid = true) (hint : s.isInt = true)
    (htext : text.toList = s.chars mark) :
    ofSyntax missing (.int text) =
      if -0x8000000000000000 ≤ s.integer ∧ s.integer < 0x8000000000000000 then .ok (.int s.integer)
      else .error (.invalidInt text) := by
  have hwhole := Spelling.all_isDigit_of_isWhole (Spelling.isWhole_of_isValid hvalid)
  have hint? : int? text =
      if -0x8000000000000000 ≤ s.integer ∧ s.integer < 0x8000000000000000 then some s.integer
      else none := by
    rw [Spelling.chars_of_isInt hint] at htext
    cases hsign : s.negative with
    | true =>
      rw [hsign, if_pos rfl] at htext
      simp only [int?, htext, Spelling.integer, hsign, if_true]
    | false =>
      rw [hsign, if_neg Bool.false_ne_true] at htext
      simp only [int?, htext, Spelling.integer, hsign, Bool.false_eq_true, if_false]
      split
      · next cs heq => cases hwhole '-' (heq ▸ List.mem_cons_self)
      · rfl
  rw [ofSyntax, hint?]
  split
  · next heq => split at heq <;> simp_all
  · next heq => split at heq <;> simp_all

/-- A float is read as the nearest double, which may be infinite. -/
theorem ofSyntax_float (missing : SpecError) (hvalid : s.isValid = true) (hmark : IsMark mark)
    (htext : text.toList = s.chars mark) :
    ofSyntax missing (.float text) = .ok (.float s.nearest) := by
  rw [ofSyntax, ofFloatText_eq hvalid hmark htext]

end Literal

end GraphQL
