import GraphQL.Proofs.Syntax.Written

/-!
A written value is read as the literal that it denotes (`Literal.ofSyntax_of_denotedBy`): an integer
of 64 bits is read from any of its texts, and a float as the double nearest to its number.
-/

set_option autoImplicit false

namespace GraphQL

open Syntax Syntax.Lexeme

namespace Literal

/-! Integers. -/

theorem digits_toDigits (n : Nat) : digits (Nat.toDigits 10 n) = n := by
  have hfold : ∀ cs, digits cs = Nat.ofDigitChars 10 cs 0 := fun cs => by
    simp only [digits, Nat.ofDigitChars, Nat.mul_comm]
  rw [hfold, Nat.ofDigitChars_ten_toDigits]

/-- The text of a number that is not negative begins with no sign. -/
theorem toDigits_ne_sign (n : Nat) (cs : List Char) : Nat.toDigits 10 n ≠ '-' :: cs := by
  intro heq
  have hmem : '-' ∈ Nat.toDigits 10 n := heq ▸ List.mem_cons_self
  exact absurd (Nat.isDigit_of_mem_toDigits (by decide) (by decide) hmem) (by decide)

/-- An integer of 64 bits is read from its text. -/
theorem int?_toString {i : Int} (hlow : -0x8000000000000000 ≤ i) (hhigh : i < 0x8000000000000000) :
    int? (toString i) = some i := by
  cases i with
  | ofNat n =>
    have htext : (toString (Int.ofNat n)).toList = Nat.toDigits 10 n := Nat.toList_repr
    have hnumber := digits_toDigits n
    simp only [int?, htext]
    split
    · next heq => exact absurd heq (toDigits_ne_sign n _)
    · rw [hnumber, if_pos ⟨hlow, hhigh⟩]
      rfl
  | negSucc n =>
    have htext : (toString (Int.negSucc n)).toList = '-' :: Nat.toDigits 10 (n + 1) := by
      have happend : toString (Int.negSucc n) = "-" ++ (n + 1).repr := rfl
      rw [happend, String.toList_append, Nat.toList_repr]
      rfl
    have hnumber : -(digits (Nat.toDigits 10 (n + 1)) : Int) = Int.negSucc n := by
      rw [digits_toDigits]
      rfl
    simp only [int?, htext, hnumber]
    rw [if_pos ⟨hlow, hhigh⟩]

theorem int?_of_text {i : Int} {text : String} (htext : text = toString i ∨ text = "-0" ∧ i = 0)
    (hlow : -0x8000000000000000 ≤ i) (hhigh : i < 0x8000000000000000) : int? text = some i := by
  rcases htext with rfl | ⟨rfl, rfl⟩
  · exact int?_toString hlow hhigh
  · decide

/-! Floats. -/

theorem drop_length_succ {α : Type} (as bs : List α) :
    (as ++ bs).drop (as.length + 1) = bs.drop 1 := by
  rw [← List.drop_drop, List.drop_left]

/-- A number is read as the double nearest to it. -/
theorem ofFloatText_eq {s : Spelling} {mark : Char} {text : String} (hvalid : s.isValid = true)
    (hmark : IsMark mark) (htext : text.toList = s.chars mark) : ofFloatText text = s.nearest := by
  have hdigits := Spelling.all_isDigit_of_isWhole (Spelling.isWhole_of_isValid hvalid)
  have hchars : s.unsignedChars mark = s.whole ++ s.point ++ s.power mark :=
    (List.append_assoc _ _ _).symm
  have hmantissa : (s.whole ++ s.point ++ s.power mark).takeWhile (fun c => c != 'e' && c != 'E') =
      s.whole ++ s.point := by
    refine takeWhile_append_eq (fun c hc => ?_) fun c hc => ?_
    · have hnumber : c = '.' ∨ c.isDigit = true := by
        rcases List.mem_append.1 hc with hc | hc
        · exact .inr (hdigits c hc)
        · exact Spelling.mem_point hvalid hc
      rcases hnumber with rfl | hdigit
      · rfl
      · simp only [Bool.and_eq_true, bne_iff_ne]
        constructor <;> rintro rfl <;> cases hdigit
    · obtain rfl := Spelling.head?_power c hc
      rcases hmark with rfl | rfl <;> rfl
  have hwhole : (s.whole ++ s.point).takeWhile (· != '.') = s.whole := by
    refine takeWhile_append_eq (fun c hc => bne_iff_ne.2 ?_) fun c hc => ?_
    · rintro rfl
      cases hdigits _ hc
    · obtain rfl := Spelling.head?_point c hc
      rfl
  simp only [ofFloatText, htext, Spelling.head?_chars hvalid, Spelling.drop_sign_chars, hchars,
    hmantissa, hwhole, drop_length_succ, Spelling.drop_one_power, Spelling.drop_one_point]
  rfl

mutual

/-- A written value is read as the literal that it denotes. -/
theorem ofSyntax_of_denotedBy : ∀ {l : Literal} {v : Syntax.Value}, l.DenotedBy v →
    ∀ missing, ofSyntax missing v = .ok l
  | _, _, .reference _, _ => rfl
  | _, _, .int htext hlow hhigh, _ => by
    rw [ofSyntax, int?_of_text htext hlow hhigh]
  | _, _, .float hvalid hmark htext, _ => by
    rw [ofSyntax, ofFloatText_eq hvalid hmark htext]
  | _, _, .string _, _ => rfl
  | _, _, .boolean _, _ => rfl
  | _, _, .null, _ => rfl
  | _, _, .enum _, _ => rfl
  | .list literals, _, .list hitems, missing => by
    rw [ofSyntax, ofItems_of_denotedBy hitems missing]
    rfl
  | .object literals, _, .object hfields, missing => by
    rw [ofSyntax, ofFields_of_denotedBy hfields]
    rfl

theorem ofItems_of_denotedBy : ∀ {ls : List Literal} {vs : List Syntax.Value},
    List.Forall₂ DenotedBy ls vs → ∀ missing, ofItems missing vs = .ok ls
  | [], _, .nil, _ => rfl
  | l :: ls, _, .cons hl hls, missing => by
    rw [ofItems, ofSyntax_of_denotedBy hl missing, ofItems_of_denotedBy hls missing]
    rfl

theorem ofFields_of_denotedBy : ∀ {ls : List (String × Literal)}
    {fields : List (String × Syntax.Value)}, List.Forall₂ (Labeled.Same DenotedBy) ls fields →
    ofFields fields = .ok ls
  | [], _, .nil => rfl
  | (_, l) :: ls, _, .cons (.mk hl) hls => by
    rw [ofFields, ofSyntax_of_denotedBy hl _, ofFields_of_denotedBy hls]
    rfl

end

end Literal

end GraphQL
