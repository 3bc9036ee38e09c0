import GraphQL.Json.Value
import Mathlib.Data.Nat.Digits.Defs

/-!
Integers of 64 bits are far from the end of the range of doubles: the double nearest to one is
finite (`Binary64.isFinite_ofInt`), and so is that of every number that a JSON value holds.
-/

set_option autoImplicit false

namespace GraphQL

namespace Binary64

theorem isFinite_ofMagnitude {negative : Bool} {m : Nat} (h : m < 2047 * Nat.pow 2 52) :
    (ofMagnitude negative m).isFinite = true := by
  have hfraction : Nat.pow 2 52 = 4503599627370496 := rfl
  have hexponent : Nat.pow 2 11 = 2048 := rfl
  have hsign : Nat.pow 2 63 = 9223372036854775808 := rfl
  have hsize : UInt64.size = 18446744073709551616 := rfl
  rw [hfraction] at h
  have hbits : m + (if negative then Nat.pow 2 63 else 0) < UInt64.size := by
    split <;> omega
  have htoNat := UInt64.toNat_ofNat_of_lt' hbits
  simp only [isFinite, biasedExponent, ofMagnitude, htoNat, bne_iff_ne, hfraction, hexponent]
  split <;> omega

theorem roundDiv_le (num den : Nat) : roundDiv num den ≤ num / den + 1 := by
  unfold roundDiv
  simp only
  repeat' split
  all_goals omega

/-- A number is rounded to about as many bits as its power leaves it. -/
theorem roundScaled_le {num : Nat} {power : Int} (h : (num.log2 : Int) - 53 ≤ power) :
    roundScaled num 1 power ≤ Nat.pow 2 54 := by
  have hnum : num < 2 ^ (num.log2 + 1) := Nat.lt_log2_self
  have hround : ∀ num den, num / den < 2 ^ 54 → roundDiv num den ≤ Nat.pow 2 54 := by
    intro num den hlt
    have : Nat.pow 2 54 = 2 ^ 54 := rfl
    have := roundDiv_le num den
    omega
  unfold roundScaled
  split
  · next hpower =>
    apply hround
    apply Nat.div_lt_of_lt_mul
    calc num < 2 ^ (num.log2 + 1) := hnum
      _ ≤ 2 ^ (power.toNat + 54) := Nat.pow_le_pow_right (by decide) (by omega)
      _ = 1 * Nat.pow 2 power.toNat * 2 ^ 54 := by rw [Nat.pow_add, Nat.one_mul]; rfl
  · next hpower =>
    apply hround
    rw [Nat.div_one]
    calc num * Nat.pow 2 (-power).toNat < 2 ^ (num.log2 + 1) * 2 ^ (-power).toNat :=
          Nat.mul_lt_mul_of_pos_right hnum (Nat.pow_pos (by decide))
      _ = 2 ^ (num.log2 + 1 + (-power).toNat) := (Nat.pow_add ..).symm
      _ ≤ 2 ^ 54 := Nat.pow_le_pow_right (by decide) (by omega)

theorem magnitude_lt {num : Nat} (h : num < 2 ^ 64) : magnitude num 1 < 2047 * Nat.pow 2 52 := by
  have hlog : num.log2 < 64 := by
    by_cases hzero : num = 0
    · rw [hzero]
      decide
    · exact (Nat.log2_lt hzero).2 h
  have hbound : ∀ power : Int, (num.log2 : Int) - 53 ≤ power → power ≤ 11 →
      min (2047 * Nat.pow 2 52) ((power + 1074).toNat * Nat.pow 2 52 + roundScaled num 1 power) <
        2047 * Nat.pow 2 52 := by
    intro power hlow hhigh
    have : (power + 1074).toNat * Nat.pow 2 52 ≤ 1085 * Nat.pow 2 52 :=
      Nat.mul_le_mul_right _ (by omega)
    have := roundScaled_le hlow
    have : Nat.pow 2 52 = 4503599627370496 := rfl
    have : Nat.pow 2 54 = 18014398509481984 := rfl
    omega
  have hone : (1 : Nat).log2 = 0 := by decide
  unfold magnitude
  simp only [hone]
  split
  · exact hbound _ (by omega) (by omega)
  · exact hbound _ (by omega) (by omega)

theorem isFinite_ofInt {i : Int} (h : i.natAbs < 2 ^ 64) : (ofInt i).isFinite = true := by
  have hlength : (Nat.toDigits 10 i.natAbs).length ≤ 20 :=
    Nat.toDigits_length 10 i.natAbs 20 (by decide) (Nat.lt_of_lt_of_le h (by decide))
  rw [ofInt, ofDecimal]
  apply isFinite_ofMagnitude
  split
  · decide
  · rw [if_neg (by omega), if_pos (Int.le_refl 0)]
    have hdigits : i.natAbs * Nat.pow 10 (0 : Int).toNat = i.natAbs := Nat.mul_one _
    rw [hdigits]
    exact magnitude_lt h

end Binary64

/-- The numbers that JSON values hold: integers of 64 bits, with a sign or without, and finite
doubles. -/
def Json.Number.InRange : Json.Number → Prop
  | .int i => -0x8000000000000000 ≤ i ∧ i < 0x10000000000000000
  | .double x => x.isFinite = true

theorem Json.Number.isFinite_toDouble {n : Json.Number} (h : n.InRange) :
    n.toDouble.isFinite = true := by
  cases n with
  | int i =>
    obtain ⟨hlow, hhigh⟩ := h
    exact Binary64.isFinite_ofInt (by omega)
  | double x => exact h

end GraphQL
