import GraphQL.Proofs.Decimal.Range
import Mathlib.Algebra.Order.Field.Rat
import Mathlib.Tactic.FieldSimp
import Mathlib.Tactic.Linarith

/-!
The end of the range of doubles.

The nearest double is finite below the number half-way between the greatest finite double and the
power of two after it, and infinite from there on (`Binary64.isFinite_ofDecimal_iff`).
-/

set_option autoImplicit false

namespace GraphQL.Binary64

/-- A half goes to an even bound. -/
theorem roundDiv_lt_iff {num den k : Nat} (hden : 0 < den) (hk : k % 2 = 0) :
    roundDiv num den < k ↔ 2 * num < (2 * k - 1) * den := by
  have hnum : den * (num / den) + num % den = num := Nat.div_add_mod num den
  have hrest : num % den < den := Nat.mod_lt num hden
  unfold roundDiv
  dsimp only
  generalize num / den = q at *
  generalize num % den = r at *
  rcases Nat.lt_trichotomy (q + 1) k with hq | rfl | hq
  · obtain ⟨j, rfl⟩ := Nat.exists_eq_add_of_lt hq
    have hbound : (2 * (q + 1 + j + 1) - 1) * den = 2 * (den * q) + 3 * den + 2 * (j * den) := by
      rw [show 2 * (q + 1 + j + 1) - 1 = 2 * q + 3 + 2 * j by omega]
      ring
    rw [hbound]
    split_ifs <;> omega
  · have hbound : (2 * (q + 1) - 1) * den = 2 * (den * q) + den := by
      rw [show 2 * (q + 1) - 1 = 2 * q + 1 by omega]
      ring
    rw [hbound]
    split_ifs <;> omega
  · obtain ⟨j, rfl⟩ := Nat.exists_eq_add_of_le (Nat.le_of_lt_succ hq)
    have hbound : (2 * k - 1) * den ≤ 2 * (den * (k + j)) := by
      calc (2 * k - 1) * den ≤ (2 * k + 2 * j) * den := Nat.mul_le_mul_right _ (by omega)
        _ = 2 * (den * (k + j)) := by ring
    split_ifs <;> omega

theorem roundScaled_lt_iff {num den k : Nat} (hden : 0 < den) (hk : k % 2 = 0) (n : Nat) :
    roundScaled num den n < k ↔ 2 * num < (2 * k - 1) * (den * 2 ^ n) := by
  rw [roundScaled, if_pos (Int.natCast_nonneg n), Int.toNat_natCast]
  exact roundDiv_lt_iff (Nat.mul_pos hden (Nat.pow_pos (by decide))) hk

/-- A quotient has at most the bits that its power leaves it. -/
theorem roundScaled_le_of_log2 {num den : Nat} {power : Int} (hden : den ≠ 0)
    (h : (num.log2 : Int) - den.log2 - 52 ≤ power) : roundScaled num den power ≤ 2 ^ 53 := by
  have hnum : num < 2 ^ (num.log2 + 1) := Nat.lt_log2_self
  have hden' : 2 ^ den.log2 ≤ den := Nat.log2_self_le hden
  have hround : ∀ num den, num < den * 2 ^ 53 → roundDiv num den ≤ 2 ^ 53 := by
    intro num den hlt
    have := roundDiv_le num den
    have : num / den < 2 ^ 53 := Nat.div_lt_of_lt_mul hlt
    omega
  unfold roundScaled
  split
  · next hpower =>
    apply hround
    calc num < 2 ^ (num.log2 + 1) := hnum
      _ ≤ 2 ^ (den.log2 + power.toNat + 53) := Nat.pow_le_pow_right (by decide) (by omega)
      _ = 2 ^ den.log2 * 2 ^ power.toNat * 2 ^ 53 := by rw [Nat.pow_add, Nat.pow_add]
      _ ≤ den * 2 ^ power.toNat * 2 ^ 53 :=
        Nat.mul_le_mul_right _ (Nat.mul_le_mul_right _ hden')
  · next hpower =>
    apply hround
    calc num * 2 ^ (-power).toNat < 2 ^ (num.log2 + 1) * 2 ^ (-power).toNat :=
          Nat.mul_lt_mul_of_pos_right hnum (Nat.pow_pos (by decide))
      _ = 2 ^ (num.log2 + 1 + (-power).toNat) := (Nat.pow_add ..).symm
      _ ≤ 2 ^ (den.log2 + 53) := Nat.pow_le_pow_right (by decide) (by omega)
      _ = 2 ^ den.log2 * 2 ^ 53 := Nat.pow_add ..
      _ ≤ den * 2 ^ 53 := Nat.mul_le_mul_right _ hden'

/-- Half-way between the greatest finite double and the power of two after it. -/
def overflow : Nat := (2 ^ 54 - 1) * 2 ^ 970

/-- What `magnitude` gives before it is cut off at infinity. -/
def unbounded (num den : Nat) : Nat :=
  let guess : Int := max (-1074) ((num.log2 : Int) - (den.log2 : Int) - 53)
  if roundScaled num den guess < 2 ^ 53 then
    (guess + 1074).toNat * 2 ^ 52 + roundScaled num den guess
  else (guess + 1 + 1074).toNat * 2 ^ 52 + roundScaled num den (guess + 1)

theorem magnitude_eq (num den : Nat) :
    magnitude num den = min (2047 * 2 ^ 52) (unbounded num den) := by
  unfold magnitude unbounded
  dsimp only
  split
  · next h =>
    rw [if_pos (show _ < 2 ^ 53 from h)]
    rfl
  · next h =>
    rw [if_neg (show ¬ _ < 2 ^ 53 from h)]
    rfl

/-- A quotient below `2 ^ 1023` is far from the end. -/
theorem unbounded_lt {num den : Nat} (hden : den ≠ 0) (h : num.log2 ≤ den.log2 + 1022) :
    unbounded num den < 2047 * 2 ^ 52 := by
  unfold unbounded
  dsimp only
  generalize hguess : max (-1074) ((num.log2 : Int) - (den.log2 : Int) - 53) = guess
  have hlow : (num.log2 : Int) - den.log2 - 52 ≤ guess + 1 := by omega
  have := roundScaled_le_of_log2 hden hlow
  split <;> omega

theorem unbounded_eq {num den n : Nat} (h : num.log2 = den.log2 + 53 + n) :
    unbounded num den = if roundScaled num den n < 2 ^ 53 then
        (n + 1074) * 2 ^ 52 + roundScaled num den n
      else (n + 1075) * 2 ^ 52 + roundScaled num den (n + 1 : Nat) := by
  have hguess : max (-1074) ((num.log2 : Int) - (den.log2 : Int) - 53) = n := by omega
  have hnext : ((n : Int) + 1 + 1074).toNat = n + 1075 := by omega
  have hthis : ((n : Int) + 1074).toNat = n + 1074 := by omega
  rw [unbounded, hguess, hnext, hthis]
  rfl

theorem unbounded_lt_iff {num den : Nat} (hnum : num ≠ 0) (hden : den ≠ 0) :
    unbounded num den < 2047 * 2 ^ 52 ↔ num < den * overflow := by
  have hpos : 0 < den := Nat.pos_of_ne_zero hden
  have hnumLow : 2 ^ num.log2 ≤ num := Nat.log2_self_le hnum
  have hnumHigh : num < 2 ^ (num.log2 + 1) := Nat.lt_log2_self
  have hdenLow : 2 ^ den.log2 ≤ den := Nat.log2_self_le hden
  have hdenHigh : den < 2 ^ (den.log2 + 1) := Nat.lt_log2_self
  -- the power of the unit in which the numbers at the end of the range are counted
  obtain ⟨e, he⟩ : ∃ e : Nat, e = 970 := ⟨970, rfl⟩
  rw [overflow, ← he, Nat.mul_left_comm]
  by_cases hsmall : num.log2 ≤ den.log2 + 1022
  · refine iff_of_true (unbounded_lt hden hsmall) ?_
    calc num < 2 ^ (num.log2 + 1) := hnumHigh
      _ ≤ 2 ^ (den.log2 + e + 53) := Nat.pow_le_pow_right (by decide) (by omega)
      _ = 2 ^ den.log2 * 2 ^ e * 2 ^ 53 := by rw [Nat.pow_add, Nat.pow_add]
      _ ≤ den * 2 ^ e * (2 ^ 54 - 1) :=
        Nat.mul_le_mul (Nat.mul_le_mul_right _ hdenLow) (by decide)
      _ = (2 ^ 54 - 1) * (den * 2 ^ e) := Nat.mul_comm _ _
  obtain ⟨n, hn, hlog⟩ : ∃ n, e ≤ n ∧ num.log2 = den.log2 + 53 + n :=
    ⟨num.log2 - den.log2 - 53, by omega, by omega⟩
  have hhere : ∀ k, k % 2 = 0 →
      (roundScaled num den n < k ↔ 2 * num < (2 * k - 1) * (den * 2 ^ n)) :=
    fun k hk => roundScaled_lt_iff hpos hk n
  have hnext : ∀ k, k % 2 = 0 →
      (roundScaled num den (n + 1 : Nat) < k ↔ 2 * num < (2 * k - 1) * (2 * (den * 2 ^ n))) := by
    intro k hk
    rw [roundScaled_lt_iff hpos hk, Nat.pow_succ, ← Nat.mul_assoc den, Nat.mul_comm _ 2]
  have hfirst := hhere (2 ^ 53) (by decide)
  have hfirst' := hhere (2 ^ 52) (by decide)
  have hsecond := hnext (2 ^ 53) (by decide)
  have hsecond' := hnext (2 ^ 52) (by decide)
  rw [unbounded_eq hlog]
  have hdouble : ∀ m, den * 2 ^ (m + 1) = 2 * (den * 2 ^ m) := fun m => by
    rw [Nat.pow_succ, ← Nat.mul_assoc, Nat.mul_comm]
  obtain rfl | rfl | hlarge : n = e ∨ n = e + 1 ∨ e + 2 ≤ n := by omega
  · generalize den * 2 ^ n = unit at *
    split <;> omega
  · rw [hdouble] at hfirst hfirst' hsecond hsecond'
    generalize den * 2 ^ e = unit at *
    split <;> omega
  · have hunit : 2 ^ 52 * (den * 2 ^ n) ≤ num := by
      calc 2 ^ 52 * (den * 2 ^ n) ≤ 2 ^ 52 * (2 ^ (den.log2 + 1) * 2 ^ n) :=
            Nat.mul_le_mul_left _ (Nat.mul_le_mul_right _ hdenHigh.le)
        _ = 2 ^ num.log2 := by
            rw [← Nat.pow_add, ← Nat.pow_add, hlog]
            congr 1
            omega
        _ ≤ num := hnumLow
    have hend : 2 * (2 * (den * 2 ^ e)) ≤ den * 2 ^ n := by
      rw [← hdouble, ← hdouble]
      exact Nat.mul_le_mul_left _ (Nat.pow_le_pow_right (by decide) hlarge)
    generalize den * 2 ^ n = unit at *
    generalize den * 2 ^ e = unit' at *
    split <;> omega

theorem magnitude_lt_iff {num den : Nat} (hnum : num ≠ 0) (hden : den ≠ 0) :
    magnitude num den < 2047 * 2 ^ 52 ↔ num < den * overflow := by
  rw [magnitude_eq, ← unbounded_lt_iff hnum hden]
  omega

/-- The pattern after the greatest finite one is that of infinity. -/
theorem isFinite_ofMagnitude_iff {negative : Bool} {m : Nat} (h : m ≤ 2047 * 2 ^ 52) :
    (ofMagnitude negative m).isFinite = true ↔ m < 2047 * 2 ^ 52 := by
  refine ⟨fun hfinite => ?_, fun hlt => isFinite_ofMagnitude hlt⟩
  have hinfinite : (ofMagnitude negative (2047 * 2 ^ 52)).isFinite = false := by
    cases negative <;> rfl
  refine Nat.lt_of_le_of_ne h fun heq => ?_
  rw [heq, hinfinite] at hfinite
  cases hfinite

theorem overflow_le : overflow ≤ 10 ^ 400 := by
  obtain ⟨e, he⟩ : ∃ e : Nat, e = 970 := ⟨970, rfl⟩
  obtain ⟨n, hn⟩ : ∃ n : Nat, n = 400 := ⟨400, rfl⟩
  rw [overflow, ← he, ← hn]
  calc (2 ^ 54 - 1) * 2 ^ e ≤ 2 ^ 54 * 2 ^ e := Nat.mul_le_mul_right _ (by decide)
    _ = 2 ^ (54 + e) := (Nat.pow_add ..).symm
    _ ≤ 2 ^ (3 * n) := Nat.pow_le_pow_right (by decide) (by omega)
    _ = (2 ^ 3) ^ n := Nat.pow_mul ..
    _ ≤ 10 ^ n := Nat.pow_le_pow_left (by decide) n

theorem overflow_pos : 0 < overflow := by
  obtain ⟨e, he⟩ : ∃ e : Nat, e = 970 := ⟨970, rfl⟩
  rw [overflow, ← he]
  exact Nat.mul_pos (by decide) (Nat.pow_pos (by decide))

/-- The first digit of a number gives its size. -/
theorem pow_le_of_length_toDigits {digits : Nat} (h : digits ≠ 0) {n : Nat}
    (hn : (Nat.toDigits 10 digits).length = n + 1) : 10 ^ n ≤ digits ∧ digits < 10 ^ (n + 1) := by
  constructor
  · cases n with
    | zero => exact Nat.pos_of_ne_zero h
    | succ n =>
      have hlong : ¬ (Nat.toDigits 10 digits).length ≤ n + 1 := by omega
      rwa [Nat.length_toDigits_le_iff (by decide) (Nat.succ_pos n), Nat.not_lt] at hlong
  · exact (Nat.length_toDigits_le_iff (by decide) (Nat.succ_pos n)).1 hn.le

theorem magnitude_le (num den : Nat) : magnitude num den ≤ 2047 * 2 ^ 52 := Nat.min_le_left _ _

/-- A decimal is cut off to zero or to infinity, or rounded as a quotient. -/
theorem ofDecimal_cases (negative : Bool) (digits : Nat) (exponent : Int) :
    ((digits : ℚ) * 10 ^ exponent < 10 ^ (-400 : Int) ∧
      ofDecimal negative digits exponent = ofMagnitude negative 0) ∨
    ((10 : ℚ) ^ (400 : Int) ≤ digits * 10 ^ exponent ∧
      ofDecimal negative digits exponent = ofMagnitude negative (2047 * 2 ^ 52)) ∨
    ∃ num den : Nat, num ≠ 0 ∧ den ≠ 0 ∧ (digits : ℚ) * 10 ^ exponent = num / den ∧
      ofDecimal negative digits exponent = ofMagnitude negative (magnitude num den) := by
  have hten : (10 : ℚ) ≠ 0 := by decide
  simp only [ofDecimal, Nat.pow_eq]
  by_cases hzero : digits = 0
  · rw [if_pos (.inl hzero), hzero, Nat.cast_zero, zero_mul]
    exact .inl ⟨zpow_pos (by decide) _, rfl⟩
  obtain ⟨n, hn⟩ : ∃ n, (Nat.toDigits 10 digits).length = n + 1 :=
    Nat.exists_eq_add_one.2 Nat.length_toDigits_pos
  obtain ⟨hlow, hhigh⟩ := pow_le_of_length_toDigits hzero hn
  have hscale : (0 : ℚ) < 10 ^ exponent := zpow_pos (by decide) exponent
  have hleast : (10 : ℚ) ^ ((n : Int) + exponent) ≤ digits * 10 ^ exponent := by
    rw [zpow_add₀ hten, zpow_natCast]
    exact mul_le_mul_of_nonneg_right (by exact_mod_cast hlow) hscale.le
  have hmost : (digits : ℚ) * 10 ^ exponent < 10 ^ (((n + 1 : Nat) : Int) + exponent) := by
    rw [zpow_add₀ hten, zpow_natCast]
    exact mul_lt_mul_of_pos_right (by exact_mod_cast hhigh) hscale
  rw [hn]
  by_cases hsmall : exponent + (n + 1 : Nat) < -400
  · rw [if_pos (.inr hsmall)]
    exact .inl ⟨hmost.trans_le (zpow_le_zpow_right₀ (by decide) (by omega)), rfl⟩
  rw [if_neg (not_or.2 ⟨hzero, hsmall⟩)]
  by_cases hlarge : 400 < exponent + (n + 1 : Nat)
  · rw [if_pos hlarge]
    exact .inr (.inl ⟨(zpow_le_zpow_right₀ (by decide) (by omega)).trans hleast, rfl⟩)
  rw [if_neg hlarge]
  refine .inr (.inr ?_)
  by_cases hsign : 0 ≤ exponent
  · obtain ⟨e, rfl⟩ := Int.eq_ofNat_of_zero_le hsign
    have hdigits : digits * 10 ^ e ≠ 0 := Nat.mul_ne_zero hzero (Nat.pow_pos (by decide)).ne'
    rw [if_pos hsign]
    refine ⟨digits * 10 ^ e, 1, hdigits, Nat.one_ne_zero, ?_, rfl⟩
    rw [Nat.cast_one, div_one, Nat.cast_mul, Nat.cast_pow, Nat.cast_ofNat, zpow_natCast]
  · obtain ⟨e, rfl⟩ : ∃ e : Nat, exponent = -e := ⟨(-exponent).toNat, by omega⟩
    rw [if_neg hsign, neg_neg, Int.toNat_natCast]
    refine ⟨digits, 10 ^ e, hzero, (Nat.pow_pos (by decide)).ne', ?_, rfl⟩
    rw [zpow_neg, zpow_natCast, ← div_eq_mul_inv, Nat.cast_pow, Nat.cast_ofNat]

/-- The nearest double is finite just below the end of the range. -/
theorem isFinite_ofDecimal_iff (negative : Bool) (digits : Nat) (exponent : Int) :
    (ofDecimal negative digits exponent).isFinite = true ↔
      (digits : ℚ) * 10 ^ exponent < overflow := by
  obtain ⟨hvalue, heq⟩ | ⟨hvalue, heq⟩ | ⟨num, den, hnum, hden, hvalue, heq⟩ :=
    ofDecimal_cases negative digits exponent
  · rw [heq, isFinite_ofMagnitude_iff (Nat.zero_le _)]
    refine iff_of_true (by decide) ?_
    calc (digits : ℚ) * 10 ^ exponent < 10 ^ (-400 : Int) := hvalue
      _ ≤ 10 ^ (0 : Int) := zpow_le_zpow_right₀ (by decide) (by decide)
      _ = 1 := zpow_zero _
      _ ≤ overflow := Nat.one_le_cast.2 overflow_pos
  · rw [heq, isFinite_ofMagnitude_iff (Nat.le_refl _)]
    refine iff_of_false (Nat.lt_irrefl _) (not_lt.2 ?_)
    calc (overflow : ℚ) ≤ ((10 ^ 400 : Nat) : ℚ) := Nat.cast_le.2 overflow_le
      _ = (10 : ℚ) ^ ((400 : Nat) : Int) := by rw [zpow_natCast, Nat.cast_pow, Nat.cast_ofNat]
      _ ≤ digits * 10 ^ exponent := hvalue
  · have hden' : (0 : ℚ) < den := Nat.cast_pos.2 (Nat.pos_of_ne_zero hden)
    rw [heq, isFinite_ofMagnitude_iff (magnitude_le ..), magnitude_lt_iff hnum hden, hvalue,
      div_lt_iff₀ hden', mul_comm, ← Nat.cast_mul, Nat.cast_lt]

end GraphQL.Binary64
