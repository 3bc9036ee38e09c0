import GraphQL.Proofs.Decimal.Overflow
import Mathlib.Algebra.Order.AbsoluteValue.Basic
import Mathlib.Tactic.NormNum

/-!
A decimal number is read as a double that is nearest to it.

Rounding takes a quotient to the nearest multiple of a power of two. Doubles with a power that is no
less are such multiples too, and those with a smaller one are all below the quotient and further
away (`Binary64.Rounds.nearest`).
-/

set_option autoImplicit false

namespace GraphQL.Binary64

/-- A magnitude with its sign. -/
def signed (negative : Bool) (v : ℚ) : ℚ := if negative then -v else v

theorem abs_signed (negative : Bool) (v : ℚ) : |signed negative v| = |v| := by
  cases negative
  · rfl
  · exact abs_neg v

theorem abs_signed_sub_signed (negative : Bool) (v w : ℚ) :
    |signed negative v - signed negative w| = |v - w| := by
  cases negative
  · rfl
  · exact (congrArg abs (neg_sub_neg v w)).trans (abs_sub_comm w v)

/-- The number that a finite pattern stands for, without its sign. -/
def absolute (x : Binary64) : ℚ := x.significand * 2 ^ x.power

def toRat (x : Binary64) : ℚ := signed x.isNegative x.absolute

theorem absolute_nonneg (x : Binary64) : 0 ≤ x.absolute :=
  mul_nonneg (Nat.cast_nonneg _) (zpow_pos (by decide) _).le

theorem significand_lt (x : Binary64) : x.significand < 2 ^ 53 := by
  have hfraction : x.fraction < 2 ^ 52 := Nat.mod_lt _ (by decide)
  have hpow : Nat.pow 2 52 = 2 ^ 52 := rfl
  unfold significand
  split <;> omega

theorem le_power (x : Binary64) : -1074 ≤ x.power := by
  unfold power
  split <;> omega

theorem abs_sub_roundDiv_le (num : Nat) {den : Nat} (hden : 0 < den) :
    |(num : ℚ) / den - roundDiv num den| ≤ 1 / 2 := by
  have hden' : (0 : ℚ) < den := Nat.cast_pos.2 hden
  have hnum : den * (num / den) + num % den = num := Nat.div_add_mod num den
  have hrest : num % den < den := Nat.mod_lt num hden
  have hbounds : 2 * num ≤ 2 * (roundDiv num den * den) + den ∧
      2 * (roundDiv num den * den) ≤ 2 * num + den := by
    rw [Nat.mul_comm]
    unfold roundDiv
    dsimp only
    generalize num / den = q at *
    generalize num % den = r at *
    split_ifs <;> simp only [Nat.mul_add, Nat.add_mul, Nat.mul_comm den, Nat.one_mul] at * <;> omega
  obtain ⟨hlow, hhigh⟩ := hbounds
  have hlow' : (2 : ℚ) * num ≤ 2 * (roundDiv num den * den) + den := by exact_mod_cast hlow
  have hhigh' : (2 : ℚ) * (roundDiv num den * den) ≤ 2 * num + den := by exact_mod_cast hhigh
  have hsub : (num : ℚ) / den - roundDiv num den = (num - roundDiv num den * den) / den := by
    field_simp
  rw [hsub, abs_le, div_le_iff₀ hden', le_div_iff₀ hden']
  constructor <;> linarith

theorem abs_sub_roundScaled_le (num : Nat) {den : Nat} (hden : 0 < den) (power : Int) :
    |(num : ℚ) / den / 2 ^ power - roundScaled num den power| ≤ 1 / 2 := by
  have htwo : (2 : ℚ) ≠ 0 := by decide
  unfold roundScaled
  by_cases hpower : 0 ≤ power
  · obtain ⟨n, rfl⟩ := Int.eq_ofNat_of_zero_le hpower
    have hunit : 0 < 2 ^ n := Nat.pow_pos (by decide)
    have hround := abs_sub_roundDiv_le num (Nat.mul_pos hden hunit)
    rw [if_pos hpower, Int.toNat_natCast, zpow_natCast, div_div]
    rwa [Nat.cast_mul, Nat.cast_pow, Nat.cast_ofNat] at hround
  · obtain ⟨n, rfl⟩ : ∃ n : Nat, power = -n := ⟨(-power).toNat, by omega⟩
    have hround := abs_sub_roundDiv_le (num * 2 ^ n) hden
    rw [if_neg hpower, neg_neg, Int.toNat_natCast, zpow_neg, zpow_natCast, div_inv_eq_mul,
      div_mul_eq_mul_div]
    rwa [Nat.cast_mul, Nat.cast_pow, Nat.cast_ofNat] at hround

/-- What rounding takes a quotient to: the nearest multiple of a power of two. It has 53 bits, or
the power is the least one. -/
structure Rounds (num den m : Nat) (power : Int) : Prop where
  least : -1074 ≤ power
  near : |(num : ℚ) / den / 2 ^ power - m| ≤ 1 / 2
  fits : m ≤ 2 ^ 53
  full : power ≠ -1074 → 2 ^ 52 - 1 / 4 ≤ (num : ℚ) / den / 2 ^ power

theorem le_quotient {num den : Nat} {power : Int} (hnum : num ≠ 0) (hden : den ≠ 0)
    (h : power + 53 ≤ (num.log2 : Int) - den.log2) : 2 ^ 52 ≤ (num : ℚ) / den / 2 ^ power := by
  have htwo : (2 : ℚ) ≠ 0 := by decide
  have hnumLow : ((2 ^ num.log2 : Nat) : ℚ) ≤ num := Nat.cast_le.2 (Nat.log2_self_le hnum)
  have hdenHigh : (den : ℚ) ≤ ((2 ^ (den.log2 + 1) : Nat) : ℚ) := Nat.cast_le.2 Nat.lt_log2_self.le
  have hden' : (0 : ℚ) < den := Nat.cast_pos.2 (Nat.pos_of_ne_zero hden)
  rw [le_div_iff₀ (zpow_pos (by decide) _), le_div_iff₀ hden']
  rw [Nat.cast_pow, Nat.cast_ofNat] at hnumLow hdenHigh
  calc (2 : ℚ) ^ 52 * 2 ^ power * den ≤ 2 ^ 52 * 2 ^ power * 2 ^ (den.log2 + 1) :=
        mul_le_mul_of_nonneg_left hdenHigh (mul_pos (by decide) (zpow_pos (by decide) _)).le
    _ = 2 ^ ((52 : Int) + power + (den.log2 + 1 : Nat)) := by
        rw [zpow_add₀ htwo, zpow_add₀ htwo, zpow_natCast]
        rfl
    _ ≤ 2 ^ ((num.log2 : Nat) : Int) := zpow_le_zpow_right₀ (by decide) (by omega)
    _ = 2 ^ num.log2 := zpow_natCast _ _
    _ ≤ num := hnumLow

theorem exists_rounds {num den : Nat} (hnum : num ≠ 0) (hden : den ≠ 0) :
    ∃ m power, Rounds num den m power ∧
      unbounded num den = (power + 1074).toNat * 2 ^ 52 + m := by
  have hpos : 0 < den := Nat.pos_of_ne_zero hden
  unfold unbounded
  dsimp only
  generalize hguess : max (-1074) ((num.log2 : Int) - (den.log2 : Int) - 53) = guess
  split
  · next hfits =>
    refine ⟨_, guess,
      ⟨by omega, abs_sub_roundScaled_le num hpos guess, hfits.le, fun hne => ?_⟩, rfl⟩
    have hquotient : 2 ^ 52 ≤ (num : ℚ) / den / 2 ^ guess := le_quotient hnum hden (by omega)
    linarith
  · next hlarge =>
    refine ⟨_, guess + 1, ⟨by omega, abs_sub_roundScaled_le num hpos _,
      roundScaled_le_of_log2 hden (by omega), fun hne => ?_⟩, rfl⟩
    have hnear := (abs_le.1 (abs_sub_roundScaled_le num hpos guess)).1
    have hlarge' : (2 : ℚ) ^ 53 ≤ roundScaled num den guess := by exact_mod_cast not_lt.1 hlarge
    rw [zpow_add_one₀ (by decide), ← div_div]
    linarith

/-- No integer is nearer than one within a half. -/
theorem abs_sub_le_abs_sub {x : ℚ} {m : Nat} (h : |x - m| ≤ 1 / 2) (k : Nat) :
    |x - m| ≤ |x - k| := by
  obtain rfl | hne := eq_or_ne k m
  · exact le_rfl
  have hone : (1 : ℚ) ≤ |(m : ℚ) - k| := by
    have hint : (1 : Int) ≤ |(m : Int) - k| := Int.one_le_abs (by omega)
    exact_mod_cast hint
  have htriangle : |(m : ℚ) - k| ≤ |x - m| + |x - k| := by
    rw [abs_sub_comm x m]
    exact abs_sub_le _ _ _
  linarith

namespace Rounds

variable {num den m : Nat} {power : Int}

/-- No number of 53 bits times a power of two is nearer. -/
theorem nearest (h : Rounds num den m power) {s : Nat} {q : Int} (hs : s < 2 ^ 53)
    (hq : -1074 ≤ q) : |(num : ℚ) / den - m * 2 ^ power| ≤ |(num : ℚ) / den - s * 2 ^ q| := by
  have htwo : (2 : ℚ) ≠ 0 := by decide
  have hunit : (0 : ℚ) < 2 ^ power := zpow_pos (by decide) power
  -- everything is measured in the unit of the result
  have hscale : ∀ x : ℚ,
      |(num : ℚ) / den - x * 2 ^ power| = |(num : ℚ) / den / 2 ^ power - x| * 2 ^ power := by
    intro x
    rw [← abs_of_pos hunit, ← abs_mul, abs_of_pos hunit, sub_mul, div_mul_cancel₀ _ hunit.ne']
  have hother : (s : ℚ) * 2 ^ q = s * 2 ^ (q - power) * 2 ^ power := by
    rw [mul_assoc, ← zpow_add₀ htwo, sub_add_cancel]
  rw [hother, hscale, hscale]
  refine mul_le_mul_of_nonneg_right ?_ hunit.le
  have hnearest := abs_sub_le_abs_sub h.near
  by_cases hle : power ≤ q
  · obtain ⟨n, hn⟩ := Int.eq_ofNat_of_zero_le (Int.sub_nonneg_of_le hle)
    have hmultiple := hnearest (s * 2 ^ n)
    rwa [Nat.cast_mul, Nat.cast_pow, Nat.cast_ofNat, ← zpow_natCast, ← hn] at hmultiple
  · have hfull := h.full (by omega)
    have hs' : (s : ℚ) ≤ 2 ^ 53 - 1 := by
      have : (s : ℚ) + 1 ≤ 2 ^ 53 := by exact_mod_cast hs
      linarith
    have hhalf : (2 : ℚ) ^ (q - power) ≤ 1 / 2 := by
      calc (2 : ℚ) ^ (q - power) ≤ 2 ^ (-1 : Int) := zpow_le_zpow_right₀ (by decide) (by omega)
        _ = 1 / 2 := by norm_num
    have hsmall : (s : ℚ) * 2 ^ (q - power) ≤ 2 ^ 52 - 1 / 2 := by
      calc (s : ℚ) * 2 ^ (q - power) ≤ (2 ^ 53 - 1) * (1 / 2) :=
            mul_le_mul hs' hhalf (zpow_pos (by decide) _).le (by norm_num)
        _ = 2 ^ 52 - 1 / 2 := by norm_num
    have hbound := hnearest (2 ^ 52)
    rw [Nat.cast_pow, Nat.cast_ofNat] at hbound
    generalize (num : ℚ) / den / 2 ^ power = t at *
    generalize (s : ℚ) * 2 ^ (q - power) = w at *
    calc |t - m| ≤ |t - 2 ^ 52| := hbound
      _ ≤ t - w := abs_le.2 ⟨by linarith, by linarith⟩
      _ ≤ |t - w| := le_abs_self _

/-- A result with no less than the least power has its 53rd bit. -/
theorem le_of_ne (h : Rounds num den m power) (hne : power ≠ -1074) : 2 ^ 52 ≤ m := by
  have hnear := (abs_le.1 h.near).2
  have hfull := h.full hne
  have hm : (2 : ℚ) ^ 52 < m + 1 := by linarith
  have hm' : 2 ^ 52 < m + 1 := by exact_mod_cast hm
  omega

end Rounds

/-- The parts of a pattern. -/
theorem parts_ofMagnitude (negative : Bool) {m : Nat} (h : m < 2047 * 2 ^ 52) :
    (ofMagnitude negative m).fraction = m % 2 ^ 52 ∧
      (ofMagnitude negative m).biasedExponent = m / 2 ^ 52 ∧
      (ofMagnitude negative m).isNegative = negative := by
  have hsize : UInt64.size = 18446744073709551616 := rfl
  have hsign : Nat.pow 2 63 = 9223372036854775808 := rfl
  have hbits : m + (if negative then Nat.pow 2 63 else 0) < UInt64.size := by
    split <;> omega
  have htoNat := UInt64.toNat_ofNat_of_lt' hbits
  simp only [fraction, biasedExponent, isNegative, ofMagnitude, htoNat, Nat.pow_eq]
  cases negative
  · simp only [Bool.false_eq_true, if_false, decide_eq_false_iff_not]
    omega
  · simp only [if_true, decide_eq_true_iff]
    omega

/-- A result is packed into a pattern that stands for it. -/
theorem absolute_ofMagnitude {negative : Bool} {m : Nat} {power : Int} (hleast : -1074 ≤ power)
    (hfits : m ≤ 2 ^ 53) (hfull : power ≠ -1074 → 2 ^ 52 ≤ m)
    (hfinite : (power + 1074).toNat * 2 ^ 52 + m < 2047 * 2 ^ 52) :
    (ofMagnitude negative ((power + 1074).toNat * 2 ^ 52 + m)).absolute = m * 2 ^ power := by
  obtain ⟨n, rfl⟩ : ∃ n : Nat, power = n - 1074 := ⟨(power + 1074).toNat, by omega⟩
  obtain ⟨hfraction, hexponent, -⟩ := parts_ofMagnitude negative hfinite
  have hn : ((n : Int) - 1074 + 1074).toNat = n := by omega
  rw [hn] at hfraction hexponent hfinite ⊢
  have hpow : Nat.pow 2 52 = 2 ^ 52 := rfl
  rw [absolute, significand, power, hfraction, hexponent, hpow]
  obtain hsmall | hnormal | hnext : m < 2 ^ 52 ∨ 2 ^ 52 ≤ m ∧ m < 2 ^ 53 ∨ m = 2 ^ 53 := by omega
  · -- only the least power leaves the bit out
    obtain rfl : n = 0 := by
      by_contra hne
      have := hfull (by omega)
      omega
    have hexponent : (0 * 2 ^ 52 + m) / 2 ^ 52 = 0 := by omega
    have hfraction : (0 * 2 ^ 52 + m) % 2 ^ 52 = m := by omega
    rw [if_pos hexponent, if_pos hexponent, hfraction]
    rfl
  · have hexponent : (n * 2 ^ 52 + m) / 2 ^ 52 = n + 1 := by omega
    have hfraction : 2 ^ 52 + (n * 2 ^ 52 + m) % 2 ^ 52 = m := by omega
    have hpower : ((n + 1 : Nat) : Int) - 1075 = n - 1074 := by omega
    rw [hexponent, if_neg n.succ_ne_zero, if_neg n.succ_ne_zero, hfraction, hpower]
  · have hexponent : (n * 2 ^ 52 + m) / 2 ^ 52 = n + 2 := by omega
    have hfraction : 2 ^ 52 + (n * 2 ^ 52 + m) % 2 ^ 52 = 2 ^ 52 := by omega
    have hpower : ((n + 2 : Nat) : Int) - 1075 = n - 1074 + 1 := by omega
    rw [hexponent, if_neg (n + 1).succ_ne_zero, if_neg (n + 1).succ_ne_zero, hfraction, hpower,
      zpow_add_one₀ (by decide), hnext]
    push_cast
    ring

/-- The nearest pattern to a quotient. -/
theorem nearest_magnitude {negative : Bool} {num den : Nat} (hnum : num ≠ 0) (hden : den ≠ 0)
    (hfinite : (ofMagnitude negative (magnitude num den)).isFinite = true) (y : Binary64) :
    |(num : ℚ) / den - (ofMagnitude negative (magnitude num den)).absolute| ≤
      |(num : ℚ) / den - y.absolute| := by
  rw [isFinite_ofMagnitude_iff (magnitude_le num den)] at hfinite
  obtain ⟨m, power, hrounds, heq⟩ := exists_rounds hnum hden
  have hmagnitude : magnitude num den = (power + 1074).toNat * 2 ^ 52 + m := by
    rw [magnitude_eq] at hfinite ⊢
    omega
  rw [hmagnitude] at hfinite ⊢
  rw [absolute_ofMagnitude hrounds.least hrounds.fits hrounds.le_of_ne hfinite]
  exact hrounds.nearest y.significand_lt y.le_power

/-- What is cut off to zero is nearer to zero than to the least positive double. -/
theorem two_mul_le_least : 2 * (10 : ℚ) ^ (-400 : Int) ≤ 2 ^ (-1074 : Int) := by
  obtain ⟨n, hn⟩ : ∃ n : Nat, n = 400 := ⟨400, rfl⟩
  have hpow : (2 : ℚ) ^ (3 * n) ≤ 10 ^ n := by
    rw [pow_mul]
    exact pow_le_pow_left₀ (by decide) (by decide) n
  have hn' : (-400 : Int) = -(n : Int) := by omega
  calc 2 * (10 : ℚ) ^ (-400 : Int) = 2 * ((10 : ℚ) ^ n)⁻¹ := by rw [hn', zpow_neg, zpow_natCast]
    _ ≤ 2 * ((2 : ℚ) ^ (3 * n))⁻¹ :=
      mul_le_mul_of_nonneg_left (inv_anti₀ (pow_pos (by decide) _) hpow) (by decide)
    _ = 2 ^ (1 + -((3 * n : Nat) : Int)) := by
      rw [zpow_add₀ (by decide), zpow_neg, zpow_natCast, zpow_one]
    _ ≤ 2 ^ (-1074 : Int) := zpow_le_zpow_right₀ (by decide) (by omega)

theorem least_le_absolute {y : Binary64} (h : y.absolute ≠ 0) : 2 ^ (-1074 : Int) ≤ y.absolute := by
  have hsignificand : y.significand ≠ 0 := by
    intro hzero
    rw [absolute, hzero, Nat.cast_zero, zero_mul] at h
    exact h rfl
  calc (2 : ℚ) ^ (-1074 : Int) ≤ 2 ^ y.power := zpow_le_zpow_right₀ (by decide) y.le_power
    _ = ((1 : Nat) : ℚ) * 2 ^ y.power := by rw [Nat.cast_one, one_mul]
    _ ≤ y.absolute := mul_le_mul_of_nonneg_right
      (Nat.cast_le.2 (Nat.one_le_iff_ne_zero.2 hsignificand)) (zpow_pos (by decide) _).le

section

variable {negative : Bool} {digits : Nat} {exponent : Int}

theorem decimal_nonneg (digits : Nat) (exponent : Int) : (0 : ℚ) ≤ digits * 10 ^ exponent :=
  mul_nonneg (Nat.cast_nonneg _) (zpow_pos (by decide) _).le

theorem abs_sub_absolute_le (hfinite : (ofDecimal negative digits exponent).isFinite = true)
    (y : Binary64) :
    |(digits : ℚ) * 10 ^ exponent - (ofDecimal negative digits exponent).absolute| ≤
      |(digits : ℚ) * 10 ^ exponent - y.absolute| := by
  obtain ⟨hvalue, heq⟩ | ⟨-, heq⟩ | ⟨num, den, hnum, hden, hvalue, heq⟩ :=
    ofDecimal_cases negative digits exponent
  · have hzero : (ofMagnitude negative 0).absolute = 0 := by
      cases negative <;> exact zero_mul _
    rw [heq, hzero]
    by_cases hy : y.absolute = 0
    · rw [hy]
    · have hleast := least_le_absolute hy
      have htwo := two_mul_le_least
      rw [sub_zero, abs_of_nonneg (decimal_nonneg digits exponent), abs_sub_comm]
      refine le_trans ?_ (le_abs_self _)
      linarith
  · rw [heq, isFinite_ofMagnitude_iff (Nat.le_refl _)] at hfinite
    exact absurd hfinite (Nat.lt_irrefl _)
  · rw [heq] at hfinite ⊢
    rw [hvalue]
    exact nearest_magnitude hnum hden hfinite y

theorem isNegative_ofDecimal (hfinite : (ofDecimal negative digits exponent).isFinite = true) :
    (ofDecimal negative digits exponent).isNegative = negative := by
  obtain ⟨-, heq⟩ | ⟨-, heq⟩ | ⟨num, den, -, -, -, heq⟩ := ofDecimal_cases negative digits exponent
  · rw [heq]
    exact (parts_ofMagnitude negative (by decide)).2.2
  · rw [heq, isFinite_ofMagnitude_iff (Nat.le_refl _)] at hfinite
    exact absurd hfinite (Nat.lt_irrefl _)
  · rw [heq, isFinite_ofMagnitude_iff (magnitude_le _ _)] at hfinite
    rw [heq]
    exact (parts_ofMagnitude negative hfinite).2.2

/-- A decimal number is read as a double to which none is nearer. -/
theorem nearest_ofDecimal (hfinite : (ofDecimal negative digits exponent).isFinite = true)
    (y : Binary64) :
    |signed negative (digits * 10 ^ exponent) - (ofDecimal negative digits exponent).toRat| ≤
      |signed negative (digits * 10 ^ exponent) - y.toRat| := by
  rw [toRat, isNegative_ofDecimal hfinite, abs_signed_sub_signed]
  refine (abs_sub_absolute_le hfinite y).trans ?_
  have hmagnitudes := abs_abs_sub_abs_le_abs_sub (signed negative (digits * 10 ^ exponent)) y.toRat
  rwa [abs_signed, abs_of_nonneg (decimal_nonneg digits exponent), toRat, abs_signed,
    abs_of_nonneg y.absolute_nonneg] at hmagnitudes

end

end GraphQL.Binary64
