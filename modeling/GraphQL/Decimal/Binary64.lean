/-!
Binary floating-point numbers of 64 bits, held as their bit pattern and read exactly.

A finite pattern stands for `±significand · 2^power`; `ofDecimal` takes a decimal number to the
nearest pattern, a half going to the even significand.
-/

set_option autoImplicit false

namespace GraphQL

/-- A 64-bit binary floating-point number, given by its bit pattern. -/
structure Binary64 where
  bits : UInt64
  deriving DecidableEq, Repr, Inhabited

namespace Binary64

def fraction (x : Binary64) : Nat := x.bits.toNat % Nat.pow 2 52

def biasedExponent (x : Binary64) : Nat := x.bits.toNat / Nat.pow 2 52 % Nat.pow 2 11

def isNegative (x : Binary64) : Bool := Nat.pow 2 63 ≤ x.bits.toNat

/-- Infinities and NaNs have all exponent bits set. -/
def isFinite (x : Binary64) : Bool := x.biasedExponent != 2047

def significand (x : Binary64) : Nat :=
  if x.biasedExponent = 0 then x.fraction else Nat.pow 2 52 + x.fraction

def power (x : Binary64) : Int :=
  if x.biasedExponent = 0 then -1074 else (x.biasedExponent : Int) - 1075

def isZero (x : Binary64) : Bool := x.bits.toNat % Nat.pow 2 63 == 0

/-- Numeric equality of finite numbers: the two zeros are equal. -/
def equal (x y : Binary64) : Bool := x.bits == y.bits || (x.isZero && y.isZero)

theorem equal_refl (x : Binary64) : x.equal x = true := by simp [equal]

theorem equal_comm (x y : Binary64) : x.equal y = y.equal x := by
  unfold equal
  rw [Bool.and_comm, show (x.bits == y.bits) = (y.bits == x.bits) from Bool.beq_comm]

theorem equal_trans {x y z : Binary64} (hxy : x.equal y = true) (hyz : y.equal z = true) :
    x.equal z = true := by
  simp only [equal, isZero, Bool.or_eq_true, beq_iff_eq, Bool.and_eq_true] at *
  rcases hxy with h | ⟨h₁, h₂⟩ <;> rcases hyz with h' | ⟨h₁', h₂'⟩
  · exact .inl (h.trans h')
  · exact .inr ⟨h ▸ h₁', h₂'⟩
  · exact .inr ⟨h₁, h' ▸ h₂⟩
  · exact .inr ⟨h₁, h₂'⟩

/-- The integer that a finite number is, if it is one. -/
def toInt? (x : Binary64) : Option Int :=
  if !x.isFinite then none
  else
    let sign : Int := if x.isNegative then -1 else 1
    if 0 ≤ x.power then some (sign * (x.significand * Nat.pow 2 x.power.toNat : Nat))
    else
      let unit := Nat.pow 2 (-x.power).toNat
      if x.significand % unit = 0 then some (sign * (x.significand / unit : Nat)) else none

/-- `num / den` to the nearest integer, a half going to the even neighbour. -/
def roundDiv (num den : Nat) : Nat :=
  let q := num / den
  let r := num % den
  if 2 * r < den then q
  else if den < 2 * r then q + 1
  else if q % 2 = 0 then q else q + 1

/-- `num / den / 2^power` to the nearest integer. -/
def roundScaled (num den : Nat) (power : Int) : Nat :=
  if 0 ≤ power then roundDiv num (den * Nat.pow 2 power.toNat)
  else roundDiv (num * Nat.pow 2 (-power).toNat) den

/-- The magnitude bits nearest to the positive quotient `num / den`; too large a quotient gives
the pattern of infinity. -/
def magnitude (num den : Nat) : Nat :=
  let guess : Int := max (-1074) ((num.log2 : Int) - (den.log2 : Int) - 53)
  let m := roundScaled num den guess
  let (m, power) :=
    if m < Nat.pow 2 53 then (m, guess) else (roundScaled num den (guess + 1), guess + 1)
  min (2047 * Nat.pow 2 52) ((power + 1074).toNat * Nat.pow 2 52 + m)

def ofMagnitude (negative : Bool) (magnitude : Nat) : Binary64 :=
  ⟨UInt64.ofNat (magnitude + if negative then Nat.pow 2 63 else 0)⟩

/-- The number nearest to `± digits · 10^exponent`. Exponents so far out that the answer is zero
or infinity whatever the digits are cut off before any power is taken. -/
def ofDecimal (negative : Bool) (digits : Nat) (exponent : Int) : Binary64 :=
  let size : Int := exponent + (Nat.toDigits 10 digits).length
  ofMagnitude negative <|
    if digits = 0 ∨ size < -400 then 0
    else if 400 < size then 2047 * Nat.pow 2 52
    else if 0 ≤ exponent then magnitude (digits * Nat.pow 10 exponent.toNat) 1
    else magnitude digits (Nat.pow 10 (-exponent).toNat)

def ofInt (i : Int) : Binary64 := ofDecimal (i < 0) i.natAbs 0

end Binary64

end GraphQL
