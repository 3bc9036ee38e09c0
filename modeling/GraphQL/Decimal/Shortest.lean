import GraphQL.Decimal.Binary64

/-!
The shortest decimal number that reads back as a given binary one.

All decimal numbers in the rounding interval of `m · 2^q` read back as it. `shortest` tries one
digit, two digits, … and takes the first decimal grid that has a point in the interval; of the two
neighbours of the value on that grid it takes the nearer, and of two equally near ones the even.
-/

set_option autoImplicit false

namespace GraphQL

/-- The decimal number `digits · 10^exponent`, of either sign. -/
structure Decimal where
  negative : Bool
  digits : Nat
  exponent : Int
  deriving DecidableEq, Repr

namespace Decimal

/-- Moves trailing zeros of the digits into the exponent. -/
def normalize (negative : Bool) : Nat → Nat → Int → Decimal
  | 0, digits, exponent => ⟨negative, digits, exponent⟩
  | fuel + 1, digits, exponent =>
    if digits ≠ 0 ∧ digits % 10 = 0 then normalize negative fuel (digits / 10) (exponent + 1)
    else ⟨negative, digits, exponent⟩

def text (d : Decimal) : List Char := Nat.toDigits 10 d.digits

/-- The power of ten of the first digit. -/
def leading (d : Decimal) : Int := d.exponent + (d.text.length : Int) - 1

end Decimal

namespace Binary64

/-- A value and the ends of its rounding interval over a common denominator. -/
structure Interval where
  low : Nat
  value : Nat
  high : Nat
  denominator : Nat
  closed : Bool

/-- Below a power of two the next number is only half as far away as above it. -/
def interval (x : Binary64) : Interval :=
  let m := x.significand
  let scale := Nat.pow 2 x.power.toNat
  let low := if x.fraction = 0 ∧ 1 < x.biasedExponent then 4 * m - 1 else 4 * m - 2
  ⟨low * scale, 4 * m * scale, (4 * m + 2) * scale, 4 * Nat.pow 2 (-x.power).toNat, m % 2 = 0⟩

namespace Interval

/-- Whether `digits · num / den` lies in the interval. -/
def contains (i : Interval) (digits num den : Nat) : Bool :=
  let point := digits * num * i.denominator
  if i.closed then i.low * den ≤ point ∧ point ≤ i.high * den
  else i.low * den < point ∧ point < i.high * den

/-- The point nearest to the value among those of the grid of step `num / den` that read back. -/
def onGrid? (i : Interval) (num den : Nat) : Option Nat :=
  let step := num * i.denominator
  let value := i.value * den
  let below := value / step
  let rest := value % step
  match i.contains below num den, i.contains (below + 1) num den with
  | false, false => none
  | true, false => some below
  | false, true => some (below + 1)
  | true, true =>
    if 2 * rest < step then some below
    else if step < 2 * rest then some (below + 1)
    else some (if below % 2 = 0 then below else below + 1)

end Interval

/-- Some exponent of ten at or just above that of the first digit of `value / denominator`. -/
def decimalBound (value denominator : Nat) : Int :=
  ((Nat.toDigits 10 value).length : Int) - (Nat.toDigits 10 denominator).length + 1

/-- Tries grids of step `10^exponent`, coarse to fine. -/
def search (i : Interval) : Nat → Int → Nat × Int
  | 0, exponent => (0, exponent)
  | fuel + 1, exponent =>
    let point := if 0 ≤ exponent then i.onGrid? (Nat.pow 10 exponent.toNat) 1
      else i.onGrid? 1 (Nat.pow 10 (-exponent).toNat)
    match point with
    | some digits => (digits, exponent)
    | none => search i fuel (exponent - 1)

/-- The shortest decimal that reads back as the finite number `x`. -/
def shortest (x : Binary64) : Decimal :=
  if x.significand = 0 then ⟨x.isNegative, 0, 0⟩
  else
    let i := x.interval
    let (digits, exponent) := search i 24 (decimalBound i.value i.denominator)
    Decimal.normalize x.isNegative 20 digits exponent

end Binary64

end GraphQL
