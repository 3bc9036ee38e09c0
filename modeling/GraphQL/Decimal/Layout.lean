import GraphQL.Decimal.Shortest

/-!
How a decimal number is written: in positional notation inside a window of exponents, in
scientific notation outside it.
-/

set_option autoImplicit false

namespace GraphQL

/-- The choices of a notation for decimal numbers. -/
structure Layout where
  /-- Least exponent of the first digit that is written positionally. -/
  least : Int
  /-- Greatest exponent of the first digit that is written positionally. -/
  greatest : Int
  /-- What stands between the digits and a positive exponent. -/
  positiveMark : String
  /-- What stands between the digits and a negative exponent. -/
  negativeMark : String

/-- Numbers of JSON text: a positional number always has a fraction, and a scientific one has a
signed exponent and a fraction only if it has several digits. -/
def Layout.json : Layout := ⟨-5, 15, "e+", "e-"⟩

namespace Decimal

def positional (digits : List Char) (leading : Int) : List Char :=
  if leading < 0 then
    '0' :: '.' :: (List.replicate (-leading - 1).toNat '0' ++ digits)
  else
    let whole := leading.toNat + 1
    let fraction := digits.drop whole
    digits.take whole ++ List.replicate (whole - digits.length) '0' ++
      '.' :: (if fraction.isEmpty then ['0'] else fraction)

def scientific (layout : Layout) (digits : List Char) (leading : Int) : List Char :=
  let mark := if leading < 0 then layout.negativeMark else layout.positiveMark
  let fraction := digits.drop 1
  digits.take 1 ++ (if fraction.isEmpty then [] else '.' :: fraction) ++
    mark.toList ++ Nat.toDigits 10 leading.natAbs

def render (layout : Layout) (d : Decimal) : String :=
  let body :=
    if layout.least ≤ d.leading ∧ d.leading ≤ layout.greatest then positional d.text d.leading
    else scientific layout d.text d.leading
  String.ofList (if d.negative then '-' :: body else body)

end Decimal

namespace Binary64

/-- The text of a finite number in JSON. -/
def render (x : Binary64) : String := x.shortest.render .json

end Binary64

end GraphQL
