/-!
# `MarkupSyntax.Text.Binary64`: the nearest binary64 number

A decimal number `mantissa * 10 ^ exponent` is rounded to the nearest
number of the IEEE 754 format binary64, a tie to the one with the even
significand. The work is done on natural numbers, so there is no
intermediate rounding.

A positive number is `significand * 2 ^ scale` with a significand below
`2 ^ 53`. The bits of the format are such that counting up through them
visits the numbers in order; so a significand that rounds up to
`2 ^ 53` needs no case of its own, and neither do the numbers near
zero, whose scale is the least there is.
-/

set_option autoImplicit false

namespace MarkupSyntax.Binary64

/-- The bits of infinity. -/
def infinity : Nat := 0x7FF * Nat.pow 2 52

/-- The bits that stand for no number. -/
def notANumber : Nat := infinity + Nat.pow 2 51

/-- The bit of the sign. -/
def signBit : Nat := Nat.pow 2 63

/-- The quotient rounded to the nearest number, a tie to the even
one. -/
def divideToEven (num den : Nat) : Nat :=
  let quotient := num / den
  let twice := 2 * (num % den)
  if den < twice || (twice = den && quotient % 2 = 1) then quotient + 1 else quotient

/-- `num / den / 2 ^ scale` as a fraction. -/
def scaled (num den : Nat) (scale : Int) : Nat × Nat :=
  if 0 ≤ scale then (num, den * Nat.pow 2 scale.toNat)
  else (num * Nat.pow 2 (-scale).toNat, den)

/-- The scale at which the significand of `num / den` has 53 bits, or
the least scale when it has fewer. -/
def scaleOf (num den : Nat) : Int :=
  let guess := max (-1074) ((num.log2 : Int) - den.log2 - 53)
  let (top, bottom) := scaled num den guess
  if Nat.pow 2 53 ≤ top / bottom then guess + 1 else guess

/-- The bits of the number nearest to `num / den`. -/
def ofFraction (num den : Nat) : Nat :=
  let scale := scaleOf num den
  let (top, bottom) := scaled num den scale
  let significand := divideToEven top bottom
  if significand < Nat.pow 2 52 then significand
  else min infinity ((scale + 1075).toNat * Nat.pow 2 52 + (significand - Nat.pow 2 52))

/-- The bits of the number nearest to `mantissa * 10 ^ exponent`. What
is beyond the largest number, or closer to zero than the smallest, is
decided by the count of its digits. -/
def ofDecimal (mantissa : Nat) (exponent : Int) : Nat :=
  let magnitude := (Nat.toDigits 10 mantissa).length + exponent
  if mantissa = 0 || magnitude < -330 then 0
  else if 310 < magnitude then infinity
  else if 0 ≤ exponent then ofFraction (mantissa * Nat.pow 10 exponent.toNat) 1
  else ofFraction mantissa (Nat.pow 10 (-exponent).toNat)

end MarkupSyntax.Binary64
