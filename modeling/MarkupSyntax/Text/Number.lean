import MarkupSyntax.Text.Binary64
import MarkupSyntax.Text.Blank
import MarkupSyntax.Text.Digits

/-!
# `MarkupSyntax.Text.Number`: reading numbers

The digits of a number may be decimal digits of any script. Blanks may
stand around a number and single underscores between its digits.
-/

set_option autoImplicit false

namespace MarkupSyntax.Text

/-- True for a blank around a number; the information separators are
none. -/
def isNumberBlank (c : CodePoint) : Bool := c.isBlank && !c.isBetween 0x1C 0x1F

/-- The text without blanks at its two ends. -/
def trimNumber (t : Text) : Text :=
  ((t.dropWhile isNumberBlank).reverse.dropWhile isNumberBlank).reverse

/-- The rest after a sign, and whether that is a minus. -/
def splitSign (t : Text) : Bool × Text :=
  match t with
  | [] => (false, [])
  | c :: rest =>
    if c = '-' then (true, rest) else if c = '+' then (false, rest) else (false, c :: rest)

/-- The values of one or more digits, single underscores between
them. -/
def digitValues? (value? : CodePoint → Option Nat) : Text → Option (List Nat)
  | [] => none
  | [c] => (value? c).map fun v => [v]
  | c :: d :: rest => do
    let v ← value? c
    if d = '_' then return v :: (← digitValues? value? rest)
    else return v :: (← digitValues? value? (d :: rest))

/-- The number that digits write in a base. -/
def valueOfDigits (base : Nat) (digits : List Nat) : Nat :=
  digits.foldl (fun n digit => n * base + digit) 0

/-- The most digits that a number in base ten can be read with, leading
zeros included. There is no such limit in base sixteen. -/
def maxDecimalDigits : Nat := 4300

/-- Why a text is no integer in base ten. -/
inductive IntegerFault where
  | malformed
  /-- The number has so many digits, more than `maxDecimalDigits`. -/
  | tooManyDigits (count : Nat)
deriving DecidableEq, Repr

/-- An integer in base ten. The digits at the front are counted before
anything behind them is looked at, so where there are too many of them
that is what is wrong, even if the text goes on with something else. -/
def decimalInteger (t : Text) : Except IntegerFault Int :=
  let (isNegative, body) := splitSign (trimNumber t)
  let digits := body.takeWhile fun c : CodePoint => c.decimalValue?.isSome || c = '_'
  match digitValues? CodePoint.decimalValue? digits with
  | none => .error .malformed
  | some values =>
    if maxDecimalDigits < values.length then .error (.tooManyDigits values.length)
    else if digits.length < body.length then .error .malformed
    else
      let n := valueOfDigits 10 values
      .ok (if isNegative then -n else n)

/-- The value of a digit in base sixteen. -/
def hexadecimalValue? (c : CodePoint) : Option Nat := c.decimalValue?.or c.hexValue?

/-- The digits after a zero and an `x`, which may be missing. The zero
may be one of any script, and an underscore may follow the `x`. -/
def dropHexMark (t : Text) : Text :=
  match t with
  | zero :: mark :: digits =>
    if zero.decimalValue? = some 0 && (mark = 'x' || mark = 'X') then
      if digits.head? = some (CodePoint.ofChar '_') then digits.drop 1 else digits
    else t
  | _ => t

/-- An integer in base sixteen, `0x` in front of it or not. -/
def hexadecimalInteger? (t : Text) : Option Int := do
  let (isNegative, digits) := splitSign (trimNumber t)
  let values ← digitValues? hexadecimalValue? (dropHexMark digits)
  let n := valueOfDigits 16 values
  return if isNegative then -n else n

/-! ### Real numbers -/

/-- The text without its underscores, which stand between decimal
digits only. `afterDigit` says whether a digit stands in front. -/
def dropUnderscores? (afterDigit : Bool) : Text → Option Text
  | [] => some []
  | c :: rest =>
    if c = '_' then
      if afterDigit && (rest.head?.bind CodePoint.decimalValue?).isSome then
        dropUnderscores? false rest
      else none
    else (dropUnderscores? c.decimalValue?.isSome rest).map (c :: ·)

/-- The values of the decimal digits at the front, and the rest. -/
def spanDigits (t : Text) : List Nat × Text :=
  ((t.takeWhile fun c => c.decimalValue?.isSome).filterMap CodePoint.decimalValue?,
   t.dropWhile fun c => c.decimalValue?.isSome)

/-- The exponent that is all of a text; none written is zero. -/
def exponent? (t : Text) : Option Int :=
  match t with
  | [] => some 0
  | e :: rest =>
    if e = 'e' || e = 'E' then
      let (isNegative, digits) := splitSign rest
      match spanDigits digits with
      | (d :: ds, []) =>
        let n := valueOfDigits 10 (d :: ds)
        some (if isNegative then -n else n)
      | _ => none
    else none

/-- The bits of a number without sign: digits with a point among or
around them, and an exponent. -/
def unsignedReal? (t : Text) : Option Nat := do
  let (whole, rest) := spanDigits t
  let (fraction, rest) :=
    if rest.head? = some (CodePoint.ofChar '.') then spanDigits (rest.drop 1) else ([], rest)
  if whole.isEmpty && fraction.isEmpty then none
  else
    let exponent ← exponent? rest
    return Binary64.ofDecimal (valueOfDigits 10 (whole ++ fraction)) (exponent - fraction.length)

/-- An ASCII letter in lower case. -/
def lowerLetter (c : CodePoint) : CodePoint :=
  if c.isBetween 0x41 0x5A then (CodePoint.ofNat? (c.val + 0x20)).getD c else c

/-- The bits of the binary64 number nearest to a real number. -/
def realBits? (t : Text) : Option Nat := do
  let (isNegative, body) := splitSign (← dropUnderscores? false (trimNumber t))
  let word := body.map lowerLetter
  let bits ←
    if word = Text.ofString "inf" || word = Text.ofString "infinity" then
      some Binary64.infinity
    else if word = Text.ofString "nan" then some Binary64.notANumber
    else unsignedReal? body
  return if isNegative then Binary64.signBit + bits else bits

end MarkupSyntax.Text
