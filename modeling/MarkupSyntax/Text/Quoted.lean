import MarkupSyntax.Text.Printable

/-!
# `MarkupSyntax.Text.Quoted`: texts in quotes

Messages and listings show a text between quotes with everything that
is not printable escaped, so that one line of output always shows one
text and shows it in full.
-/

set_option autoImplicit false

namespace MarkupSyntax.Text

/-- The lower-case hexadecimal digit of value `n < 16`. -/
def hexDigit (n : Nat) : CodePoint :=
  if n < 10 then Char.ofNat (0x30 + n) else Char.ofNat (0x61 + (n - 10))

/-- The last `width` hexadecimal digits of `n`. -/
def hexDigits : (width : Nat) → (n : Nat) → Text
  | 0, _ => []
  | width + 1, n => hexDigits width (n / 16) ++ [hexDigit (n % 16)]

/-- The quote to write around `t`: single, unless `t` has a single
quote and no double quote. -/
def quoteFor (t : Text) : CodePoint :=
  if t.contains (CodePoint.ofChar '\'') && !t.contains (CodePoint.ofChar '"') then '"' else '\''

/-- A code point between quotes `quote`: a backslash and the quote are
escaped by a backslash, line ends and tabs by their letters, and what
is not printable by the shortest of the three hexadecimal forms. -/
def escapeQuoted (quote c : CodePoint) : Text :=
  if c = quote || c = '\\' then ['\\', c]
  else if c = '\n' then ['\\', 'n']
  else if c = '\r' then ['\\', 'r']
  else if c = '\t' then ['\\', 't']
  else if c.isPrintable then [c]
  else if c.val ≤ 0xFF then '\\' :: 'x' :: hexDigits 2 c.val
  else if c.val ≤ 0xFFFF then '\\' :: 'u' :: hexDigits 4 c.val
  else '\\' :: 'U' :: hexDigits 8 c.val

/-- The text between quotes, with escapes. -/
def quoted (t : Text) : Text :=
  let quote := quoteFor t
  quote :: t.flatMap (escapeQuoted quote) ++ [quote]

end MarkupSyntax.Text
