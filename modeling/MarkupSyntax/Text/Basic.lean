/-!
# `MarkupSyntax.Text.Basic`: code points and texts

A source is a sequence of code points. Lone surrogates are code points
like any other: undecodable input bytes are kept as such, and a
literal may name one. So a text is a list of `CodePoint`, not a
`String`, whose characters exclude them.

Offsets into a text are counts of code points. `Text.slice` reads the
code points between two offsets and stops at the end of the text.
-/

set_option autoImplicit false

namespace MarkupSyntax

/-- A Unicode code point, surrogates included. -/
structure CodePoint where
  val : Nat
  val_lt : val < 0x110000
deriving DecidableEq, Repr

namespace CodePoint

/-- Characters are below the bound on code points. -/
theorem toNat_lt (c : Char) : c.toNat < 0x110000 := by
  have h := c.valid
  simp only [UInt32.isValidChar, Nat.isValidChar] at h
  show c.val.toNat < _
  omega

/-- A character as a code point. -/
def ofChar (c : Char) : CodePoint := ⟨c.toNat, toNat_lt c⟩

instance : Coe Char CodePoint := ⟨ofChar⟩

/-- The code point of number `n`, if there is one. -/
def ofNat? (n : Nat) : Option CodePoint :=
  if h : n < 0x110000 then some ⟨n, h⟩ else none

instance : Inhabited CodePoint := ⟨' '⟩

/-- True for the code points `lo..hi`, both ends included. -/
def isBetween (c : CodePoint) (lo hi : Nat) : Bool :=
  lo ≤ c.val && c.val ≤ hi

/-- True below U+0080. -/
def isAscii (c : CodePoint) : Bool := c.val < 0x80

/-- True for the code points U+D800..U+DFFF, which no character has. -/
def isSurrogate (c : CodePoint) : Bool := c.isBetween 0xD800 0xDFFF

/-- The value of an ASCII hexadecimal digit. -/
def hexValue? (c : CodePoint) : Option Nat :=
  if c.isBetween 0x30 0x39 then some (c.val - 0x30)
  else if c.isBetween 0x41 0x46 then some (c.val - 0x41 + 10)
  else if c.isBetween 0x61 0x66 then some (c.val - 0x61 + 10)
  else none

/-- True for `0-9`, `a-f` and `A-F`. -/
def isHexDigit (c : CodePoint) : Bool := c.hexValue?.isSome

/-- True for `0-9`. -/
def isAsciiDigit (c : CodePoint) : Bool := c.isBetween 0x30 0x39

/-- True for `a-z` and `A-Z`. -/
def isAsciiLetter (c : CodePoint) : Bool :=
  c.isBetween 0x41 0x5A || c.isBetween 0x61 0x7A

end CodePoint

/-- A sequence of code points. -/
abbrev Text := List CodePoint

namespace Text

/-- The code points of a string. -/
def ofString (s : String) : Text := s.toList.map CodePoint.ofChar

instance : Coe String Text := ⟨ofString⟩

/-- The code points from offset `start` up to offset `stop`. -/
def slice (t : Text) (start stop : Nat) : Text := (t.drop start).take (stop - start)

/-- The offset of the first occurrence of `pattern`. -/
def find? (pattern : Text) : Text → Option Nat
  | [] => if pattern.isEmpty then some 0 else none
  | c :: rest =>
    if pattern.isPrefixOf (c :: rest) then some 0
    else (find? pattern rest).map (· + 1)

/-- The characters of a text that holds no lone surrogate; a lone
surrogate has no character and is left out. -/
def toString (t : Text) : String :=
  String.ofList (t.filterMap fun c =>
    if c.isSurrogate then none else some (Char.ofNat c.val))

end Text

end MarkupSyntax
