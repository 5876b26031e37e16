import MarkupSyntax.Text.Number
import MarkupSyntax.View.ReferenceNames

/-!
# `MarkupSyntax.View.CharacterReference`: decoding character references

A reference is `&`, a number or a name, and a semicolon, which a number
and some old names can do without. A number that is no character is
replaced or left out by the rules of HTML. Of a name that is not known
the longest known beginning counts, and the rest stays.

A number in base ten is read as an integer is, so it cannot have more
digits than one (`longNumber?`).
-/

set_option autoImplicit false

namespace MarkupSyntax.References

/-! ### Numbers -/

/-- The characters that the numbers 0x80 to 0x9F stand for: those of
the Windows code page 1252, as far as it has any. -/
def windowsCharacters : List Nat :=
  [0x20AC, 0x81, 0x201A, 0x192, 0x201E, 0x2026, 0x2020, 0x2021, 0x2C6, 0x2030, 0x160,
   0x2039, 0x152, 0x8D, 0x17D, 0x8F, 0x90, 0x2018, 0x2019, 0x201C, 0x201D, 0x2022,
   0x2013, 0x2014, 0x2DC, 0x2122, 0x161, 0x203A, 0x153, 0x9D, 0x17E, 0x178]

/-- True for the numbers of control characters and of code points that
are no characters. -/
def isLeftOut (n : Nat) : Bool :=
  (0x1 ≤ n && n ≤ 0x8) || n = 0xB || (0xE ≤ n && n ≤ 0x1F) || (0x7F ≤ n && n ≤ 0x9F) ||
    (0xFDD0 ≤ n && n ≤ 0xFDEF) || 0xFFFE ≤ n % 0x10000

/-- The code point that stands for a number that has no character. -/
def replacement : CodePoint := ⟨0xFFFD, by decide⟩

/-- The text that a number stands for. -/
def ofNumber (n : Nat) : Text :=
  if n = 0 then [replacement]
  else if 0x80 ≤ n && n ≤ 0x9F then
    ((windowsCharacters[n - 0x80]?).bind CodePoint.ofNat?).toList
  else match CodePoint.ofNat? n with
    | none => [replacement]
    | some c =>
      if c.isSurrogate then [replacement]
      else if isLeftOut n then []
      else [c]

/-- The number that digits of a base write. -/
def digitsValue (base : Nat) (digits : Text) : Nat :=
  digits.foldl (fun n c => n * base + c.hexValue?.getD 0) 0

/-! ### Names -/

/-- The text that a name with a semicolon stands for. -/
def ofFullName? (name : Text) : Option Text := do
  let initial ← name.head?
  let table := (singles.find? fun (c, _) => initial = c).map fun (_, table) => table
  match (table.getD []).find? fun (known, _) => Text.ofString known = name with
  | some (_, n) => return (CodePoint.ofNat? n).toList
  | none =>
    let (_, first, second) ← doubles.find? fun (known, _) => Text.ofString known = name
    return (CodePoint.ofNat? first).toList ++ (CodePoint.ofNat? second).toList

/-- The text that a name stands for, its semicolon included. -/
def ofName? (name : Text) : Option Text :=
  if name.getLast? = some (CodePoint.ofChar ';') then ofFullName? name.dropLast
  else if withoutSemicolon.any fun known => Text.ofString known = name then ofFullName? name
  else none

/-- The longest known beginning of a name, of `length` characters or
fewer but at least two, replaced by its text. -/
def ofBeginning? (name : Text) : (length : Nat) → Option Text
  | 0 | 1 => none
  | length + 2 =>
    match ofName? (name.take (length + 2)) with
    | some text => some (text ++ name.drop (length + 2))
    | none => ofBeginning? name (length + 1)

/-- The text of a reference by name. -/
def ofNamed (name : Text) : Text :=
  match ofName? name with
  | some text => text
  | none => (ofBeginning? name (name.length - 1)).getD ('&' :: name)

/-! ### Texts -/

/-- True for the characters that a name can hold. -/
def isNameCharacter (c : CodePoint) : Bool :=
  !([(0x9 : Nat), 0xA, 0xC, 0x20, 0x3C, 0x26, 0x23, 0x3B].contains c.val)

/-- One more when a semicolon follows. -/
def withSemicolon (length : Nat) (t : Text) : Nat :=
  if t[length]? = some (CodePoint.ofChar ';') then length + 1 else length

/-- The reference at the front of the text after an `&`: its length and
the text that it stands for. -/
def next? (t : Text) : Option (Nat × Text) :=
  match t with
  | [] => none
  | c :: rest =>
    if c = '#' then
      let decimal := rest.takeWhile (·.isAsciiDigit)
      let isHex := rest.head? = some (CodePoint.ofChar 'x') || rest.head? = some (CodePoint.ofChar 'X')
      let hex := (rest.drop 1).takeWhile (·.isHexDigit)
      if !decimal.isEmpty then
        some (withSemicolon (decimal.length + 1) t, ofNumber (digitsValue 10 decimal))
      else if isHex && !hex.isEmpty then
        some (withSemicolon (hex.length + 2) t, ofNumber (digitsValue 16 hex))
      else none
    else
      let name := (t.takeWhile isNameCharacter).take 32
      if name.isEmpty then none
      else
        let length := withSemicolon name.length t
        some (length, ofNamed (t.take length))

/-- A text with its references decoded; the first `skip` code points
belong to a reference before it. -/
def decodeFrom : (skip : Nat) → Text → Text
  | _, [] => []
  | skip + 1, _ :: rest => decodeFrom skip rest
  | 0, c :: rest =>
    if c = '&' then
      match next? rest with
      | some (length, text) => text ++ decodeFrom length rest
      | none => c :: decodeFrom 0 rest
    else c :: decodeFrom 0 rest

/-- A text with its character references decoded. -/
def decode (t : Text) : Text := decodeFrom 0 t

/-! ### Numbers that are too long -/

/-- How many digits the reference by a number in base ten has at the front
of the text after an `&`; none where there is no such reference. -/
def decimalLength (t : Text) : Nat :=
  if t.head? = some (CodePoint.ofChar '#') then
    ((t.drop 1).takeWhile (·.isAsciiDigit)).length
  else 0

/-- The length of the first number in base ten with too many digits; the
first `skip` code points belong to a reference before it. -/
def longNumberFrom? : (skip : Nat) → Text → Option Nat
  | _, [] => none
  | skip + 1, _ :: rest => longNumberFrom? skip rest
  | 0, c :: rest =>
    if c = '&' then
      if Text.maxDecimalDigits < decimalLength rest then some (decimalLength rest)
      else match next? rest with
        | some (length, _) => longNumberFrom? length rest
        | none => longNumberFrom? 0 rest
    else longNumberFrom? 0 rest

/-- The length of the first number in base ten with too many digits among
the references of a text. Where there is one, the text cannot be
decoded. -/
def longNumber? (t : Text) : Option Nat := longNumberFrom? 0 t

end MarkupSyntax.References
