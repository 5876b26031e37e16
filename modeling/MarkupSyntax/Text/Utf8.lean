import MarkupSyntax.Text.Basic

/-!
# `MarkupSyntax.Text.Utf8`: bytes and code points

Decoding never fails: it reads a sequence of *units*, each a code point
or a byte that starts no code point. Such a byte is kept as the lone
surrogate U+DC00 plus the byte, so each unit still stands for the bytes
it came from, and `encode` writes those bytes back.

A sequence of two to four bytes is a code point when its value needs
that many bytes, is below U+110000 and is no surrogate.
-/

set_option autoImplicit false

namespace MarkupSyntax.Utf8

/-- One unit of a byte sequence. -/
inductive Piece where
  /-- A well-formed sequence. -/
  | codePoint (c : CodePoint)
  /-- A byte that is part of none. -/
  | stray (byte : UInt8)
deriving DecidableEq, Repr

/-- The value collected from `count` continuation bytes after the bits
`high` of the first byte. -/
def continued : (count : Nat) → (high : Nat) → List UInt8 → Option Nat
  | 0, high, _ => some high
  | _ + 1, _, [] => none
  | count + 1, high, byte :: rest =>
    if 0x80 ≤ byte.toNat && byte.toNat < 0xC0 then
      continued count (high * 64 + (byte.toNat - 0x80)) rest
    else none

/-- The code point written by `extra` continuation bytes, which must
need them all: `least` is the first value that does. -/
def extended (extra high least : Nat) (rest : List UInt8) : Option (CodePoint × Nat) := do
  let value ← continued extra high rest
  let c ← CodePoint.ofNat? value
  if least ≤ value && !c.isSurrogate then some (c, extra) else none

/-- The code point at the front of `first :: rest` and the number of
bytes of `rest` that belong to it. -/
def decodeFirst (first : UInt8) (rest : List UInt8) : Option (CodePoint × Nat) :=
  let n := first.toNat
  if n < 0x80 then (CodePoint.ofNat? n).map (·, 0)
  else if n < 0xC0 then none
  else if n < 0xE0 then extended 1 (n - 0xC0) 0x80 rest
  else if n < 0xF0 then extended 2 (n - 0xE0) 0x800 rest
  else if n < 0xF8 then extended 3 (n - 0xF0) 0x10000 rest
  else none

/-- The units of the bytes after the first `skip`, which belong to the
unit before. -/
def piecesAfter : (skip : Nat) → List UInt8 → List Piece
  | _, [] => []
  | skip + 1, _ :: rest => piecesAfter skip rest
  | 0, byte :: rest =>
    match decodeFirst byte rest with
    | some (c, extra) => .codePoint c :: piecesAfter extra rest
    | none => .stray byte :: piecesAfter 0 rest

/-- The units of a byte sequence. -/
def pieces (bytes : List UInt8) : List Piece := piecesAfter 0 bytes

namespace Piece

/-- The surrogate of a byte is a code point. -/
theorem stray_lt (byte : UInt8) : 0xDC00 + byte.toNat < 0x110000 := by
  have := byte.toNat_lt
  omega

/-- The code point that stands for the unit. -/
def toCodePoint : Piece → CodePoint
  | codePoint c => c
  | stray byte => ⟨0xDC00 + byte.toNat, stray_lt byte⟩

/-- True for a byte outside every well-formed sequence. -/
def isStray : Piece → Bool
  | codePoint _ => false
  | stray _ => true

end Piece

/-- The text of a byte sequence. -/
def decode (bytes : List UInt8) : Text := (pieces bytes).map Piece.toCodePoint

/-- The offset in the text of the first byte that is part of no
well-formed sequence. -/
def firstStray? (bytes : List UInt8) : Option Nat := (pieces bytes).findIdx? Piece.isStray

/-- True for the surrogates that stand for a byte from 0x80 up. -/
def isEscapedByte (c : CodePoint) : Bool := c.isBetween 0xDC80 0xDCFF

/-- The bytes of a code point; a surrogate that stands for a byte is
written as that byte. -/
def encodeOne (c : CodePoint) : List UInt8 :=
  let n := c.val
  let continuation (k : Nat) : UInt8 := UInt8.ofNat (0x80 + n / Nat.pow 64 k % 64)
  if n < 0x80 then [UInt8.ofNat n]
  else if n < 0x800 then [UInt8.ofNat (0xC0 + n / 64), continuation 0]
  else if isEscapedByte c then [UInt8.ofNat (n - 0xDC00)]
  else if n < 0x10000 then [UInt8.ofNat (0xE0 + n / 4096), continuation 1, continuation 0]
  else [UInt8.ofNat (0xF0 + n / 262144), continuation 2, continuation 1, continuation 0]

/-- The bytes of a text. -/
def encode (t : Text) : List UInt8 := t.flatMap encodeOne

/-- The number of bytes of a code point when a surrogate takes
`surrogate` bytes. -/
def lengthOne (surrogate : CodePoint → Nat) (c : CodePoint) : Nat :=
  if c.val < 0x80 then 1
  else if c.val < 0x800 then 2
  else if c.isSurrogate then surrogate c
  else if c.val < 0x10000 then 3
  else 4

/-- The number of bytes of a text. A surrogate that stands for a byte
counts as one byte; but a text with any other surrogate was not decoded
from bytes, and then each surrogate counts as three. -/
def length (t : Text) : Nat :=
  let foreign := t.any fun c => c.isSurrogate && !isEscapedByte c
  t.foldr (fun c length => lengthOne (fun _ => if foreign then 3 else 1) c + length) 0

end MarkupSyntax.Utf8
