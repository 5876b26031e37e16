import MarkupSyntax.Text.Number
import MarkupSyntax.Text.Quoted
import MarkupSyntax.Tree.Located
import MarkupSyntax.View.CharacterReference

/-!
# `MarkupSyntax.View.Literal`: the values of literals and of text

A literal node stands for a string, a number, a truth value or null; a
run of text stands for the text with its escapes and character
references decoded.

Literals that come from a source are mostly well formed. A tree built
by hand can hold any token, so reading one can fail.
-/

set_option autoImplicit false

namespace MarkupSyntax

/-- The value of a literal. -/
inductive LiteralValue where
  | text (t : Text)
  | integer (n : Int)
  /-- A number of the format binary64, as its bits. -/
  | real (bits : Nat)
  | boolean (b : Bool)
  | null
deriving DecidableEq, Repr

/-- Why a literal has no value. -/
inductive LiteralFault where
  /-- The node, shown here, holds no token. -/
  | withoutToken (node : Text)
  | notLiteral (kind : SyntaxKind)
  | notAnInteger (base : Nat) (text : Text)
  /-- A number in base ten has more digits than one can have. -/
  | tooManyDigits (count : Nat)
  | notAReal (text : Text)
  /-- An escape names a number above U+10FFFF. -/
  | noSuchCodePoint
  /-- An escape names a number that takes more than 31 bits. -/
  | numberTooLarge
deriving DecidableEq, Repr

namespace LiteralFault

/-- The text of the failure. -/
def message : LiteralFault → Text
  | withoutToken node => Text.ofString "Literal node without a token: " ++ node
  | notLiteral kind => "Not a literal node: " ++ kind.name
  | notAnInteger base text =>
    Text.ofString ("invalid literal for int() with base " ++ toString base ++ ": ") ++
      text.quoted.take 200
  | tooManyDigits count =>
    Text.ofString ("Exceeds the limit (" ++ toString Text.maxDecimalDigits ++
      " digits) for integer string conversion: value has " ++ toString count ++
      " digits; use sys.set_int_max_str_digits() to increase the limit")
  | notAReal text => Text.ofString "could not convert string to float: " ++ text.quoted
  | noSuchCodePoint => "chr() arg not in range(0x110000)"
  | numberTooLarge => "The number of a code point takes more than 31 bits"

end LiteralFault

namespace StringLiteral

/-! ### Strings -/

/-- What the escapes of one character stand for. -/
def escapes : List (Char × Char) :=
  [('n', '\n'), ('r', '\r'), ('t', '\t'), ('0', '\x00'), ('\\', '\\'), ('"', '"'),
   ('\'', '\''), ('\x7b', '\x7b'), ('\x7d', '\x7d')]

/-- The code point that an escape names by its number. -/
def codePoint (n : Nat) : Except LiteralFault CodePoint :=
  match CodePoint.ofNat? n with
  | some c => .ok c
  | none => .error (if n < 0x80000000 then .noSuchCodePoint else .numberTooLarge)

/-- The hexadecimal digits between `u{` and `}` at the front of a
text. -/
def braced? (t : Text) : Option Text :=
  if t.take 2 = Text.ofString "u\x7b" then
    let digits := (t.drop 2).takeWhile (·.isHexDigit)
    if digits.isEmpty || (t.drop (digits.length + 2)).head? ≠ some (CodePoint.ofChar '\x7d') then
      none
    else some digits
  else none

/-- The escape at the front of the text after a backslash: its length
and what it stands for. One that is not known stands for itself. -/
def escape? (t : Text) : Except LiteralFault (Option (Nat × Text)) :=
  match t, braced? t with
  | [], _ => .ok none
  | _, some digits => do
    let c ← codePoint (References.digitsValue 16 digits)
    return some (digits.length + 3, [c])
  | c :: _, none =>
    match escapes.find? fun (name, _) => c = name with
    | some (_, value) => .ok (some (1, [CodePoint.ofChar value]))
    | none => .ok (some (1, ['\\', c]))

/-- The value of the inside of a string; its first `skip` code points
belong to an escape before it. -/
def valueFrom : (skip : Nat) → Text → Except LiteralFault Text
  | _, [] => .ok []
  | skip + 1, _ :: rest => valueFrom skip rest
  | 0, c :: rest =>
    if c = '\\' then do
      match ← escape? rest with
      | none => return [c]
      | some (length, text) => return text ++ (← valueFrom length rest)
    else do return c :: (← valueFrom 0 rest)

/-- The inside of a string token: what stands between its quotes, or
after the first when that is the only one. -/
def inside (t : Text) : Text :=
  if 2 ≤ t.length && t.getLast? = some (CodePoint.ofChar '"') then (t.drop 1).dropLast
  else t.drop 1

/-- The value of a string token, quotes included. -/
def value (t : Text) : Except LiteralFault Text := valueFrom 0 (inside t)

end StringLiteral

namespace Located

/-- The value of a literal node. -/
def literalValue (node : Located) : Except LiteralFault LiteralValue :=
  match node.firstToken? with
  | none => .error (.withoutToken node.display)
  | some token =>
    let text := token.text
    match node.kind with
    | .stringLiteral => return .text (← StringLiteral.value text)
    | .intLiteral =>
      match text.decimalInteger with
      | .ok n => .ok (.integer n)
      | .error .malformed => .error (.notAnInteger 10 text)
      | .error (.tooManyDigits count) => .error (.tooManyDigits count)
    | .hexLiteral =>
      match text.hexadecimalInteger? with
      | some n => .ok (.integer n)
      | none => .error (.notAnInteger 16 text)
    | .realLiteral =>
      match text.realBits? with
      | some bits => .ok (.real bits)
      | none => .error (.notAReal text)
    | .boolLiteral => .ok (.boolean (token.kind = .token .trueKeyword))
    | .nullLiteral => .ok .null
    | kind => .error (.notLiteral kind)

/-! ### Runs of text -/

/-- The text that a token of a run stands for. -/
def decodedText (token : Located) : Text :=
  match token.kind with
  | .token .entity => References.decode token.text
  | .token .escapedLBrace => "\x7b"
  | .token .escapedRBrace => "\x7d"
  | .token .escapedAt => "@"
  | _ => token.text

/-- The white space among pieces of trivia. -/
def whiteSpace (pieces : List (TriviaKind × Text)) : Text :=
  (pieces.filter fun (kind, _) => kind = .whitespace || kind = .newline).flatMap (·.2)

/-- The text of tokens that follow one another in a run, with the white
space between them. `isFirst` says that none comes before. -/
def joinedText (isFirst : Bool) : List Located → Text
  | [] => []
  | token :: rest =>
    (if isFirst then [] else whiteSpace token.leadingTrivia) ++ token.decodedText ++
      (if rest.isEmpty then [] else whiteSpace token.trailingTrivia) ++ joinedText false rest

/-- The text of a run, with escapes and references decoded and comments
left out. A raw run is taken as it stands. -/
def runText (node : Located) : Text :=
  if node.kind = .rawTextRun then node.tokens.flatMap (·.text)
  else joinedText true node.tokens

/-- Why the text of a run cannot be read: the first of its references with
too many digits. A raw run has no references. -/
def runFault? (node : Located) : Option LiteralFault :=
  if node.kind = .rawTextRun then none
  else (node.tokens.filter (·.kind = .token .entity)).findSome? fun token =>
    (References.longNumber? token.text).map LiteralFault.tooManyDigits

/-- Reads the text of a run. This fails where a reference in it has too
many digits. -/
def readRun (node : Located) : Except LiteralFault Text :=
  match node.runFault? with
  | some fault => .error fault
  | none => .ok node.runText

end Located

end MarkupSyntax
