import MarkupSyntax.Diagnostic.Code
import MarkupSyntax.Text.Blank
import MarkupSyntax.Text.Digits
import MarkupSyntax.Text.Utf8
import MarkupSyntax.Token.Basic

/-!
# `MarkupSyntax.Token.Lexeme`: the token at the front of a text

`Lexeme.next` cuts one token off a non-empty text. It looks at nothing
but the text from there on and the context, and it always takes at
least one code point: the type holds the proof.

Each rule below is a length: how many code points of the text belong to
a comment, a string, the digits of a number. A length of zero says that
the rule does not apply.
-/

set_option autoImplicit false

namespace MarkupSyntax

/-- A token cut off the front of a text. -/
structure Lexeme where
  kind : TokenKind
  length : Nat
  hasEscape : Bool := false
  /-- What is wrong with the token. -/
  problem : Option Code := none
  length_pos : 0 < length := by omega

namespace Lexeme

/-- True when the text starts with these characters. -/
def startsWith (pattern : String) (t : Text) : Bool := (Text.ofString pattern).isPrefixOf t

/-! ### White space and comments -/

/-- The number of code points after the first one in the line break
that `c` starts: a carriage return takes a line feed with it. -/
def lineBreakTail (c : CodePoint) (rest : Text) : Nat :=
  if c = '\r' && rest.head? = some (CodePoint.ofChar '\n') then 1 else 0

/-- One line break, or all the spaces and tabs that follow one
another. -/
def separator (c : CodePoint) (rest : Text) : Lexeme :=
  if c.isLineEnd then { kind := .newline, length := lineBreakTail c rest + 1 }
  else { kind := .whitespace, length := (rest.takeWhile (·.isSpaceOrTab)).length + 1 }

/-- A comment up to the end of the line, which stays outside. `rest` is
the text after the comment's first character. -/
def lineComment (rest : Text) : Lexeme where
  kind := .comment
  length := (rest.takeWhile fun c => !c.isLineEnd).length + 1

/-- A comment whose opener has `opener + 1` characters; `body` is the
text after it. The first terminator ends it. -/
def blockComment (opener : Nat) (terminator : String) (body : Text) : Lexeme :=
  match Text.find? terminator body with
  | some offset => { kind := .comment, length := opener + 1 + offset + terminator.length }
  | none =>
    { kind := .comment, length := opener + 1 + body.length
      problem := some .unterminatedComment }

/-! ### Strings -/

/-- What is left of a string after its opening quote. -/
structure StringBody where
  length : Nat
  isClosed : Bool
  hasEscape : Bool
deriving DecidableEq, Repr

/-- Reads a string up to the first quote that no backslash escapes. A
backslash takes the character after it along, whatever it is. -/
def stringBody : Text → StringBody
  | [] => ⟨0, false, false⟩
  | c :: rest =>
    if c = '"' then ⟨1, true, false⟩
    else if c = '\\' then
      match rest with
      | [] => ⟨1, false, true⟩
      | _ :: rest =>
        let body := stringBody rest
        ⟨body.length + 2, body.isClosed, true⟩
    else
      let body := stringBody rest
      ⟨body.length + 1, body.isClosed, body.hasEscape⟩

/-- A string; `rest` is the text after its opening quote. -/
def string (rest : Text) : Lexeme :=
  let body := stringBody rest
  { kind := .string, length := body.length + 1, hasEscape := body.hasEscape
    problem := if body.isClosed then none else some .unterminatedString }

/-! ### Numbers and names -/

/-- The number of digits at the front. -/
def digitCount (t : Text) : Nat := (t.takeWhile (·.isDigit)).length

/-- The length of `x` and hexadecimal digits. -/
def hexTailLength : Text → Nat
  | x :: digits =>
    let count := (digits.takeWhile (·.isHexDigit)).length
    if (x = 'x' || x = 'X') && 0 < count then count + 1 else 0
  | [] => 0

/-- The length of a point and digits. -/
def fractionLength : Text → Nat
  | point :: digits =>
    if point = '.' && 0 < digitCount digits then digitCount digits + 1 else 0
  | [] => 0

/-- The length of `e`, an optional sign and digits. -/
def exponentLength : Text → Nat
  | e :: rest =>
    let digits := if startsWith "+" rest || startsWith "-" rest then rest.drop 1 else rest
    if (e = 'e' || e = 'E') && 0 < digitCount digits then
      1 + (rest.length - digits.length) + digitCount digits
    else 0
  | [] => 0

/-- A number whose first digit is `c`. Only a number with a fraction
has an exponent. -/
def number (c : CodePoint) (rest : Text) : Lexeme :=
  let hex := hexTailLength rest
  if c = '0' && 0 < hex then { kind := .hex, length := hex + 1 }
  else
    let whole := digitCount rest
    let fraction := fractionLength (rest.drop whole)
    if fraction = 0 then { kind := .int, length := whole + 1 }
    else
      let exponent := exponentLength (rest.drop (whole + fraction))
      { kind := .real, length := whole + fraction + exponent + 1 }

/-- True for a character that can start a name. -/
def startsName (c : CodePoint) : Bool := c.isLetter || c = '_'

/-- True for a character inside a name; a hyphen only in a tag. -/
def continuesName (inTag : Bool) (c : CodePoint) : Bool :=
  c.isAlphanumeric || c = '_' || (inTag && c = '-')

/-- A name or keyword whose first character is `c`. A name with a
hyphen is no keyword. -/
def name (inTag : Bool) (c : CodePoint) (rest : Text) : Lexeme :=
  let tail := rest.takeWhile (continuesName inTag)
  let kind :=
    if tail.contains (CodePoint.ofChar '-') then .markupIdentifier
    else (TokenKind.ofKeyword? (c :: tail)).getD .identifier
  { kind, length := tail.length + 1 }

/-! ### Operators and punctuation -/

/-- The tokens of two characters. -/
def pairs : List (Char × Char × TokenKind) :=
  [('=', '=', .equalEqual), ('!', '=', .notEqual), ('<', '=', .lessThanOrEqual),
   ('>', '=', .greaterThanOrEqual), ('&', '&', .ampAmp), ('|', '|', .pipePipe),
   ('=', '>', .fatArrow), ('@', '\x7b', .atLBrace)]

/-- The tokens of one character. -/
def singles : List (Char × TokenKind) :=
  [('=', .equal), ('<', .lessThan), ('>', .greaterThan), ('+', .plus), ('-', .minus),
   ('*', .star), ('/', .slash), ('|', .pipe), ('?', .question), (':', .colon),
   (',', .comma), ('.', .dot), ('\x7b', .lBrace), ('\x7d', .rBrace), ('(', .lParen),
   (')', .rParen), ('[', .lBracket), (']', .rBracket)]

/-- The token that `c` and the character after it make together. -/
def pair? (c : CodePoint) (rest : Text) : Option TokenKind :=
  (pairs.find? fun (first, second, _) =>
    c = first && rest.head? = some (CodePoint.ofChar second)).map fun (_, _, kind) => kind

/-- The token that `c` makes alone. -/
def single? (c : CodePoint) : Option TokenKind :=
  (singles.find? fun (char, _) => c = char).map fun (_, kind) => kind

/-- True for the characters that never join with the next one in a tag,
so that `<p>=</p>` and `<a b=>` split at the angle brackets. -/
def standsAlone (c : CodePoint) : Bool := c = '<' || c = '>' || c = '='

/-- An operator, a punctuation mark, or a character that starts no
token. A character that stands for an undecodable byte was reported
when the source was decoded. -/
def mark (inTag : Bool) (c : CodePoint) (rest : Text) : Lexeme :=
  match if inTag && standsAlone c then none else pair? c rest with
  | some kind => { kind, length := 2 }
  | none =>
    match single? c with
    | some kind => { kind, length := 1 }
    | none =>
      { kind := .skipped, length := 1
        problem := if Utf8.isEscapedByte c then none else some .invalidCharacter }

/-- The token of a definition, an expression or a tag. -/
def code (inTag : Bool) (c : CodePoint) (rest : Text) : Lexeme :=
  if c.isWhitespace then separator c rest
  else if c = '/' && startsWith "/" rest then lineComment rest
  else if c = '/' && startsWith "*" rest then blockComment 1 "*/" (rest.drop 1)
  else if c = '<' && startsWith "!--" rest then blockComment 3 "-->" (rest.drop 3)
  else if c = '"' then string rest
  else if c.isDigit then number c rest
  else if startsName c then name inTag c rest
  else mark inTag c rest

/-! ### Text -/

/-- The length of what stands between `&` and `;` in a character
reference: letters and digits after a letter, or a number. -/
def referenceLength : Text → Nat
  | c :: rest =>
    if c = '#' then
      if startsWith "x" rest || startsWith "X" rest then
        let count := ((rest.drop 1).takeWhile (·.isHexDigit)).length
        if 0 < count then count + 2 else 0
      else if 0 < digitCount rest then digitCount rest + 1 else 0
    else if c.isAsciiLetter then
      (rest.takeWhile fun d => d.isAsciiLetter || d.isAsciiDigit).length + 1
    else 0
  | [] => 0

/-- The length of a character reference at the front of a text, `&` and
`;` included. -/
def entityLength : Text → Nat
  | c :: rest =>
    if c = '&' then
      let length := referenceLength rest
      if 0 < length && startsWith ";" (rest.drop length) then length + 2 else 0
    else 0
  | [] => 0

/-- The escape at the front of `c :: rest`, if there is one. -/
def textEscape? (typed : Bool) (c : CodePoint) (rest : Text) : Option TokenKind :=
  if c ≠ '\\' then none
  else if startsWith "\x7b" rest then some .escapedLBrace
  else if startsWith "\x7d" rest then some .escapedRBrace
  else if typed && startsWith "@" rest then some .escapedAt
  else none

/-- True where a run of text stops: at markup, an interpolation, an
escape or a character reference. -/
def endsText (typed : Bool) (c : CodePoint) (rest : Text) : Bool :=
  (textEscape? typed c rest).isSome || 0 < entityLength (c :: rest) ||
    (if typed then (c = '<' && startsWith "/" rest) || (c = '@' && startsWith "\x7b" rest)
     else c = '<' || c = '\x7b' || c = '\x7d')

/-- The number of characters before the next place where a run of text
stops. -/
def textLength (typed : Bool) : Text → Nat
  | [] => 0
  | c :: rest => if endsText typed c rest then 0 else textLength typed rest + 1

/-- A run of text, which holds its first character whatever that is.
White space alone is no text: it separates the items around it. -/
def textRun (typed : Bool) (c : CodePoint) (rest : Text) : Lexeme :=
  let tail := textLength typed rest
  if (c :: rest.take tail).all (·.isWhitespace) then separator c rest
  else { kind := .textChunk, length := tail + 1 }

/-- The markup at the front of `c :: rest`, if text stops there for
some. -/
def textMarkup? (typed : Bool) (c : CodePoint) (rest : Text) : Option Lexeme :=
  if typed then
    if c = '@' && startsWith "\x7b" rest then some { kind := .atLBrace, length := 2 }
    else if c = '<' && startsWith "/" rest then some { kind := .lessThan, length := 1 }
    else none
  else if c = '<' && startsWith "!--" rest then some (blockComment 3 "-->" (rest.drop 3))
  else if c = '<' then some { kind := .lessThan, length := 1 }
  else if c = '\x7b' then some { kind := .lBrace, length := 1 }
  else if c = '\x7d' then some { kind := .rBrace, length := 1 }
  else none

/-- The token of a body of text. -/
def text (typed : Bool) (c : CodePoint) (rest : Text) : Lexeme :=
  match textEscape? typed c rest with
  | some kind => { kind, length := 2 }
  | none =>
    if h : 0 < entityLength (c :: rest) then
      { kind := .entity, length := entityLength (c :: rest) }
    else (textMarkup? typed c rest).getD (textRun typed c rest)

/-! ### Raw bodies -/

/-- True when `continues` holds after some of the blanks at the front
of a text, or after none. -/
def afterBlanks (continues : Text → Bool) : Text → Bool
  | [] => continues []
  | c :: rest => continues (c :: rest) || (c.isBlank && afterBlanks continues rest)

/-- True where the closing tag of a raw body stands. Blanks may stand
between its parts. -/
def endsRaw (tag : Option Text) (t : Text) : Bool :=
  match tag with
  | none => startsWith "</" t
  | some name =>
    startsWith "<" t && afterBlanks (fun t =>
      startsWith "/" t && afterBlanks (fun t =>
        name.isPrefixOf t && afterBlanks (startsWith ">") (t.drop name.length))
        (t.drop 1)) (t.drop 1)

/-- The number of characters before the closing tag of a raw body, if
there is one. -/
def rawLength? (tag : Option Text) : Text → Option Nat
  | [] => none
  | c :: rest => if endsRaw tag (c :: rest) then some 0 else (rawLength? tag rest).map (· + 1)

/-- The token of a raw body: all of it, or the `<` of its closing tag. -/
def raw (tag : Option Text) (c : CodePoint) (rest : Text) : Lexeme :=
  if endsRaw tag (c :: rest) then { kind := .lessThan, length := 1 }
  else match rawLength? tag rest with
    | some length => { kind := .rawTextChunk, length := length + 1 }
    | none =>
      { kind := .rawTextChunk, length := rest.length + 1
        problem := some .unterminatedRawText }

/-! ### All contexts -/

/-- The token at the front of `c :: rest`. -/
def next (context : LexContext) (c : CodePoint) (rest : Text) : Lexeme :=
  match context with
  | .normal => code false c rest
  | .tag => code true c rest
  | .text => text false c rest
  | .typedText => text true c rest
  | .raw tag => raw tag c rest

end Lexeme

end MarkupSyntax
