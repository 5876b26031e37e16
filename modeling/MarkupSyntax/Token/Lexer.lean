import MarkupSyntax.Diagnostic.Basic
import MarkupSyntax.Text.Quoted
import MarkupSyntax.Token.Lexeme

/-!
# `MarkupSyntax.Token.Lexer`: the tokens of a source, one by one

A `Lexer` stands at a token of its source. `next` moves it to the next
one, read in the context that the caller chooses, and records what is
wrong with it. Tokens follow each other without gaps, so the place
where the current token stops is all there is to a position.

A checkpoint remembers how many diagnostics there were, not which:
going back drops the later ones, and going forward again does not bring
them back.
-/

set_option autoImplicit false

namespace MarkupSyntax

/-- A lexer at one token of its source. Before the first token it
stands at an empty end-of-source token at offset zero. -/
structure Lexer where
  source : Text
  file : Text
  current : Token := ⟨.eof, .empty 0, {}⟩
  /-- A line break was read since the last token that is no trivia. -/
  afterLineBreak : Bool := false
  diagnostics : Array Diagnostic := #[]
deriving DecidableEq

namespace Lexer

/-- A state of a lexer to go back to. -/
structure Checkpoint where
  current : Token
  afterLineBreak : Bool
  diagnosticCount : Nat
deriving DecidableEq, Repr

/-- The offset where the current token stops. -/
def Checkpoint.position (checkpoint : Checkpoint) : Nat := checkpoint.current.range.stop

/-- A lexer before the first token of a source. -/
def ofSource (source : Text) (file : Text) : Lexer := { source, file }

/-- The offset where the current token stops. -/
def position (lexer : Lexer) : Nat := lexer.current.range.stop

/-- True when the current token stops at the end of the source. -/
def isAtEnd (lexer : Lexer) : Bool := lexer.source.length ≤ lexer.position

/-- The state of the lexer, to go back to. -/
def checkpoint (lexer : Lexer) : Checkpoint :=
  ⟨lexer.current, lexer.afterLineBreak, lexer.diagnostics.size⟩

/-- The lexer back at an earlier state. -/
def rewind (lexer : Lexer) (checkpoint : Checkpoint) : Lexer :=
  { lexer with
    current := checkpoint.current
    afterLineBreak := checkpoint.afterLineBreak
    diagnostics := lexer.diagnostics.take checkpoint.diagnosticCount }

/-- The diagnostic of a lexeme, if there is something wrong with it. -/
def problem? (lexeme : Lexeme) (range : TextRange) (text file : Text) : Option Diagnostic :=
  lexeme.problem.map fun code =>
    let diagnostic := Diagnostic.ofCode code range file
    if code = .invalidCharacter then
      diagnostic.withMessage ("Invalid character " ++ text.quoted)
    else diagnostic

/-- The lexer at the next token, read in `context`. At the end of the
source it stays there. -/
def next (lexer : Lexer) (context : LexContext) : Lexer :=
  match lexer.source.drop lexer.position with
  | [] =>
    { lexer with
      current := ⟨.eof, .empty lexer.position, { afterLineBreak := lexer.afterLineBreak }⟩ }
  | c :: rest =>
    let lexeme := Lexeme.next context c rest
    let range := TextRange.ofLength lexer.position lexeme.length
    let afterLineBreak := lexer.afterLineBreak || lexeme.kind = .newline
    let text := (c :: rest).take lexeme.length
    { lexer with
      current := ⟨lexeme.kind, range, { afterLineBreak, hasEscape := lexeme.hasEscape }⟩
      afterLineBreak := afterLineBreak && lexeme.kind.isTrivia
      diagnostics := lexer.diagnostics ++ (problem? lexeme range text lexer.file).toArray }

/-- The next tokens up to the end of the source, but no more than
`count`, all read in one context. -/
def take (context : LexContext) : (count : Nat) → Lexer → List Token × Lexer
  | 0, lexer => ([], lexer)
  | count + 1, lexer =>
    let lexer := lexer.next context
    if lexer.current.kind = .eof then ([lexer.current], lexer)
    else
      let (tokens, last) := take context count lexer
      (lexer.current :: tokens, last)

/-- All tokens from here to the end of the source, which is the last of
them. Each of the others takes a character, so there are no more than
characters. -/
def tokens (lexer : Lexer) (context : LexContext) : List Token × Lexer :=
  lexer.take context (lexer.source.length + 1)

end Lexer

end MarkupSyntax
