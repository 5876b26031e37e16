import MarkupSyntax.Token.Lookahead

/-!
# `MarkupSyntax.Token.Source`: tokens without trivia

A `TokenSource` stands at a token that is no trivia and records the
trivia it passed on the way. The current token remembers the state of
the lexer right after the token before it, so that it can be read anew,
trivia and all, in another context.

Looking ahead reads in the normal context, whatever the context of the
current token is.
-/

set_option autoImplicit false

namespace MarkupSyntax

namespace TokenSource

/-- The current token of a token source. -/
structure Current where
  kind : TokenKind
  range : TextRange
  context : LexContext
  /-- A line break stands between this token and the one before. -/
  afterLineBreak : Bool
  /-- Trivia stands between this token and the one before. -/
  afterTrivia : Bool
  /-- The lexer right after the token before this one. -/
  origin : Lexer.Checkpoint
  /-- The number of pieces of trivia recorded up to the token before
  this one. -/
  originTrivia : Nat
deriving DecidableEq, Repr

/-- A state of a token source to go back to. -/
structure Checkpoint where
  lexer : Lexer.Checkpoint
  triviaCount : Nat
  current : Current
deriving DecidableEq, Repr

end TokenSource

/-- A stream of tokens with the trivia between them set aside. -/
structure TokenSource where
  buffer : Lookahead
  trivia : Array Trivia := #[]
  current : TokenSource.Current
deriving DecidableEq

namespace TokenSource

/-- The source text. -/
def text (source : TokenSource) : Text := source.buffer.lexer.source

/-- The diagnostics of all tokens read, those read ahead included. -/
def lexerDiagnostics (source : TokenSource) : Array Diagnostic := source.buffer.lexer.diagnostics

/-- What `skipTrivia` has gathered on its way to a token. -/
structure Gap where
  buffer : Lookahead
  trivia : Array Trivia
  /-- The next piece of trivia belongs to the token before. -/
  isTrailing : Bool
  afterLineBreak : Bool := false
  afterTrivia : Bool := false

/-- Passes the trivia in front of the next token, reading at most
`fuel` tokens, and answers with the buffer at the token. -/
def skipTrivia (context : LexContext) : (fuel : Nat) → Gap → Gap
  | 0, gap => gap
  | fuel + 1, gap =>
    let buffer := gap.buffer.next context
    let token := buffer.current
    match token.kind.triviaKind? with
    | none =>
      { gap with buffer, afterLineBreak := gap.afterLineBreak || token.flags.afterLineBreak }
    | some kind =>
      let isNewline := kind = .newline
      let isTrailing := gap.isTrailing && !isNewline
      skipTrivia context fuel
        { buffer
          trivia := gap.trivia.push ⟨kind, token.range, isTrailing⟩
          isTrailing
          afterLineBreak := gap.afterLineBreak || isNewline
          afterTrivia := true }

/-- At the token after the current token of the buffer, read in
`context`. Trivia at the very start of the source belongs to the token
after it; elsewhere it belongs to the token before, up to the first
line break. -/
def advanceFrom (buffer : Lookahead) (trivia : Array Trivia) (context : LexContext) :
    TokenSource :=
  let gap := skipTrivia context (buffer.lexer.source.length + 1)
    { buffer, trivia, isTrailing := 0 < buffer.here.position }
  { buffer := gap.buffer
    trivia := gap.trivia
    current :=
      { kind := gap.buffer.current.kind
        range := gap.buffer.current.range
        context
        afterLineBreak := gap.afterLineBreak
        afterTrivia := gap.afterTrivia
        origin := buffer.here
        originTrivia := trivia.size } }

/-- A token source at the first token of a source. -/
def ofLexer (lexer : Lexer) (context : LexContext := .normal) : TokenSource :=
  advanceFrom (.ofLexer lexer) #[] context

/-- At the next token, read in `context`; at the end of the source
nothing happens. -/
def bump (source : TokenSource) (context : LexContext) : TokenSource :=
  if source.current.kind = .eof then source
  else advanceFrom source.buffer source.trivia context

/-- The current token and the trivia before it, read anew in
`context`. -/
def relex (source : TokenSource) (context : LexContext) : TokenSource :=
  if context = source.current.context then source
  else
    advanceFrom (source.buffer.rewind source.current.origin)
      (source.trivia.take source.current.originTrivia) context

/-- The state of the token source, to go back to. -/
def checkpoint (source : TokenSource) : Checkpoint :=
  ⟨source.buffer.here, source.trivia.size, source.current⟩

/-- The token source back at an earlier state. -/
def rewind (source : TokenSource) (checkpoint : Checkpoint) : TokenSource where
  buffer := source.buffer.rewind checkpoint.lexer
  trivia := source.trivia.take checkpoint.triviaCount
  current := checkpoint.current

/-! ### Looking ahead -/

/-- What can be asked about a token ahead. -/
structure View where
  kind : TokenKind
  range : TextRange
  afterLineBreak : Bool
  afterTrivia : Bool
deriving DecidableEq, Repr

/-- The token `n` places after the current one, for `n` from one up. -/
def ahead? (source : TokenSource) (n : Nat) : Option Token × TokenSource :=
  let (token, buffer) := source.buffer.nth? (n - 1)
  (token, { source with buffer })

/-- The kind of the token `n` places ahead; past the end of the source
it is the end. -/
def nthKind (source : TokenSource) (n : Nat) : TokenKind × TokenSource :=
  if n = 0 then (source.current.kind, source)
  else
    let (token, source) := source.ahead? n
    ((token.map (·.kind)).getD .eof, source)

/-- The range of the token `n` places ahead; past the end of the source
it is empty. -/
def nthRange (source : TokenSource) (n : Nat) : TextRange × TokenSource :=
  if n = 0 then (source.current.range, source)
  else
    let (token, source) := source.ahead? n
    ((token.map (·.range)).getD (.empty source.current.range.stop), source)

/-- True when a line break stands before the token `n` places ahead. -/
def nthAfterLineBreak (source : TokenSource) (n : Nat) : Bool × TokenSource :=
  if n = 0 then (source.current.afterLineBreak, source)
  else
    let (token, source) := source.ahead? n
    (token.any (·.flags.afterLineBreak), source)

/-- True when trivia stands before the token `n` places ahead: when the
token before it stops short of it. -/
def nthAfterTrivia (source : TokenSource) (n : Nat) : Bool × TokenSource :=
  if n = 0 then (source.current.afterTrivia, source)
  else
    let (range, source) := source.nthRange n
    let (before, source) := source.nthRange (n - 1)
    (before.stop < range.start, source)

/-- All that can be asked about the token `n` places ahead. -/
def nth (source : TokenSource) (n : Int) : Except Fault (View × TokenSource) :=
  if n < 0 then .error .lookaheadBelowOne
  else
    let n := n.toNat
    let (kind, source) := source.nthKind n
    let (range, source) := source.nthRange n
    let (afterLineBreak, source) := source.nthAfterLineBreak n
    let (afterTrivia, source) := source.nthAfterTrivia n
    .ok (⟨kind, range, afterLineBreak, afterTrivia⟩, source)

/-- The trivia passed and the diagnostics of the tokens up to the
current one. -/
def finish (source : TokenSource) : Array Trivia × Array Diagnostic × TokenSource :=
  let (diagnostics, buffer) := source.buffer.finish
  (source.trivia, diagnostics, { source with buffer })

end TokenSource

end MarkupSyntax
