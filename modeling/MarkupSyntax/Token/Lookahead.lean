import MarkupSyntax.Fault
import MarkupSyntax.Token.Lexer

/-!
# `MarkupSyntax.Token.Lookahead`: a lexer that can look ahead

A `Lookahead` stands at a token, as a lexer does, and keeps the tokens
that somebody already asked about. Those are read in the normal
context. A token wanted in another context throws them away and is
read from the current position, so nothing read ahead leaks into tags
or text.

Its lexer runs ahead of it: the lexer's diagnostics include those of
the tokens kept. `finish` takes them back.
-/

set_option autoImplicit false

namespace MarkupSyntax

/-- A lexer with the tokens read ahead. -/
structure Lookahead where
  /-- The lexer, at the last token read. -/
  lexer : Lexer
  /-- The state at the current token. With no token kept it is the
  state of the lexer. -/
  here : Lexer.Checkpoint
  /-- The states at the tokens after the current one. -/
  ahead : List Lexer.Checkpoint := []
deriving DecidableEq

namespace Lookahead

/-- A lexer with nothing read ahead. -/
def ofLexer (lexer : Lexer) : Lookahead := { lexer, here := lexer.checkpoint }

/-- The current token. -/
def current (buffer : Lookahead) : Token := buffer.here.current

/-- Back at a state of the lexer, with nothing read ahead. -/
def rewind (buffer : Lookahead) (checkpoint : Lexer.Checkpoint) : Lookahead :=
  ofLexer (buffer.lexer.rewind checkpoint)

/-- The same position with nothing read ahead. -/
def drop (buffer : Lookahead) : Lookahead :=
  if buffer.ahead.isEmpty then buffer else buffer.rewind buffer.here

/-- At the next token, read in `context`. -/
def next (buffer : Lookahead) (context : LexContext) : Lookahead :=
  match context, buffer.ahead with
  | .normal, state :: ahead => { buffer with here := state, ahead }
  | _, _ => ofLexer (buffer.drop.lexer.next context)

/-- One more token read ahead, unless the lexer is at the end of the
source. Before its first token the lexer counts as at the end. -/
def fetch? (buffer : Lookahead) : Option Lookahead :=
  if buffer.lexer.current.kind = .eof then none
  else
    let lexer := buffer.lexer.next .normal
    some { buffer with lexer, ahead := buffer.ahead ++ [lexer.checkpoint] }

/-- Up to `count` more tokens read ahead. -/
def fetch : (count : Nat) → Lookahead → Lookahead
  | 0, buffer => buffer
  | count + 1, buffer =>
    match buffer.fetch? with
    | some buffer => fetch count buffer
    | none => buffer

/-- The next `count` tokens, trivia included, or as many as there
are. -/
def look (buffer : Lookahead) (count : Nat) : List Token × Lookahead :=
  let buffer := fetch (count - buffer.ahead.length) buffer
  ((buffer.ahead.take count).map (·.current), buffer)

/-- One step of a walk over the tokens ahead that has passed `place` of
them: the next one, trivia included, if the source has one more. -/
def peek (place : Nat) (buffer : Lookahead) : Option Token × Lookahead :=
  match buffer.ahead[place]? with
  | some state => (some state.current, buffer)
  | none =>
    match buffer.fetch? with
    | some buffer => (some buffer.lexer.current, buffer)
    | none => (none, buffer)

/-- The tokens kept that are no trivia. -/
def solid (buffer : Lookahead) : List Token :=
  (buffer.ahead.map (·.current)).filter fun token => !token.kind.isTrivia

/-- Reads ahead until `wanted + 1` tokens that are no trivia came, in
`fuel` tokens at most; answers the last of them. -/
def seek : (fuel : Nat) → (wanted : Nat) → Lookahead → Option Token × Lookahead
  | 0, _, buffer => (none, buffer)
  | fuel + 1, wanted, buffer =>
    match buffer.fetch? with
    | none => (none, buffer)
    | some buffer =>
      let token := buffer.lexer.current
      if token.kind.isTrivia then seek fuel wanted buffer
      else match wanted with
        | 0 => (some token, buffer)
        | wanted + 1 => seek fuel wanted buffer

/-- The token `n + 1` places after the current one, trivia left out, if
the source has that many. The end of the source counts as a token. -/
def nth? (buffer : Lookahead) (n : Nat) : Option Token × Lookahead :=
  match buffer.solid[n]? with
  | some token => (some token, buffer)
  | none => seek (buffer.lexer.source.length + 1) (n - buffer.solid.length) buffer

/-- `nth?` for a number of places that starts at one. -/
def nthFrom1 (buffer : Lookahead) (n : Int) : Except Fault (Option Token × Lookahead) :=
  if n ≤ 0 then .error .lookaheadBelowOne else .ok (buffer.nth? (n - 1).toNat)

/-- The diagnostics of the tokens up to the current one. -/
def finish (buffer : Lookahead) : Array Diagnostic × Lookahead :=
  let buffer := buffer.drop
  (buffer.lexer.diagnostics, buffer)

end Lookahead

end MarkupSyntax
