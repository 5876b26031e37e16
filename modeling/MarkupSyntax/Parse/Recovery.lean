import MarkupSyntax.Parse.Marker

/-!
# `MarkupSyntax.Parse.Recovery`: skipping what does not fit

After an error a parse goes on at the next safe token. The tokens in
between become an error node. Braces opened in it are balanced, so a
closing brace is safe only when it closes the construct around the
skipped tokens.
-/

set_option autoImplicit false

namespace MarkupSyntax

/-- Where a parse can go on after an error. -/
structure Recovery where
  /-- The kinds of safe tokens. -/
  stops : List TokenKind
  /-- A closing tag is safe too. -/
  stopsAtCloseTag : Bool := false
  /-- Further safe places, which a kind alone does not tell. -/
  resumes : Parse Bool := pure false
  /-- The kind of the node around the skipped tokens. -/
  nodeKind : SyntaxKind := .error

/-- Why nothing was skipped. -/
inductive RecoveryRefusal where
  | atEnd
  | alreadySafe
  /-- Speculation skips nothing. -/
  | speculative
deriving DecidableEq, Repr

/-- The published name of a refusal. -/
def RecoveryRefusal.name : RecoveryRefusal → String
  | atEnd => "eof"
  | alreadySafe => "already_recovered"
  | speculative => "recovery_disabled"

namespace Recovery

/-- The tokens that open a brace. -/
def openers : List TokenKind := [.lBrace, .atLBrace]

/-- True at a safe place. -/
def isSafe (recovery : Recovery) : Parse Bool := do
  if ← Parse.seesAny recovery.stops then return true
  if recovery.stopsAtCloseTag then
    if ← Parse.seesCloseTag then return true
  recovery.resumes

/-- One round of skipping; `depth` braces are open. -/
def skip (recovery : Recovery) (depth : Nat) : Parse (Parse.Round Nat Unit) := do
  if ← Parse.sees .eof then return .done ()
  if depth = 0 then
    if ← recovery.isSafe then return .done ()
  let isOpener ← Parse.seesAny openers
  let isCloser ← Parse.sees .rBrace
  Parse.bump
  return .again (if isOpener then depth + 1 else if isCloser then depth - 1 else depth)

/-- Skips to the next safe place, or says why not. -/
def recover (recovery : Recovery) : Parse (Except RecoveryRefusal Completed) := do
  if ← Parse.sees .eof then return .error .atEnd
  if ← recovery.isSafe then return .error .alreadySafe
  if (← get).isSpeculative then return .error .speculative
  let marker ← Parse.start
  Parse.loop recovery.skip 0
  return .ok (← marker.complete recovery.nodeKind)

/-- Reports the current token and skips to the next safe place. False
when nothing was skipped. -/
def skipUnexpected (recovery : Recovery) : Parse Bool := do
  Parse.reportUnexpected
  return (← recovery.recover).isOk

end Recovery

/-! ### Lists -/

/-- A list of items, each read in one context. -/
structure ItemList where
  /-- The kind of the node around the items. -/
  nodeKind : SyntaxKind
  context : LexContext
  /-- True where the list ends. -/
  ends : Parse Bool
  /-- Parses an item; answers none, with nothing consumed, where no
  item starts. -/
  item : Parse (Option Completed)
  /-- Where the list goes on after a token that starts no item. -/
  recovery : Recovery
  /-- True where the list leaves such a token to the construct around
  it. -/
  yields : Parse Bool := pure false

namespace ItemList

/-- One round of a list. -/
def round (list : ItemList) (progress : Parse.Progress) :
    Parse (Parse.Round Parse.Progress Unit) := do
  Parse.relex list.context
  if ← Parse.sees .eof then return .done ()
  if ← list.ends then return .done ()
  let progress ← Parse.mustProgress progress
  if (← list.item).isSome then return .again progress
  if ← list.yields then return .done ()
  if ← list.recovery.skipUnexpected then return .again progress else return .done ()

/-- Parses the items of a list into one node. -/
def parse (list : ItemList) : Parse Completed := do
  let marker ← Parse.start
  Parse.loop list.round {}
  marker.complete list.nodeKind

end ItemList

end MarkupSyntax
