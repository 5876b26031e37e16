import MarkupSyntax.Grammar.Elements

/-!
# `MarkupSyntax.Grammar.Content`: the bodies of elements

A plain element holds a sequence of elements or mixed content, and only
reading it tells which. So the body is read as a sequence first. Where
text turns up, what was read so far is kept and the rest is read as
mixed content; a control construct or trivia that would be text in
mixed content makes the parse step back.

The bodies of embedded elements are announced by the tag: text, typed
text, or raw text that is kept as it stands.
-/

set_option autoImplicit false

namespace MarkupSyntax.Grammar

open Parse

/-! ### Text -/

/-- The tokens of a run of text. -/
def textTokens : List TokenKind := [.textChunk, .entity, .escapedLBrace, .escapedRBrace]

/-- The tokens of a run of typed text. -/
def typedTextTokens : List TokenKind := textTokens ++ [.escapedAt]

/-- The tokens that belong to a run, as one node. -/
def textRun (kind : SyntaxKind) (tokens : List TokenKind) (context : LexContext) :
    Parse Unit := do
  let marker ← start
  whileTrue do
    if !(← seesAny tokens) then return false
    bump context
    return true
  let _ ← marker.complete kind

/-- A token that text has no place for, as an error. -/
def strayToken : Parse Unit := do
  reportUnexpected
  let marker ← start
  bump .text
  let _ ← marker.complete .error

/-! ### Mixed content -/

/-- One item of mixed content. -/
def mixedRound (descend : Descent) (progress : Progress) : Parse (Round Progress Unit) := do
  relex .text
  if ← sees .eof then return .done ()
  if ← seesCloseTag then return .done ()
  let progress ← mustProgress progress
  if ← seesAny textTokens then textRun .textRun textTokens .text
  else match (← get).kind with
    | .lessThan => let _ ← descend (.element none)
    | .lBrace => let _ ← interpolation descend none
    | _ => strayToken
  return .again progress

/-- The items of mixed content up to a closing tag. -/
def mixedItems (descend : Descent) : Parse Unit := loop (mixedRound descend) {}

/-- Mixed content, into a field. -/
def mixedContent (descend : Descent) (field : Option String) : Parse Completed := do
  let marker ← start
  mixedItems descend
  let node ← marker.complete .mixedContent
  node.setField field

/-- The rest of a body as mixed content, in the node of `marker`. A
control construct that was read before is reported as misplaced. -/
def mixedBody (descend : Descent) (marker : Marker) (shape : ContentShape) :
    Parse Completed := do
  if let some range := shape.control then
    report (.ofCode .controlInMixedContent range (← get).file)
  mixedItems descend
  (← marker.complete .mixedContent).setField "content"

/-! ### Bodies of plain elements -/

/-- True for trivia that is text in a body of text. -/
def Trivia.readsAsText (piece : Trivia) : Bool := piece.kind = .comment || piece.kind = .skipped

/-- True when trivia in front of the current token would be text. -/
def gapReadsAsText (p : Parser) : Bool :=
  (p.source.trivia.extract p.source.current.originTrivia).any Trivia.readsAsText

/-- True when trivia since a checkpoint, that in front of its token
included, would be text. -/
def readsAsTextSince (checkpoint : Parser.Checkpoint) (p : Parser) : Bool :=
  (p.source.trivia.extract checkpoint.source.current.originTrivia).any Trivia.readsAsText

/-- The offset of the first error since a checkpoint that was
recorded. -/
def firstErrorSince? (checkpoint : Parser.Checkpoint) (p : Parser) : Option Nat :=
  let fresh := p.diagnostics.extract checkpoint.diagnosticCount ++
    p.source.lexerDiagnostics.extract checkpoint.lexerDiagnosticCount
  (fresh.toList.map (·.range.start)).min?

/-- The offset after the first `{` consumed since a checkpoint. -/
def firstBraceSince? (checkpoint : Parser.Checkpoint) (p : Parser) : Option Nat :=
  (p.events.extract checkpoint.eventCount).findSome? fun
    | .token (.token .lBrace) stop _ => some stop
    | _ => none

/-- True when the control construct that starts at a checkpoint has an
error before its `{`. -/
def hasHeaderError (checkpoint : Parser.Checkpoint) (p : Parser) : Bool :=
  p.hasErrorsSince checkpoint &&
    match firstBraceSince? checkpoint p, firstErrorSince? checkpoint p with
    | some brace, some error => error < brace
    | _, _ => true

/-- What is known of a body while it is read as a sequence. -/
structure BodyState where
  progress : Progress := {}
  /-- An element or a control construct was read. -/
  hasMarkup : Bool := false
  /-- Something was read that is text after all. -/
  isText : Bool := false
  /-- The state in front of the first control construct. -/
  firstControl : Option Parser.Checkpoint := none
  /-- The range of the first control construct without error. -/
  control : Option TextRange := none

/-- What an item of a body adds to what is known. The item starts at
`before`; words such as `for more` start a control construct with an
error in its head and are text. -/
def bodyItemRead (state : BodyState) (before : Parser.Checkpoint) (kind : SyntaxKind) :
    Parse (Round BodyState BodyState) := do
  if !kind.isControl then
    return .again { state with hasMarkup := state.hasMarkup || kind = .element }
  let p ← get
  let state := { state with firstControl := state.firstControl.or (some before) }
  if hasHeaderError before p then return .done { state with isText := true }
  let control ←
    if state.control.isSome || p.hasErrorsSince before then pure state.control
    else match TextRange.ofBounds? before.source.current.range.start p.position with
      | some range => pure (some range)
      | none => throw (.bounds .reversed)
  return .again { state with control, hasMarkup := true }

/-- One item of a body that is read as a sequence of elements. -/
def bodyRound (descend : Descent) (state : BodyState) : Parse (Round BodyState BodyState) := do
  relex .normal
  if gapReadsAsText (← get) then return .done { state with isText := true }
  if ← sees .eof then return .done state
  if ← seesCloseTag then return .done state
  if !(← seesElementsItem) then return .done state
  let progress ← mustProgress state.progress
  let before := (← get).checkpoint
  match ← elementsItem descend with
  | none => return .done { state with progress }
  | some item => bodyItemRead { state with progress } before (← item.kind)

/-- Reads a body as a sequence, and goes on as mixed content where it
is none. `body` is the state in front of it. -/
def classifiedBody (descend : Descent) (marker : Marker) (body : Parser.Checkpoint)
    (offset : Nat) : Parse Completed := do
  let state ← loop (bodyRound descend) {}
  relex .normal
  let isElements ← if state.hasMarkup && !state.isText then seesCloseTag else pure false
  if isElements then
    modify fun p => p.remember "element_content" offset (.content { isElements := true })
    (← marker.complete .elementsExpression).setField "content"
  else
    let shape : ContentShape := { isElements := false, control := state.control }
    modify fun p => p.remember "element_content" offset (.content shape)
    if readsAsTextSince body (← get) then modify fun p => p.rewind body
    else if let some before := state.firstControl then modify fun p => p.rewind before
    mixedBody descend marker shape

/-- The body of a plain element, up to its closing tag. A body known to
be mixed is read as such at once. -/
def elementContent (descend : Descent) : Parse Completed := do
  relex .normal
  let offset := (← get).position
  match (← get).recall? "element_content" offset with
  | some (.content ⟨false, control⟩) =>
    mixedBody descend (← start) { isElements := false, control }
  | _ =>
    let marker ← start
    classifiedBody descend marker (← get).checkpoint offset

/-! ### Bodies of embedded elements -/

/-- One item of the body of an embedded element without a type. -/
def plainTextRound (descend : Descent) (progress : Progress) :
    Parse (Round Progress Unit) := do
  relex .text
  if ← seesAny [.eof, .lessThan] then return .done ()
  let progress ← mustProgress progress
  if ← seesAny textTokens then textRun .textRun textTokens .text
  else if ← sees .lBrace then let _ ← interpolation descend none
  else strayToken
  return .again progress

/-- The body of an embedded element without a type: text and
interpolations. -/
def textContent (descend : Descent) : Parse Completed := do
  let marker ← start
  loop (plainTextRound descend) {}
  let node ← marker.complete .textContent
  node.setField "content"

/-- One item of the body of a typed element. -/
def typedTextRound (descend : Descent) (progress : Progress) :
    Parse (Round Progress Unit) := do
  relex .typedText
  if ← seesAny [.eof, .lessThan] then return .done ()
  let progress ← mustProgress progress
  if ← sees .atLBrace then
    let _ ← interpolationAs descend .embedInterpolationExpression .typedText
  else textRun .embedTextRun typedTextTokens .typedText
  return .again progress

/-- The body of a typed element: text and interpolations with `@`. -/
def embedContent (descend : Descent) : Parse Completed := do
  let marker ← start
  loop (typedTextRound descend) {}
  let node ← marker.complete .embedContent
  node.setField "content"

/-- A raw body, in the context of its first token. -/
def rawTextRun : Parse Completed := do
  let marker ← start
  whileTrue do
    if !(← sees .rawTextChunk) then return false
    bump (← get).source.current.context
    return true
  let node ← marker.complete .rawTextRun
  node.setField "content"

end MarkupSyntax.Grammar
