import MarkupSyntax.Text.Range
import MarkupSyntax.Token.Kind

/-!
# `MarkupSyntax.Fault`: misuse of the parsing interface

A defect of a source is a diagnostic and never stops anything. A
`Fault` is the other kind of failure: an operation asked for something
that its state does not admit, such as finishing a node twice. A parse
of a source raises none.
-/

set_option autoImplicit false

namespace MarkupSyntax

/-- Why an operation was refused. -/
inductive Fault where
  /-- A range or a length was refused. -/
  | bounds (fault : RangeFault)
  /-- A look ahead of less than one token. -/
  | lookaheadBelowOne
  /-- A token kind that is no trivia. -/
  | notTrivia (kind : TokenKind)
  /-- An index past the recorded events. -/
  | noSuchEvent
  /-- A marker that does not point at the start of a node. -/
  | markerOffStart
  /-- A completed marker that does not point at the start of a node. -/
  | completionOffStart
  /-- Undoing a completion that is not the last event. -/
  | completionNotLast
  /-- A parent that would start before its child. -/
  | precedeBackward
  /-- A start event that names a parent past the last event. -/
  | forwardParentOutside
  /-- A start event that names a parent that is no start event. -/
  | forwardParentOffStart
  /-- More nodes finished than started. -/
  | finishWithoutStart
  /-- A node finished with none open in the tree under construction. -/
  | finishOnEmptyStack
  /-- A tree taken while nodes are still open. -/
  | unclosedNodes
  /-- A list whose items stopped consuming tokens. -/
  | stalled (kind : TokenKind) (range : TextRange)
  /-- Both a set of options and a mode were given. -/
  | optionsAndMode
  /-- A tree without a module. -/
  | noModule
  /-- A descent or a loop longer than the source allows. -/
  | exhausted
deriving DecidableEq, Repr

namespace Fault

/-- The text of the refusal. -/
def message : Fault → String
  | bounds fault => fault.message
  | lookaheadBelowOne => "n must be >= 1"
  | notTrivia kind =>
    "Not a trivia token kind: <TokenKind." ++ kind.name ++ ": " ++ toString kind.number ++ ">"
  | noSuchEvent => "list index out of range"
  | markerOffStart => "Marker must point to a StartEvent"
  | completionOffStart => "CompletedMarker points to non-start event"
  | completionNotLast => "Can only undo the most recent completion"
  | precedeBackward => "Invalid precede distance"
  | forwardParentOutside => "Invalid forward_parent offset in parser events"
  | forwardParentOffStart => "forward_parent must point to StartEvent"
  | finishWithoutStart => "finish_node called more often than start_node"
  | finishOnEmptyStack => "finish_node called with empty builder stack"
  | unclosedNodes => "Cannot finish tree: unclosed nodes remain on stack"
  | stalled kind place => "Parser stopped making progress at " ++ kind.name ++ " " ++ place.display
  | optionsAndMode => "Pass either options or mode, not both"
  | noModule => "Tree has no module node"
  | exhausted => "The parse is longer than its source allows"

end Fault

/-- The trivia that tokens of a kind are, or a refusal. -/
def TokenKind.requireTrivia (kind : TokenKind) : Except Fault TriviaKind :=
  match kind.triviaKind? with
  | some trivia => .ok trivia
  | none => .error (.notTrivia kind)

end MarkupSyntax
