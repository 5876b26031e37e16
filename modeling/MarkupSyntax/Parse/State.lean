import MarkupSyntax.Event.Basic
import MarkupSyntax.Options
import MarkupSyntax.Token.Source

/-!
# `MarkupSyntax.Parse.State`: the state of a parse

A `Parser` stands at a token and has recorded events and diagnostics.
It also keeps the nesting depth, the depth of speculation, and a memo
of decisions that were costly to reach.

A checkpoint goes back to an earlier state in everything but the memo.
Events are only cut off, not restored: an earlier event that was
changed in the meantime stays changed.
-/

set_option autoImplicit false

namespace MarkupSyntax

/-- What the braces after an `if` condition hold. -/
inductive IfForm where
  /-- One body. -/
  | simple
  /-- A list of conditions, each with a body. -/
  | conditionList
deriving DecidableEq, Repr

/-- How the body of an element was read. -/
structure ContentShape where
  /-- The body is a sequence of elements, and not mixed with text. -/
  isElements : Bool
  /-- The first control construct that was read without error in a body
  that turned out to be mixed. -/
  control : Option TextRange := none
deriving DecidableEq, Repr

/-- A decision worth remembering. -/
inductive Outcome where
  | ifForm (form : IfForm)
  | content (shape : ContentShape)
  /-- A decision that a user of the library made. -/
  | note (text : String)
deriving DecidableEq, Repr

/-- The state of a parse. -/
structure Parser where
  source : TokenSource
  options : Options
  file : Text
  events : Array Event := #[]
  diagnostics : Array Diagnostic := #[]
  /-- The number of errors, those not recorded included. -/
  errorCount : Nat := 0
  /-- How many speculations are under way. -/
  speculation : Int := 0
  /-- How many nested constructs are open. -/
  depth : Int := 0
  /-- Decisions by rule and offset, the latest first. -/
  memo : List ((String × Nat) × Outcome) := []
  /-- Decisions are kept; without that each is reached anew. -/
  memoizes : Bool := true

namespace Parser

/-- A state of a parse to go back to. -/
structure Checkpoint where
  source : TokenSource.Checkpoint
  eventCount : Nat
  diagnosticCount : Nat
  errorCount : Nat
  lexerDiagnosticCount : Nat
  speculation : Int
  depth : Int
deriving DecidableEq, Repr

/-- The kind of the current token. -/
def kind (p : Parser) : TokenKind := p.source.current.kind

/-- The range of the current token. -/
def range (p : Parser) : TextRange := p.source.current.range

/-- The text of the whole source. -/
def text (p : Parser) : Text := p.source.text

/-- The text of the current token. -/
def currentText (p : Parser) : Text := p.text.sliceRange p.range

/-- The offset of the current token. -/
def position (p : Parser) : Nat := p.range.start

/-- True while something is parsed that will be taken back. -/
def isSpeculative (p : Parser) : Bool := 0 < p.speculation

/-- The state of the parse, to go back to. -/
def checkpoint (p : Parser) : Checkpoint where
  source := p.source.checkpoint
  eventCount := p.events.size
  diagnosticCount := p.diagnostics.size
  errorCount := p.errorCount
  lexerDiagnosticCount := p.source.lexerDiagnostics.size
  speculation := p.speculation
  depth := p.depth

/-- The parse back at an earlier state. The memo stays. -/
def rewind (p : Parser) (checkpoint : Checkpoint) : Parser :=
  { p with
    source := p.source.rewind checkpoint.source
    events := p.events.take checkpoint.eventCount
    diagnostics := p.diagnostics.take checkpoint.diagnosticCount
    errorCount := checkpoint.errorCount
    speculation := checkpoint.speculation
    depth := checkpoint.depth }

/-- True when an error was reported since a checkpoint, by the parser
or by the lexer. -/
def hasErrorsSince (p : Parser) (checkpoint : Checkpoint) : Bool :=
  checkpoint.errorCount < p.errorCount ||
    checkpoint.lexerDiagnosticCount < p.source.lexerDiagnostics.size

/-- Reports a diagnostic. One that starts where the last one recorded
starts counts as an error and is not recorded: it follows from the same
defect. -/
def report (p : Parser) (diagnostic : Diagnostic) : Parser :=
  let follows := p.diagnostics.back?.any fun last => last.range.start = diagnostic.range.start
  { p with
    errorCount := p.errorCount + 1
    diagnostics := if follows then p.diagnostics else p.diagnostics.push diagnostic }

/-- Consumes the current token, as a token of kind `kind` if one is
given, and reads the next in `context`. At the end of the source
nothing happens. -/
def bump (p : Parser) (context : LexContext) (field : Option String)
    (kind : Option SyntaxKind) : Parser :=
  if p.kind = .eof then p
  else
    { p with
      events := p.events.push (.token (kind.getD (.token p.kind)) p.range.stop field)
      source := p.source.bump context }

/-- Reads the current token anew in `context`. -/
def relex (p : Parser) (context : LexContext) : Parser :=
  { p with source := p.source.relex context }

/-- The parse outside the nested construct that it is in. -/
def leaveNesting (p : Parser) : Parser := { p with depth := p.depth - 1 }

/-- The parse inside one more speculation. -/
def enterSpeculation (p : Parser) : Parser := { p with speculation := p.speculation + 1 }

/-- The parse outside the speculation that it is in. -/
def leaveSpeculation (p : Parser) : Parser := { p with speculation := p.speculation - 1 }

/-- Keeps the decision of a rule at an offset. -/
def keep (p : Parser) (rule : String) (offset : Nat) (outcome : Outcome) : Parser :=
  if p.memoizes then { p with memo := ((rule, offset), outcome) :: p.memo } else p

/-- Keeps a decision unless it was reached in speculation. There
recovery is off, so the real parse may decide otherwise. -/
def remember (p : Parser) (rule : String) (offset : Nat) (outcome : Outcome) : Parser :=
  if p.isSpeculative then p else p.keep rule offset outcome

end Parser

/-- The decision of a rule at an offset, if it was reached before. -/
def Parser.recall? (p : Parser) (rule : String) (offset : Nat) : Option Outcome :=
  if p.memoizes then p.memo.lookup (rule, offset) else none

/-- A parse before its first token is consumed. -/
def Parser.ofSource (source : TokenSource) (options : Options) (file : Text) : Parser :=
  { source, options, file }

end MarkupSyntax
