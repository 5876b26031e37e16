import MarkupSyntax.Text.Blank
import MarkupSyntax.Text.Range
import MarkupSyntax.Text.Utf8

/-!
# `MarkupSyntax.Text.Lines`: lines, columns and byte positions

A line ends after a line feed, after a carriage return, or after the
two together, as in the lexer. Lines and columns count from zero, and a
column counts bytes. An offset past the end of the text is taken for
the end.
-/

set_option autoImplicit false

namespace MarkupSyntax

/-- The lines of a text, each with the break that ends it. The last
one has none and may be empty. A carriage return before a line feed
ends no line by itself. -/
def splitLines : Text → List Text
  | [] => [[]]
  | c :: rest =>
    let pairs := c = '\r' && rest.head? = some (CodePoint.ofChar '\n')
    if c.isLineEnd && !pairs then [c] :: splitLines rest
    else
      match splitLines rest with
      | [] => [[c]]
      | line :: lines => (c :: line) :: lines

/-- A line of a text: the offset and the byte at which it starts, and
what it holds, its break included. -/
structure Line where
  start : Nat
  startByte : Nat
  text : Text
deriving DecidableEq, Repr

namespace Line

/-- Lines that follow one another from an offset and a byte on. -/
def consecutive (start startByte : Nat) : List Text → List Line
  | [] => []
  | text :: rest =>
    { start, startByte, text } ::
      consecutive (start + text.length) (startByte + Utf8.length text) rest

/-- The number of bytes of the line in front of an offset. -/
def column (line : Line) (offset : Nat) : Nat :=
  Utf8.length (line.text.take (offset - line.start))

end Line

/-- A line and a column. -/
structure LineCol where
  line : Nat
  col : Nat
deriving DecidableEq, Repr

/-- A range in bytes, with the line and column of both ends. -/
structure Span where
  startByte : Nat
  endByte : Nat
  startLine : Nat
  startCol : Nat
  endLine : Nat
  endCol : Nat
deriving DecidableEq, Repr

/-- The bounds in bytes, then line and column of the start and of the
end. -/
def Span.toList (s : Span) : List Nat :=
  [s.startByte, s.endByte, s.startLine, s.startCol, s.endLine, s.endCol]

/-- The lines of a text, in order. -/
structure LineIndex where
  lines : List Line
deriving DecidableEq, Repr

namespace LineIndex

/-- The lines of a text. -/
def ofText (t : Text) : LineIndex := ⟨Line.consecutive 0 0 (splitLines t)⟩

/-- The number of lines. -/
def lineCount (index : LineIndex) : Nat := index.lines.length

/-- The offsets at which the lines start. -/
def starts (index : LineIndex) : List Nat := index.lines.map (·.start)

/-- The line that holds an offset: the one before the first line that
starts after it. -/
def lineOf (index : LineIndex) (offset : Nat) : Nat :=
  index.lines.findIdx (fun line => offset < line.start) - 1

/-- The line and column of an offset. -/
def lineCol (index : LineIndex) (offset : Nat) : LineCol :=
  let line := index.lineOf offset
  ⟨line, (index.lines[line]?.map (·.column offset)).getD 0⟩

/-- The byte at a line and column: the bytes of the lines before, and
the column. -/
def byteAt (index : LineIndex) (place : LineCol) : Nat :=
  (index.lines[place.line]?.map (·.startByte)).getD 0 + place.col

/-- The byte position of an offset. -/
def byteOffset (index : LineIndex) (offset : Nat) : Nat := index.byteAt (index.lineCol offset)

/-- The span of a range. -/
def span (index : LineIndex) (range : TextRange) : Span :=
  let first := index.lineCol range.start
  let last := index.lineCol range.stop
  { startByte := index.byteAt first
    endByte := index.byteAt last
    startLine := first.line
    startCol := first.col
    endLine := last.line
    endCol := last.col }

end LineIndex

end MarkupSyntax
