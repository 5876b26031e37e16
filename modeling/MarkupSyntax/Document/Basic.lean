import MarkupSyntax.Document.Checks
import MarkupSyntax.Document.Decoding
import MarkupSyntax.Event.Assembly
import MarkupSyntax.Grammar.Definitions
import MarkupSyntax.Grammar.Descent
import MarkupSyntax.Text.Path
import MarkupSyntax.View.Basic

/-!
# `MarkupSyntax.Document.Basic`: parsing a source

A `Document` is a parsed source: its text, its tree and everything that
is wrong with it, ordered by place.
-/

set_option autoImplicit false

namespace MarkupSyntax

/-- A parsed source. -/
structure Document where
  file : Text
  options : Options
  source : Text
  tree : Tree
  diagnostics : List Diagnostic

/-- The options of a parse, given as such or by a mode, but not by
both. -/
def Options.resolve (options : Option Options) (mode : Option Mode) : Except Fault Options :=
  match options, mode with
  | some _, some _ => .error .optionsAndMode
  | some options, none => .ok options
  | none, some mode => .ok (.ofMode mode)
  | none, none => .ok {}

namespace Document

/-- The file name of a source that has none. -/
def defaultFile : Text := "<input>"

/-- A parse before the first token of a source. -/
def parser (source : Text) (options : Options) (file : Text) : Parser :=
  .ofSource (.ofLexer (.ofSource source file)) options file

/-- The parse of a whole source, or the fault that stopped it. -/
def run (parser : Parser) : Except Fault Parser :=
  match Grammar.module Grammar.descent parser with
  | .ok _ final => .ok final
  | .error fault _ => .error fault

/-- The document of a finished parse. Its diagnostics are those of
`before`, of the lexer, of the parser and of the checks on the tree. -/
def ofParser (final : Parser) (before : List Diagnostic) : Except Fault Document := do
  let (trivia, lexical, _) := final.source.finish
  let tree ← Tree.ofEvents final.text trivia final.events
  let checks := (Located.ofTree tree final.text).check final.options final.file
  return {
    file := final.file
    options := final.options
    source := final.text
    tree
    diagnostics :=
      Diagnostic.merge [before, lexical.toList, final.diagnostics.toList, checks] }

/-- Parses a decoded source. -/
def parse (decoded : Decoded) (options : Options) (file : Text) : Except Fault Document := do
  ofParser (← run (parser decoded.text options file)) decoded.diagnostics

/-- Parses the bytes of a file. The normal form of its path labels the
diagnostics. -/
def parseFile (path : Text) (bytes : List UInt8) (options : Options) : Except Fault Document :=
  let file := Path.normal path
  parse (.ofBytes bytes file) options file

/-- The root of the tree over the source. -/
def root (document : Document) : Located := .ofTree document.tree document.source

/-- The lines of the source. -/
def lines (document : Document) : LineIndex := .ofText document.source

/-- True when something is wrong with the source that is no mere
warning. -/
def hasErrors (document : Document) : Bool := Diagnostic.hasErrors document.diagnostics

end Document

end MarkupSyntax
