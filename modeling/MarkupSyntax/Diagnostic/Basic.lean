import MarkupSyntax.Diagnostic.Code
import MarkupSyntax.Text.Range

/-!
# `MarkupSyntax.Diagnostic.Basic`: diagnostics

A diagnostic says what is wrong and where. Its first label is the
primary one and repeats its range; further labels point at related
places.
-/

set_option autoImplicit false

namespace MarkupSyntax

/-- A labelled place in a source file. -/
structure Label where
  file : Text
  range : TextRange
  message : Option Text := none
  isPrimary : Bool := true
deriving DecidableEq, Repr

/-- One defect of a source. -/
structure Diagnostic where
  code : Code
  message : Text
  range : TextRange
  severity : Severity := .error
  labels : List Label := []
  help : Option String := none
  note : Option Text := none
  category : Option Category := none
deriving DecidableEq, Repr

namespace Diagnostic

/-- The diagnostic of a code at a place, with the code's own message,
hint and category. -/
def ofCode (code : Code) (range : TextRange) (file : Text) : Diagnostic where
  code := code
  message := code.message
  range := range
  labels := [{ file, range }]
  help := code.help?
  category := code.category?

/-- The diagnostic with another message. -/
def withMessage (d : Diagnostic) (message : Text) : Diagnostic := { d with message }

/-- The diagnostic with a text on its first label. -/
def withLabel (d : Diagnostic) (message : Text) : Diagnostic :=
  { d with labels := d.labels.modifyHead fun label => { label with message := some message } }

/-- The diagnostic with further labels. -/
def withSecondary (d : Diagnostic) (labels : List Label) : Diagnostic :=
  { d with labels := d.labels ++ labels }

/-- The diagnostic with a note. -/
def withNote (d : Diagnostic) (note : Text) : Diagnostic := { d with note := some note }

/-- The diagnostic with another severity. -/
def withSeverity (d : Diagnostic) (severity : Severity) : Diagnostic := { d with severity }

/-- The first primary label. -/
def primaryLabel? (d : Diagnostic) : Option Label := d.labels.find? (·.isPrimary)

/-- True for a defect found while cutting the source into tokens. -/
def isLexical (d : Diagnostic) : Bool := d.category = some .lexical

/-- True for a defect of the grammar. -/
def isGrammatical (d : Diagnostic) : Bool := d.category = some .grammatical

/-- Puts a diagnostic into a list ordered by start, before those that
start where it does. -/
def insert (d : Diagnostic) : List Diagnostic → List Diagnostic
  | [] => [d]
  | e :: rest =>
    if d.range.start ≤ e.range.start then d :: e :: rest else e :: insert d rest

/-- The diagnostics ordered by start; those that start at one offset
keep their order. -/
def sort (ds : List Diagnostic) : List Diagnostic := ds.foldr insert []

/-- Groups of diagnostics as one list ordered by start. -/
def merge (groups : List (List Diagnostic)) : List Diagnostic := sort groups.flatten

/-- True when one of the diagnostics is an error. -/
def hasErrors (ds : List Diagnostic) : Bool := ds.any fun d => d.severity = .error

end Diagnostic

end MarkupSyntax
