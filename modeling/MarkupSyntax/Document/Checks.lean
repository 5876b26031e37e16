import MarkupSyntax.Diagnostic.Basic
import MarkupSyntax.Options
import MarkupSyntax.Tree.Located

/-!
# `MarkupSyntax.Document.Checks`: checks on a finished tree

Two rules are not part of the grammar: a closing tag repeats the name
of its opening tag, and a module defines `root` at most once. The
checks report and leave the tree alone.
-/

set_option autoImplicit false

namespace MarkupSyntax.Checks

/-! ### Closing tags -/

/-- The diagnostic of an element whose closing tag has another name. -/
def tagMismatch? (severity : Severity) (file : Text) (element : Located) :
    Option Diagnostic := do
  let name ← element.child? "name"
  let closeName ← element.child? "close_name"
  let opened := name.nameText
  let closed := closeName.nameText
  if opened = closed then none
  else
    let diagnostic := Diagnostic.ofCode .tagMismatch closeName.trimmedRange file
    some (((diagnostic.withMessage
      ("Element closing tag '" ++ closed ++ "' does not match opening tag '" ++ opened ++ "'"))
      |>.withLabel "closing tag here"
      |>.withSecondary
        [{ file, range := name.trimmedRange
           message := some ("opening tag '" ++ opened ++ "' here"), isPrimary := false }]
      |>.withNote ("Expected closing tag '</" ++ opened ++ ">'"))
      |>.withSeverity severity)

/-- The closing tags that do not match, in pre-order of the elements. -/
def tags (root : Located) (severity : Severity) (file : Text) : List Diagnostic :=
  (root.nodes.filter fun node => node.kind = .element).filterMap (tagMismatch? severity file)

/-! ### Definitions of `root` -/

/-- The name of what a module shows when it is used. -/
def rootName : Text := "root"

/-- The ranges of the names of the definitions of `root` by `let`. -/
def explicitRoots (module : Located) : List TextRange :=
  module.childNodes.filterMap fun node =>
    if node.kind = .functionDefinition || node.kind = .valueDefinition then
      (node.child? "name").bind fun name =>
        if name.nameText = rootName then some name.trimmedRange else none
    else none

/-- The range of the last element of a module; an element of a module
defines its `root`. -/
def implicitRoot? (module : Located) : Option TextRange :=
  ((module.childNodes.filter fun node => node.kind = .element).getLast?).map (·.trimmedRange)

/-- The diagnostic of a definition of `root` in `range`, with a pointer
to the first one. -/
def duplicateRoot (file : Text) (range first : TextRange) (label firstLabel note : String) :
    Diagnostic :=
  (Diagnostic.ofCode .duplicateRoot range file)
    |>.withLabel label
    |>.withSecondary [{ file, range := first, message := some firstLabel, isPrimary := false }]
    |>.withNote note

/-- The definitions of `root` that are too many: the second by `let`,
and an element beside one by `let`. -/
def roots (module : Located) (file : Text) : List Diagnostic :=
  match explicitRoots module with
  | [] => []
  | first :: rest =>
    let second := rest.head?.map fun range =>
      duplicateRoot file range first "duplicate 'root' definition"
        "first 'root' definition here" "A module can have at most one 'root' definition"
    let element := (implicitRoot? module).map fun range =>
      duplicateRoot file range first "top-level element implicitly defines 'root'"
        "explicit 'root' definition here"
        ("A module can have either a top-level element or an explicit 'root' " ++
          "definition, but not both")
    second.toList ++ element.toList

end Checks

/-- What the options ask to report of a finished tree. -/
def Located.check (root : Located) (options : Options) (file : Text) : List Diagnostic :=
  (if options.reportTagMismatch then Checks.tags root options.tagMismatchSeverity file else []) ++
  (if options.reportDuplicateRoot then
    match root.nodeOfKind? .moduleDefinition with
    | some module => Checks.roots module file
    | none => []
   else [])

end MarkupSyntax
