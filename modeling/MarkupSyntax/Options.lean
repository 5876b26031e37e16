import MarkupSyntax.Diagnostic.Code

/-!
# `MarkupSyntax.Options`: what a parse accepts and reports
-/

set_option autoImplicit false

namespace MarkupSyntax

/-- A ready-made choice of options. -/
inductive Mode where
  | strict
  | permissive
deriving DecidableEq, Repr

/-- The mode of a name. -/
def Mode.ofName? : String → Option Mode
  | "strict" => some .strict
  | "permissive" => some .permissive
  | _ => none

/-- The options of a parse. -/
structure Options where
  /-- The mode that the options were chosen for; it changes nothing
  else. -/
  mode : Mode := .strict
  /-- Report closing tags that do not match. -/
  reportTagMismatch : Bool := true
  tagMismatchSeverity : Severity := .error
  /-- Report a second definition of `root`. -/
  reportDuplicateRoot : Bool := true
  /-- How many elements and expressions may stand inside one
  another. -/
  maxNestingDepth : Int := 64
  /-- Accept `=>` between an arm and its body. -/
  allowArrowArms : Bool := true
  /-- Accept `:` between an arm and its body. -/
  allowColonArms : Bool := true
deriving DecidableEq, Repr

/-- The options of a mode. The permissive one only warns of closing
tags that do not match, and lets `root` be defined twice. -/
def Options.ofMode : Mode → Options
  | .strict => { mode := .strict }
  | .permissive =>
    { mode := .permissive, tagMismatchSeverity := .warning, reportDuplicateRoot := false }

end MarkupSyntax
