import MarkupSyntax.Diagnostic.Basic
import MarkupSyntax.Text.Utf8

/-!
# `MarkupSyntax.Document.Decoding`: the text of a source file
-/

set_option autoImplicit false

namespace MarkupSyntax

/-- A decoded source. -/
structure Decoded where
  text : Text
  diagnostics : List Diagnostic := []
deriving DecidableEq, Repr

namespace Decoded

/-- A source given as text. -/
def ofText (text : Text) : Decoded := { text }

/-- A source given as bytes. Only the first byte that is no UTF-8 is
reported. -/
def ofBytes (bytes : List UInt8) (file : Text) : Decoded where
  text := Utf8.decode bytes
  diagnostics :=
    ((Utf8.firstStray? bytes).map fun offset =>
      Diagnostic.ofCode .invalidUtf8 (.ofLength offset 1) file).toList

end Decoded

end MarkupSyntax
