import MarkupSyntax.Grammar.Properties

/-!
# `MarkupSyntax.Grammar.Elements`: sequences of elements

Elements, control constructs over elements and interpolations may
follow one another without anything between them.
-/

set_option autoImplicit false

namespace MarkupSyntax.Grammar

open Parse

/-- True where an item of a sequence of elements starts. -/
def seesElementsItem : Parse Bool := do
  if ← sees .lessThan then return !(← nthIs 1 .slash)
  seesAny [.ifKeyword, .forKeyword, .lBrace]

/-- An item of a sequence of elements. -/
def elementsItem (descend : Descent) : Parse (Option Completed) := do
  relex .normal
  if !(← seesElementsItem) then return none
  match (← get).kind with
  | .ifKeyword => return some (← ifExpression descend .elements)
  | .forKeyword => return some (← forExpression descend .elements)
  | .lBrace => return some (← interpolation descend none)
  | _ => descend (.element none)

/-- A sequence of elements goes on at a closing brace or tag. -/
def elementsRecovery : Recovery where
  stops := [.rBrace]
  stopsAtCloseTag := true

/-- One or more items, into a field, up to a closing brace or tag. In
an arm the sequence leaves the start of the next arm alone. -/
def elementsExpression (descend : Descent) (field : Option String) (inArm : Bool) :
    Parse (Option Completed) := do
  relex .normal
  if !(← seesElementsItem) then return none
  let node ← ItemList.parse
    { nodeKind := .elementsExpression
      context := .normal
      ends := do if ← sees .rBrace then return true else seesCloseTag
      item := elementsItem descend
      recovery := elementsRecovery
      yields := if inArm then seesAny armStartTokens else pure false }
  return some (← node.setField field)

end MarkupSyntax.Grammar
