import MarkupSyntax.Grammar.Content

/-!
# `MarkupSyntax.Grammar.Element`: elements

An element is a tag that closes itself, or a tag, a body and a closing
tag. After a colon the name is followed by what the body is: nothing
for text, a type for typed text, `raw` for text kept as it stands. The
closing tag is kept also when its name differs.
-/

set_option autoImplicit false

namespace MarkupSyntax.Grammar

open Parse

/-- The word that makes an embedded element raw. -/
def rawModifier : Text := "raw"

/-- `</name>` -/
def closeTag : Parse Unit := do
  relex .normal
  if !(← seesCloseTag) then reportExpected .lessThan
  else
    bump .tag
    bump .tag
    if (← qualifiedMarkupName (some "close_name")).isNone then
      reportWith .expectedName "Expected a closing tag name"
    let _ ← expect .greaterThan

/-- The type of an embedded element, if it has one. -/
def textType : Parse Bool := do
  let p ← get
  if p.kind ≠ .identifier || p.currentText = rawModifier then return false
  if ← seesProperty then return false
  bump .tag (some "text_type")
  return true

/-- The modifier `raw`, if it is there. -/
def rawFlag : Parse Bool := do
  let p ← get
  if p.kind ≠ .identifier || p.currentText ≠ rawModifier then return false
  if ← seesProperty then return false
  bump .tag (some "raw") (some .rawKeyword)
  return true

/-- What follows the name of an embedded element; the current token is
the colon. -/
def embedRest (descend : Descent) (tag : Option Text) : Parse Unit := do
  bump .tag
  let isTyped ← textType
  let isRaw ← rawFlag
  let _ ← propertyList descend (some "properties") false
  let context : LexContext := if isRaw then .raw tag else if isTyped then .typedText else .text
  if ← expect .greaterThan context then
    let _ ← if isRaw then rawTextRun
      else if isTyped then embedContent descend
      else textContent descend
    closeTag

/-- What follows the name of a plain element. -/
def plainRest (descend : Descent) : Parse Unit := do
  let _ ← propertyList descend (some "properties") false
  if ← eat .slash .tag then
    let _ ← expect .greaterThan
  else if ← expect .greaterThan then
    let _ ← elementContent descend
    closeTag

/-- An element, without regard to nesting. -/
def elementNode (descend : Descent) : Parse Completed := do
  let marker ← start
  bump .tag
  let name ← qualifiedMarkupName (some "name")
  if name.isNone then reportWith .expectedName "Expected an element name after `<`"
  if ← sees .colon then
    let tag ← name.mapM Completed.text
    embedRest descend tag
  else plainRest descend
  marker.complete .element

/-- An element, into a field; one level of nesting. The current token
is `<`. -/
def element (descend : Descent) (field : Option String) : Parse Completed :=
  nested (nestingTooDeep field) do (← elementNode descend).setField field

end MarkupSyntax.Grammar
