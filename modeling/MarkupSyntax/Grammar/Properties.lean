import MarkupSyntax.Grammar.Operators

/-!
# `MarkupSyntax.Grammar.Properties`: the properties of a tag

A property is a dotted name, `=` and a value. Keywords are names here,
so a property is recognised by its name's being followed by `=` with no
trivia between the parts of the name. Control constructs may stand
among the properties.
-/

set_option autoImplicit false

namespace MarkupSyntax.Grammar

open Parse

/-! ### Values of properties and definitions -/

/-- `{ value }`; the current token is `{`, or `@{` in typed text. The
token after the closing brace is read in `after`. -/
def interpolationAs (descend : Descent) (kind : SyntaxKind) (after : LexContext) :
    Parse Completed := do
  let marker ← start
  bump
  let _ ← expectValue descend "value"
  let _ ← expect .rBrace after
  marker.complete kind

/-- `{ value }`, into a field. -/
def interpolation (descend : Descent) (field : Option String) : Parse Completed := do
  (← interpolationAs descend .interpolationExpression .normal).setField field

/-- The value of a property or definition: an element, a value in
braces or a literal. -/
def rightSide (descend : Descent) (field : Option String) : Parse (Option Completed) := do
  relex .normal
  match (← get).kind with
  | .lessThan => descend (.element field)
  | .lBrace => return some (← interpolation descend field)
  | _ =>
    match ← literal field with
    | some node => return some node
    | none => return some (← missing field .expectedValue)

/-! ### Properties -/

/-- The tokens that a dotted name can be continued by, when its
segments are read outside a tag. -/
def nameContinuation : List TokenKind := markupNameTokens ++ [.dot, .minus]

/-- One round of looking for the `=` after a name, `n` tokens ahead. -/
def propertyNameRound (n : Nat) : Parse (Round Nat Bool) := do
  let kind ← nthKind n
  if kind = .equal then return .done true
  if !nameContinuation.contains kind then return .done false
  if ← nthAfterTrivia n then return .done false
  return .again (n + 1)

/-- True at a property: a name with no trivia inside, and `=`. -/
def seesProperty : Parse Bool := do
  if ← seesAny markupNameTokens then loop propertyNameRound 1 else return false

/-- True where a property or a control construct among properties
starts. -/
def seesPropertyItem : Parse Bool := do
  if ← seesProperty then return true
  seesAny [.ifKeyword, .forKeyword]

/-- `name=value` -/
def property (descend : Descent) : Parse Completed := do
  let marker ← start
  let _ ← qualifiedMarkupName (some "name")
  let _ ← expect .equal
  let _ ← rightSide descend (some "value")
  marker.complete .propertyValue

/-- A property or a control construct among properties. -/
def propertyItem (descend : Descent) : Parse (Option Completed) := do
  if ← seesProperty then return some (← property descend)
  match (← get).kind with
  | .ifKeyword => return some (← ifExpression descend .properties)
  | .forKeyword => return some (← forExpression descend .properties)
  | _ => return none

/-- A wrong token in a tag is skipped up to the end of the tag or the
next property, so that later properties survive. -/
def propertyRecovery : Recovery where
  stops := [.greaterThan, .slash, .rBrace]
  resumes := seesPropertyItem

/-- One or more properties, into a field. In an arm the list leaves the
start of the next arm alone. -/
def propertyList (descend : Descent) (field : Option String) (inArm : Bool) :
    Parse (Option Completed) := do
  relex .tag
  if !(← seesPropertyItem) then return none
  let node ← ItemList.parse
    { nodeKind := .propertyList
      context := .tag
      ends := seesAny [.greaterThan, .slash, .eof, .rBrace]
      item := propertyItem descend
      recovery := propertyRecovery
      yields := if inArm then seesAny armStartTokens else pure false }
  return some (← node.setField field)

end MarkupSyntax.Grammar
