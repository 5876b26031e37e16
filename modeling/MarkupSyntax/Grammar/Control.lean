import MarkupSyntax.Grammar.Basic

/-!
# `MarkupSyntax.Grammar.Control`: `if` and `for` in every domain

One set of rules serves the three domains, which differ in what a body
is and in the context in which it is read. Conditions, scrutinees and
patterns are the same everywhere.

An `if` has three forms: a condition and a body in braces; a scrutinee,
`is` and arms by pattern; and a list of conditions, each with a body.
After a condition and `{` the first and the last form look alike. They
are told apart by reading on in speculation: in a list of conditions an
arm separator follows the first expression.
-/

set_option autoImplicit false

namespace MarkupSyntax.Grammar

open Parse

/-- A value expression, into a field; an error node where none
starts. -/
def expectValue (descend : Descent) (field : Option String) : Parse Completed := do
  match ← descend (.value field) with
  | some node => return node
  | none => missing field .expectedExpression

/-! ### Bodies -/

/-- The context in which the bodies of a domain are read. -/
def bodyContext : Domain → LexContext
  | .properties => .tag
  | _ => .normal

/-- A body, into a field. Only properties may be absent. -/
def body (descend : Descent) (domain : Domain) (field : String) : Parse Unit := do
  relex (bodyContext domain)
  let parsed ← descend (.body domain field)
  if parsed.isNone && domain ≠ .properties then
    let _ ← missing (some field) .expectedExpression

/-- The brace after a body or after arms. -/
def closingBrace : Parse Unit := do
  relex .normal
  let _ ← expect .rBrace

/-- A body in braces. -/
def bracedBody (descend : Descent) (domain : Domain) (field : String) : Parse Unit := do
  if ← expect .lBrace (bodyContext domain) then
    body descend domain field
    closingBrace

/-! ### Arms -/

/-- A pattern: a literal or a qualified name. -/
def pattern : Parse (Option Completed) := do
  let marker ← start
  let parsed ← do
    match ← literal none with
    | some node => pure (some node)
    | none => qualifiedName none
  if parsed.isNone then
    marker.abandon
    return none
  let node ← marker.complete .pattern
  return some (← node.setField "pattern")

/-- The separator of an arm and the arm's body. -/
def armTail (descend : Descent) (domain : Domain) (field : String) : Parse Unit := do
  if ← seesArmSeparator then bump (bodyContext domain) else reportExpected .fatArrow
  body descend domain field

/-- An arm of a match: patterns, separated by commas, and a body. -/
def matchArm (descend : Descent) (domain : Domain) : Parse (Option Completed) := do
  let marker ← start
  if (← pattern).isNone then
    marker.abandon
    return none
  whileTrue do
    if !(← sees .comma) then return false
    bump
    if (← pattern).isNone then
      let _ ← missing (some "pattern") .expectedPattern
    return true
  armTail descend domain "body"
  return some (← marker.complete (.control domain .matchArm))

/-- An arm of a list of conditions: a condition and a body. -/
def conditionArm (descend : Descent) (domain : Domain) : Parse (Option Completed) := do
  let marker ← start
  if (← descend (.value (some "condition"))).isNone then
    marker.abandon
    return none
  armTail descend domain "body"
  return some (← marker.complete (.control domain .conditionArm))

/-- Where arms go on after a token that starts none. -/
def armRecovery : Recovery where
  stops := [.rBrace, .elseKeyword]
  stopsAtCloseTag := true

/-- What a loop over arms knows. -/
structure ArmsState where
  progress : Progress := {}
  /-- An arm was parsed. -/
  hasArm : Bool := false

/-- One round of a loop over arms; an `else` arm is the last. -/
def armsRound (descend : Descent) (domain : Domain) (arm : Parse (Option Completed))
    (state : ArmsState) : Parse (Round ArmsState Bool) := do
  relex .normal
  if ← seesAny [.eof, .rBrace] then return .done state.hasArm
  let progress ← mustProgress state.progress
  if ← sees .elseKeyword then
    bump
    armTail descend domain "else"
    return .done true
  if (← arm).isSome then return .again { progress, hasArm := true }
  if ← armRecovery.skipUnexpected then return .again { state with progress }
  else return .done state.hasArm

/-- The arms of a match or of a list of conditions, at least one. -/
def arms (descend : Descent) (domain : Domain) (arm : Parse (Option Completed)) :
    Parse Unit := do
  if !(← loop (armsRound descend domain arm) {}) then
    reportWith .malformedIf "Expected at least one arm"

/-! ### The forms of `if` -/

/-- What follows the condition of an `if` with a body, and an `else`
if there is one. -/
def simpleRest (descend : Descent) (domain : Domain) (marker : Marker) : Parse Completed := do
  bracedBody descend domain "then"
  if ← eat .elseKeyword then bracedBody descend domain "else"
  marker.complete (.control domain .ifSimple)

/-- What follows the scrutinee of an `if` with patterns; the current
token is `is`. -/
def matchRest (descend : Descent) (domain : Domain) (marker : Marker) : Parse Completed := do
  bump
  if ← expect .lBrace then
    arms descend domain (matchArm descend domain)
    closingBrace
  marker.complete (.control domain .ifMatch)

/-- A list of conditions; the current token is `{`. -/
def conditionListRest (descend : Descent) (domain : Domain) (marker : Marker) :
    Parse Completed := do
  bump
  arms descend domain (conditionArm descend domain)
  closingBrace
  marker.complete (.control domain .ifConditionList)

/-- Decides at `{` whether a list of conditions follows: when an arm
separator comes after the first expression, or after an `else`. Nothing
is consumed. -/
def speculateIfForm (descend : Descent) : Parse Outcome := do
  let checkpoint := (← get).checkpoint
  let isConditionList ← speculating do
    bump
    if ← sees .elseKeyword then
      bump
      seesArmSeparator
    else if (← descend (.value none)).isSome then seesArmSeparator
    else return false
  modify fun p => p.rewind checkpoint
  return .ifForm (if isConditionList then .conditionList else .simple)

/-- What follows `if` and something that is no expression. -/
def ifWithoutCondition (descend : Descent) (domain : Domain) (marker : Marker) :
    Parse Completed := do
  if ← sees .isKeyword then matchRest descend domain marker
  else
    reportWith .malformedIf "Expected a condition or scrutinee after `if`"
    let _ ← missing (some "condition") .expectedExpression
    if ← sees .lBrace then simpleRest descend domain marker
    else marker.complete (.control domain .ifSimple)

/-- What follows `if` and an expression. -/
def ifWithExpression (descend : Descent) (domain : Domain) (marker : Marker)
    (leading : Completed) : Parse Completed := do
  if ← sees .isKeyword then
    leading.into "scrutinee"
    matchRest descend domain marker
  else if !(← sees .lBrace) then
    leading.into "condition"
    reportWith .malformedIf
      ("Expected `\x7b` or `is` after the `if` condition, found " ++ (← get).kind.display)
    marker.complete (.control domain .ifSimple)
  else
    match ← memoized "if_form" (speculateIfForm descend) with
    | .ifForm .conditionList =>
      leading.into "scrutinee"
      conditionListRest descend domain marker
    | _ =>
      leading.into "condition"
      simpleRest descend domain marker

/-- An `if` of any form; the current token is `if`. -/
def ifExpression (descend : Descent) (domain : Domain) : Parse Completed := do
  let marker ← start
  bump
  if ← sees .lBrace then conditionListRest descend domain marker
  else match ← descend (.value none) with
    | none => ifWithoutCondition descend domain marker
    | some leading => ifWithExpression descend domain marker leading

/-! ### `for` -/

/-- A name into a field, or a report that it is missing. -/
def expectNameInto (field : String) : Parse Unit := do
  if ← sees .identifier then bumpInto field else reportHere .expectedName

/-- `for item[, index] in iterable { body }`; the current token is
`for`. -/
def forExpression (descend : Descent) (domain : Domain) : Parse Completed := do
  let marker ← start
  bump
  expectNameInto "item"
  if ← eat .comma then expectNameInto "index"
  let _ ← expect .inKeyword
  let _ ← expectValue descend "iterable"
  bracedBody descend domain "body"
  marker.complete (.control domain .forLoop)

end MarkupSyntax.Grammar
