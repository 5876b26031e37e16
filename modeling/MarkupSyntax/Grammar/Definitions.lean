import MarkupSyntax.Grammar.Element

/-!
# `MarkupSyntax.Grammar.Definitions`: modules

A module is a sequence of imports, definitions of types, enumerations,
values and functions, and elements and values in braces. What starts
none of these is skipped up to the next keyword or tag.
-/

set_option autoImplicit false

namespace MarkupSyntax.Grammar

open Parse

/-! ### Types -/

/-- The names of the built-in types. -/
def primitiveTypes : List Text :=
  ["string", "int", "long", "float", "double", "boolean", "void", "object"]

/-- The name of a type: a built-in one, or a qualified name. -/
def typeName : Parse Unit := do
  let isPrimitive ←
    if primitiveTypes.contains (← get).currentText then pure !(← nthIs 1 .dot) else pure false
  let marker ← start
  if isPrimitive then
    bump
    let _ ← marker.complete .primitiveType
  else
    let _ ← qualifiedName (some "name")
    let _ ← marker.complete .userDefinedType

/-- A type, into a field: a name, and `?` or `[]`. -/
def type (field : Option String) : Parse (Option Completed) := do
  if !(← sees .identifier) then return none
  let marker ← start
  typeName
  if ← sees .question then bumpInto "nullable"
  else if ← eat .lBracket then
    let _ ← expect .rBracket
  let node ← marker.complete .typeReference
  return some (← node.setField field)

/-- A type, into a field; an error node where none starts. -/
def expectType (field : Option String) : Parse Completed := do
  match ← type field with
  | some node => return node
  | none => missing field .expectedType

/-! ### Definitions -/

/-- `import name` -/
def importStatement : Parse Completed := do
  let marker ← start
  bump
  if (← qualifiedName (some "name")).isNone then
    reportWith .expectedName "Expected a module name after `import`"
  marker.complete .importStatement

/-- `type name = type` -/
def typeDefinition : Parse Completed := do
  let marker ← start
  bump
  expectNameInto "name"
  let _ ← expect .equal
  let _ ← expectType (some "type")
  marker.complete .typeDefinition

/-- A member of an enumeration. -/
def enumMember : Parse Unit := do
  if ← sees .identifier then
    let marker ← start
    bumpInto "name"
    let _ ← marker.complete .enumMember
  else reportWith .expectedName "Expected an enum member name"

/-- The members of an enumeration, with `|` between them and possibly
before the first. -/
def enumMemberList : Parse Unit := do
  let marker ← start
  let _ ← eat .pipe
  enumMember
  whileTrue do
    if !(← eat .pipe) then return false
    enumMember
    return true
  (← marker.complete .enumMemberList).into "members"

/-- `enum name = member | member` -/
def enumDefinition : Parse Completed := do
  let marker ← start
  bump
  expectNameInto "name"
  let _ ← expect .equal
  enumMemberList
  marker.complete .enumDefinition

/-- A type after a colon, if there is one, into a field. -/
def typeAnnotation (field : String) : Parse Unit := do
  if ← eat .colon then let _ ← expectType (some field)

/-- `let name [: type] = value` -/
def valueDefinition (descend : Descent) : Parse Completed := do
  let marker ← start
  bump
  expectNameInto "name"
  typeAnnotation "type"
  let _ ← expect .equal
  let _ ← rightSide descend (some "value")
  marker.complete .valueDefinition

/-- `name : type [= default]`; the name may have hyphens. -/
def propertyDefinition (descend : Descent) : Parse Completed := do
  let marker ← start
  relex .tag
  if ← seesAny markupNameTokens then bumpInto "name"
  else reportWith .expectedName "Expected a property name"
  let _ ← expect .colon
  let _ ← expectType (some "type")
  if ← eat .equal then let _ ← rightSide descend (some "default")
  let node ← marker.complete .propertyDefinition
  node.setField "parameter"

/-- One parameter of a component. -/
def componentParameter (descend : Descent) (progress : Progress) :
    Parse (Round Progress Unit) := do
  if !(← seesAny markupNameTokens) then return .done ()
  let progress ← mustProgress progress
  let _ ← propertyDefinition descend
  relex .tag
  return .again progress

/-- The head of a component: a tag that closes itself. -/
def componentHead (descend : Descent) : Parse Unit := do
  bump .tag
  if (← qualifiedMarkupName (some "name")).isNone then
    reportWith .expectedName "Expected a component name after `<`"
  loop (componentParameter descend) {}
  let _ ← expect .slash .tag
  let _ ← expect .greaterThan

/-- The head of a function: a name and parameters in parentheses. -/
def functionHead (descend : Descent) : Parse Unit := do
  bumpInto "name"
  bump
  if !(← sees .rParen) then
    let _ ← propertyDefinition descend
    whileTrue do
      if !(← eat .comma) then return false
      let _ ← propertyDefinition descend
      return true
  let _ ← expect .rParen

/-- `let name(parameters) [: type] = value`, or the same with the head
of a component. -/
def functionDefinition (descend : Descent) : Parse Completed := do
  let marker ← start
  bump
  if ← sees .lessThan then componentHead descend else functionHead descend
  typeAnnotation "return_type"
  let _ ← expect .equal
  let _ ← rightSide descend (some "body")
  marker.complete .functionDefinition

/-! ### Modules -/

/-- True at the head of a function, after `let`. -/
def seesFunctionHead : Parse Bool := do
  if ← nthIs 1 .lessThan then return true
  if ← nthIs 1 .identifier then nthIs 2 .lParen else return false

/-- An item of a module. -/
def moduleItem (descend : Descent) : Parse (Option Completed) := do
  match (← get).kind with
  | .importKeyword => return some (← importStatement)
  | .typeKeyword => return some (← typeDefinition)
  | .enumKeyword => return some (← enumDefinition)
  | .letKeyword =>
    if ← seesFunctionHead then return some (← functionDefinition descend)
    else return some (← valueDefinition descend)
  | .lessThan =>
    if ← nthIs 1 .slash then return none
    else descend (.element (some "element"))
  | .lBrace => return some (← interpolation descend (some "value"))
  | _ => return none

/-- A module goes on at a keyword or a tag. -/
def moduleRecovery : Recovery where
  stops := definitionKeywords ++ [.lessThan]

/-- One item of a module. A safe token that starts no item is an error
by itself. -/
def moduleRound (descend : Descent) (progress : Progress) : Parse (Round Progress Unit) := do
  if ← sees .eof then return .done ()
  let progress ← mustProgress progress
  if (← moduleItem descend).isSome then return .again progress
  if !(← moduleRecovery.skipUnexpected) then
    let marker ← start
    bump
    let _ ← marker.complete .error
  return .again progress

/-- A whole source. -/
def module (descend : Descent) : Parse Completed := do
  let marker ← start
  loop (moduleRound descend) {}
  marker.complete .moduleDefinition

end MarkupSyntax.Grammar
