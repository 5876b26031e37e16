import MarkupSyntax.Parse.Recovery

/-!
# `MarkupSyntax.Grammar.Basic`: names, literals and shared rules

The grammar is recursive through four constructs only: values, operator
expressions, elements, and the bodies of control constructs. Every
other rule gets the parsers of these four as an argument, a `Descent`,
and `MarkupSyntax.Grammar.Descent` ties the knot.
-/

set_option autoImplicit false

namespace MarkupSyntax.Grammar

open Parse

/-- A construct through which the grammar is recursive. -/
inductive Nonterminal where
  /-- A value expression, into a field. -/
  | value (field : Option String)
  /-- An expression whose operators bind at least this tightly. -/
  | operators (precedence : Nat)
  /-- An element, into a field; the current token is `<`. -/
  | element (field : Option String)
  /-- The body of a control construct, into a field. -/
  | body (domain : Domain) (field : String)
deriving DecidableEq, Repr

/-- The parsers of the recursive constructs. Each answers none, with
nothing consumed, where its construct does not start. -/
abbrev Descent := Nonterminal → Parse (Option Completed)

/-! ### Classes of tokens -/

/-- The literal that a token is. -/
def literalKind? : TokenKind → Option SyntaxKind
  | .string => some .stringLiteral
  | .int => some .intLiteral
  | .real => some .realLiteral
  | .hex => some .hexLiteral
  | .trueKeyword | .falseKeyword => some .boolLiteral
  | .nullKeyword => some .nullLiteral
  | _ => none

/-- The tokens that are literals. -/
def literalTokens : List TokenKind :=
  [.string, .int, .real, .hex, .trueKeyword, .falseKeyword, .nullKeyword]

/-- The tokens that name an element or a property: keywords too, as in
`<label for="x">`. -/
def markupNameTokens : List TokenKind := [.identifier, .markupIdentifier] ++ TokenKind.reserved

/-- The keywords that start a definition. -/
def definitionKeywords : List TokenKind :=
  [.letKeyword, .typeKeyword, .enumKeyword, .importKeyword]

/-- The tokens that can start the next arm of a match or of a condition
list. -/
def armStartTokens : List TokenKind := literalTokens ++ [.identifier, .elseKeyword, .lParen]

/-- True between an arm and its body. -/
def seesArmSeparator : Parse Bool := do
  let p ← get
  return (p.options.allowColonArms && p.kind = .colon) ||
    (p.options.allowArrowArms && p.kind = .fatArrow)

/-! ### Nesting -/

/-- Tokens that open a group. -/
def groupOpeners : List TokenKind := [.lParen, .lBrace, .lBracket, .atLBrace]

/-- Tokens that close a group. -/
def groupClosers : List TokenKind := [.rParen, .rBrace, .rBracket]

/-- One round of skipping a group; `depth` groups are open. -/
def skipGroup (depth : Nat) : Parse (Round Nat Unit) := do
  if ← sees .eof then return .done ()
  let isOpener ← seesAny groupOpeners
  let isCloser ← seesAny groupClosers
  if isCloser && depth = 0 then return .done ()
  let depth := if isOpener then depth + 1 else if isCloser then depth - 1 else depth
  bump
  if depth = 0 then return .done () else return .again depth

/-- Reports that nesting is too deep and puts one group of balanced
tokens, or one token, into an error node. -/
def nestingTooDeep (field : Option String) : Parse Completed := do
  reportHere .nestingTooDeep
  let marker ← start
  loop skipGroup 0
  let node ← marker.complete .error
  node.setField field

/-! ### Names and literals -/

/-- A literal. -/
def literal (field : Option String) : Parse (Option Completed) := do
  match literalKind? (← get).kind with
  | none => return none
  | some kind =>
    let marker ← start
    bump
    let node ← marker.complete kind
    return some (← node.setField field)

/-- `identifier ('.' identifier)*` -/
def qualifiedName (field : Option String) : Parse (Option Completed) := do
  if !(← sees .identifier) then return none
  let marker ← start
  bump
  whileTrue do
    if !(← sees .dot) then return false
    if !(← nthIs 1 .identifier) then return false
    bump
    bump
    return true
  let node ← marker.complete .qualifiedName
  return some (← node.setField field)

/-- The segments of a dotted markup name after the first. -/
def markupNameSegments : Parse Unit :=
  whileTrue do
    if !(← sees .dot) then return false
    bump .tag
    if ← seesAny markupNameTokens then
      bump .tag
      return true
    else
      reportHere .expectedName
      return false

/-- A dotted markup name, each segment read as in a tag. -/
def qualifiedMarkupName (field : Option String) : Parse (Option Completed) := do
  relex .tag
  if !(← seesAny markupNameTokens) then return none
  let marker ← start
  bump .tag
  markupNameSegments
  let node ← marker.complete .qualifiedMarkupName
  return some (← node.setField field)

end MarkupSyntax.Grammar
