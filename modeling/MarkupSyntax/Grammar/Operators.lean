import MarkupSyntax.Grammar.Control

/-!
# `MarkupSyntax.Grammar.Operators`: value expressions

Binary operators associate to the left and bind by the table
`binaryPrecedence?`. Below all of them binds the conditional
`condition ? consequent : alternative`, which associates to the right;
above them the unary minus, then calls and member access.

Elements and control constructs are values and never operands: after
one of them an expression is over.
-/

set_option autoImplicit false

namespace MarkupSyntax.Grammar

open Parse

/-- How tightly a binary operator binds; higher is tighter. -/
def binaryPrecedence? : TokenKind → Option Nat
  | .star | .slash => some 120
  | .plus | .minus => some 110
  | .lessThan | .greaterThan | .lessThanOrEqual | .greaterThanOrEqual => some 90
  | .equalEqual | .notEqual => some 80
  | .ampAmp => some 40
  | .pipePipe => some 30
  | _ => none

/-- How tightly the unary minus binds. -/
def unaryPrecedence : Nat := 130

/-- How tightly the conditional binds. -/
def conditionalPrecedence : Nat := 20

/-- True for the nodes that can be called or have a member taken. -/
def takesPostfix : SyntaxKind → Bool
  | .identifierExpression | .parenthesizedExpression | .unitLiteral => true
  | kind => kind.isLiteral

/-- The tokens that start a value expression. -/
def expressionStart : List TokenKind :=
  literalTokens ++ [.identifier, .lParen, .minus, .lessThan, .ifKeyword, .forKeyword]

/-- A value expression, into a field. It is one level of nesting. -/
def value (descend : Descent) (field : Option String) : Parse (Option Completed) := do
  if !(← seesAny expressionStart) then return none
  if !(← enterNesting) then return some (← nestingTooDeep field)
  match ← ensuring Parser.leaveNesting (descend (.operators 0)) with
  | none => return none
  | some node => return some (← node.setField field)

/-! ### Primary expressions -/

/-- `()` or a value in parentheses. -/
def parenthesized (descend : Descent) : Parse Completed := do
  let marker ← start
  bump
  if ← sees .rParen then
    bump
    marker.complete .unitLiteral
  else
    let _ ← expectValue descend "expression"
    let _ ← expect .rParen
    marker.complete .parenthesizedExpression

/-- An expression without operators. -/
def primary (descend : Descent) : Parse (Option Completed) := do
  if let some node ← literal none then return some node
  match (← get).kind with
  | .identifier =>
    let marker ← start
    bumpInto "name"
    return some (← marker.complete .identifierExpression)
  | .lParen => return some (← parenthesized descend)
  | .lessThan => descend (.element none)
  | .ifKeyword => return some (← ifExpression descend .value)
  | .forKeyword => return some (← forExpression descend .value)
  | _ => return none

/-! ### Calls and member access -/

/-- The arguments of a call, with their parentheses. -/
def argumentList (descend : Descent) : Parse Unit := do
  let marker ← start
  bump
  if !(← sees .rParen) then
    let _ ← expectValue descend "argument"
    whileTrue do
      if !(← sees .comma) then return false
      bump
      let _ ← expectValue descend "argument"
      return true
  let _ ← expect .rParen
  (← marker.complete .argumentList).into "arguments"

/-- One member access or call after an expression. -/
def postfixRound (descend : Descent) (node : Completed) :
    Parse (Round Completed Completed) := do
  match (← get).kind with
  | .dot =>
    node.into "target"
    let marker ← node.precede
    bump
    if ← sees .identifier then bumpInto "member" else reportHere .expectedName
    return .again (← marker.complete .memberAccessExpression)
  | .lParen =>
    node.into "callee"
    let marker ← node.precede
    argumentList descend
    return .again (← marker.complete .callExpression)
  | _ => return .done node

/-- A primary expression with the calls and member accesses after
it. -/
def postfixExpression (descend : Descent) : Parse (Option Completed) := do
  match ← primary descend with
  | none => return none
  | some node =>
    if takesPostfix (← node.kind) then return some (← loop (postfixRound descend) node)
    else return some node

/-! ### Operators -/

/-- A minus and its operand. -/
def negation (descend : Descent) : Parse Completed := do
  let marker ← start
  bumpInto "operator"
  orMissing (← descend (.operators unaryPrecedence)) "operand" .expectedExpression
  marker.complete .prefixUnaryExpression

/-- An operand of a binary operator. A minus is one level of
nesting. -/
def unary (descend : Descent) : Parse (Option Completed) := do
  if ← sees .minus then
    return some (← nested (nestingTooDeep none) (negation descend))
  else postfixExpression descend

/-- What follows the condition of a conditional. -/
def conditionalRest (descend : Descent) (condition : Completed) : Parse Completed := do
  condition.into "condition"
  let marker ← condition.precede
  bump
  let _ ← expectValue descend "consequent"
  let _ ← expect .colon
  orMissing (← descend (.operators conditionalPrecedence)) "alternative" .expectedExpression
  marker.complete .conditionalExpression

/-- What follows the left operand of a binary operator. -/
def binaryRest (descend : Descent) (left : Completed) (precedence : Nat) : Parse Completed := do
  left.into "left"
  let marker ← left.precede
  bumpInto "operator"
  orMissing (← descend (.operators (precedence + 1))) "right" .expectedExpression
  marker.complete .binaryExpression

/-- One operator that binds at least as tightly as `precedence`. -/
def operatorRound (descend : Descent) (precedence : Nat) (left : Completed) :
    Parse (Round Completed Completed) := do
  let kind := (← get).kind
  if kind = .question then
    if conditionalPrecedence < precedence then return .done left
    else return .again (← conditionalRest descend left)
  else
    match binaryPrecedence? kind with
    | none => return .done left
    | some binding =>
      if binding < precedence then return .done left
      else return .again (← binaryRest descend left binding)

/-- An expression whose operators bind at least as tightly as
`precedence`. -/
def operators (descend : Descent) (precedence : Nat) : Parse (Option Completed) := do
  match ← unary descend with
  | none => return none
  | some node =>
    let kind ← node.kind
    if kind = .element || kind.isControl then return some node
    else return some (← loop (operatorRound descend precedence) node)

end MarkupSyntax.Grammar
