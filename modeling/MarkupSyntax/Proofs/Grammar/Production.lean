import MarkupSyntax.Proofs.Tree.Sprout

/-!
# `MarkupSyntax.Proofs.Grammar.Production`: what the children of a node are

`production` is the grammar of finished trees. For each kind of node it
is a language over the roles of the children, written as a regular
expression: `mark` is a token in no field, `token` a token in a field,
`part` a part of given kinds, `into` a part of any kind in a field.

Error nodes have no production, so a tree that obeys `production` has
none of them. Nodes that only group what they find, such as modules,
lists and text, may have any children.
-/

set_option autoImplicit false

namespace MarkupSyntax.Grammar

open scoped Computability

/-- One part in a field, of one of these kinds. -/
def part (field : Option String) (kinds : Set SyntaxKind) : Language Role :=
  {word | ∃ kind ∈ kinds, word = [(field, kind)]}

/-- One node of a kind, in a field. -/
def node (field : Option String) (kind : SyntaxKind) : Language Role := part field {kind}

/-- One part of whatever kind, in a field. -/
def into (field : String) : Language Role := part (some field) Set.univ

/-- One token of a kind, in a field. -/
def token (field : Option String) (kind : TokenKind) : Language Role :=
  part field {SyntaxKind.token kind}

/-- One token of a kind, in no field. -/
def mark (kind : TokenKind) : Language Role := token none kind

/-- Tokens in no field. -/
def marks : Language Role := (part none (Set.range SyntaxKind.token))∗

/-- A token in front of such tokens is one more of them. -/
theorem mark_mul_marks (kind : TokenKind) : mark kind * marks ≤ marks := by
  refine le_trans (mul_le_mul' ?_ (le_refl _)) mul_kstar_le_kstar
  intro word hpost
  obtain ⟨other, hother, rfl⟩ := hpost
  exact ⟨other, ⟨kind, hother.symm⟩, rfl⟩

/-- A mark is one of any marks. -/
theorem mark_le_marks (kind : TokenKind) : mark kind ≤ marks :=
  le_trans (le_mul_of_one_le_right' one_le_kstar) (mark_mul_marks kind)

/-- Marks with one more are marks. -/
theorem marks_mul_mark (kind : TokenKind) : marks * mark kind ≤ marks :=
  le_trans (mul_le_mul' (le_refl _) (mark_le_marks kind)) (kstar_mul_kstar _).le

/-- A part that may be absent. -/
def optional (word : Language Role) : Language Role := 1 + word

/-- The body of a control construct. Only properties may be absent. -/
def bodyPart : Domain → String → Language Role
  | .properties, field => optional (into field)
  | _, field => into field

/-- A body in braces. -/
def bracedPart (domain : Domain) (field : String) : Language Role :=
  mark .lBrace * bodyPart domain field * mark .rBrace

/-- A separator and the body of an arm. -/
def tailPart (domain : Domain) (field : String) : Language Role :=
  (mark .colon + mark .fatArrow) * bodyPart domain field

/-- Arms: at least one, or one after `else`. -/
def armParts (domain : Domain) (form : ControlForm) : Language Role :=
  (node none (.control domain form))∗ *
    (node none (.control domain form) + mark .elseKeyword * tailPart domain "else")

/-- A type after a colon, if there is one. -/
def annotationPart (field : String) : Language Role :=
  optional (mark .colon * node (some field) .typeReference)

/-- The closing tag. -/
def closePart : Language Role :=
  marks * node (some "close_name") .qualifiedMarkupName * mark .greaterThan

/-- What an element has after its opening tag. -/
def contentPart : Language Role := mark .greaterThan * into "content" * closePart

/-- What a plain element has after its name. -/
def plainPart : Language Role :=
  optional (node (some "properties") .propertyList) *
    (mark .slash * mark .greaterThan + contentPart)

/-- What an embedded element has after its name. -/
def embedPart : Language Role :=
  mark .colon * optional (token (some "text_type") .identifier) *
    optional (node (some "raw") .rawKeyword) *
    optional (node (some "properties") .propertyList) * contentPart

/-- The parameters of a function, with marks around them. -/
def parameterParts : Language Role :=
  (marks * node (some "parameter") .propertyDefinition)∗ * marks

/-- What a function has between `let` and its type. -/
def headPart : Language Role :=
  (mark .lessThan * node (some "name") .qualifiedMarkupName + token (some "name") .identifier) *
    parameterParts

/-- What is optional may be missing. -/
theorem optional_one (word : Language Role) : 1 ≤ optional word := le_self_add

/-- What is optional may be there. -/
theorem optional_word (word : Language Role) : word ≤ optional word := le_add_self

/-- The children of a node of each kind. -/
def production : SyntaxKind → Language Role
  | .error => 0
  | .importStatement => mark .importKeyword * node (some "name") .qualifiedName
  | .typeDefinition =>
    mark .typeKeyword * token (some "name") .identifier * mark .equal *
      node (some "type") .typeReference
  | .enumDefinition =>
    mark .enumKeyword * token (some "name") .identifier * mark .equal *
      node (some "members") .enumMemberList
  | .enumMemberList =>
    optional (mark .pipe) * node none .enumMember * (mark .pipe * node none .enumMember)∗
  | .enumMember => token (some "name") .identifier
  | .valueDefinition =>
    mark .letKeyword * token (some "name") .identifier * annotationPart "type" * mark .equal *
      into "value"
  | .functionDefinition =>
    mark .letKeyword * headPart * annotationPart "return_type" * mark .equal * into "body"
  | .typeReference =>
    (node none .primitiveType + node none .userDefinedType) *
      optional (token (some "nullable") .question + mark .lBracket * mark .rBracket)
  | .primitiveType => mark .identifier
  | .userDefinedType => node (some "name") .qualifiedName
  | .propertyDefinition =>
    part (some "name") (Set.range SyntaxKind.token) * mark .colon *
      node (some "type") .typeReference * optional (mark .equal * into "default")
  | .element =>
    mark .lessThan * node (some "name") .qualifiedMarkupName * (plainPart + embedPart)
  | .propertyValue =>
    node (some "name") .qualifiedMarkupName * mark .equal * into "value"
  | .interpolationExpression => mark .lBrace * into "value" * mark .rBrace
  | .embedInterpolationExpression => mark .atLBrace * into "value" * mark .rBrace
  | .binaryExpression =>
    into "left" * part (some "operator") (Set.range SyntaxKind.token) * into "right"
  | .prefixUnaryExpression => token (some "operator") .minus * into "operand"
  | .conditionalExpression =>
    into "condition" * mark .question * into "consequent" * mark .colon * into "alternative"
  | .memberAccessExpression => into "target" * mark .dot * token (some "member") .identifier
  | .callExpression => into "callee" * node (some "arguments") .argumentList
  | .argumentList =>
    mark .lParen * optional (into "argument" * (mark .comma * into "argument")∗) * mark .rParen
  | .parenthesizedExpression => mark .lParen * into "expression" * mark .rParen
  | .control domain .ifSimple =>
    mark .ifKeyword * into "condition" * bracedPart domain "then" *
      optional (mark .elseKeyword * bracedPart domain "else")
  | .control domain .ifMatch =>
    mark .ifKeyword * optional (into "scrutinee") * mark .isKeyword * mark .lBrace *
      armParts domain .matchArm * mark .rBrace
  | .control domain .matchArm =>
    node (some "pattern") .pattern * (mark .comma * node (some "pattern") .pattern)∗ *
      tailPart domain "body"
  | .control domain .ifConditionList =>
    mark .ifKeyword * optional (into "scrutinee") * mark .lBrace *
      armParts domain .conditionArm * mark .rBrace
  | .control domain .conditionArm => into "condition" * tailPart domain "body"
  | .control domain .forLoop =>
    mark .forKeyword * token (some "item") .identifier *
      optional (mark .comma * token (some "index") .identifier) * mark .inKeyword *
      into "iterable" * bracedPart domain "body"
  | _ => ⊤

end MarkupSyntax.Grammar
