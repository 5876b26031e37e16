import MarkupSyntax.Token.Kind

/-!
# `MarkupSyntax.Tree.Kind`: the kinds of nodes and tokens in a tree

A `SyntaxKind` is the kind of a node or of a token. The control
constructs come in one family per domain, by what their bodies are; a
kind of theirs is a domain and a form.
-/

set_option autoImplicit false

namespace MarkupSyntax

/-- What the bodies of a control construct are. -/
inductive Domain where
  /-- One value expression. -/
  | value
  /-- A sequence of elements. -/
  | elements
  /-- Properties of a tag. -/
  | properties
deriving DecidableEq, Repr

/-- The parts that control constructs are made of. -/
inductive ControlForm where
  | ifSimple
  | ifMatch
  | matchArm
  | ifConditionList
  | conditionArm
  | forLoop
deriving DecidableEq, Repr

/-- The kind of a node or token. -/
inductive SyntaxKind where
  /-- A node that was started and not yet completed. -/
  | tombstone
  | token (kind : TokenKind)
  /-- The word `raw` where it is a modifier of an element. -/
  | rawKeyword
  | root
  | error
  | moduleDefinition
  | importStatement
  | typeDefinition
  | enumDefinition
  | enumMemberList
  | enumMember
  | valueDefinition
  | functionDefinition
  | propertyDefinition
  | typeReference
  | primitiveType
  | userDefinedType
  | element
  | propertyList
  | propertyValue
  | elementsExpression
  | mixedContent
  | textContent
  | textRun
  | embedContent
  | embedTextRun
  | embedInterpolationExpression
  | rawTextRun
  | interpolationExpression
  | binaryExpression
  | prefixUnaryExpression
  | callExpression
  | argumentList
  | memberAccessExpression
  | conditionalExpression
  | identifierExpression
  | unitLiteral
  | parenthesizedExpression
  | stringLiteral
  | intLiteral
  | realLiteral
  | hexLiteral
  | boolLiteral
  | nullLiteral
  | qualifiedName
  | qualifiedMarkupName
  | pattern
  | control (domain : Domain) (form : ControlForm)
deriving DecidableEq, Repr

namespace Domain

/-- Every domain, in the order of their numbers. -/
def all : List Domain := [value, elements, properties]

/-- The published name. -/
def name : Domain → String
  | value => "VALUE"
  | elements => "ELEMENTS"
  | properties => "PROPERTY_LIST"

/-- The first of the numbers of the domain's kinds. -/
def number : Domain → Nat
  | value => 1100
  | elements => 1110
  | properties => 1120

end Domain

namespace ControlForm

/-- Every form, in the order of their numbers. -/
def all : List ControlForm :=
  [ifSimple, ifMatch, matchArm, ifConditionList, conditionArm, forLoop]

/-- The published name. -/
def name : ControlForm → String
  | ifSimple => "IF_SIMPLE_EXPRESSION"
  | ifMatch => "IF_MATCH_EXPRESSION"
  | matchArm => "IF_MATCH_ARM"
  | ifConditionList => "IF_CONDITION_LIST_EXPRESSION"
  | conditionArm => "IF_CONDITION_ARM"
  | forLoop => "FOR_EXPRESSION"

/-- The place of the form among the kinds of its domain. -/
def number : ControlForm → Nat
  | ifSimple => 0
  | ifMatch => 1
  | matchArm => 2
  | ifConditionList => 3
  | conditionArm => 4
  | forLoop => 5

/-- True for the arms of a match or of a condition list. -/
def isArm : ControlForm → Bool
  | matchArm | conditionArm => true
  | _ => false

end ControlForm

namespace SyntaxKind

/-- Every kind that tokens do not have, in the order of their
numbers. -/
def allNodes : List SyntaxKind :=
  [root, error, moduleDefinition, importStatement, typeDefinition, enumDefinition,
   enumMemberList, enumMember, valueDefinition, functionDefinition, propertyDefinition,
   typeReference, primitiveType, userDefinedType, element, propertyList, propertyValue,
   elementsExpression, mixedContent, textContent, textRun, embedContent, embedTextRun,
   embedInterpolationExpression, rawTextRun, interpolationExpression, binaryExpression,
   prefixUnaryExpression, callExpression, argumentList, memberAccessExpression,
   conditionalExpression, identifierExpression, unitLiteral, parenthesizedExpression,
   stringLiteral, intLiteral, realLiteral, hexLiteral, boolLiteral, nullLiteral,
   qualifiedName, qualifiedMarkupName, pattern] ++
  Domain.all.flatMap fun domain => ControlForm.all.map (control domain)

/-- Every kind. -/
def all : List SyntaxKind :=
  [tombstone, rawKeyword] ++ TokenKind.all.map token ++ allNodes

/-- The published name. -/
def name : SyntaxKind → String
  | tombstone => "TOMBSTONE"
  | token kind => kind.name
  | rawKeyword => "RAW_KW"
  | root => "ROOT"
  | error => "ERROR"
  | moduleDefinition => "MODULE_DEFINITION"
  | importStatement => "IMPORT_STATEMENT"
  | typeDefinition => "TYPE_DEFINITION"
  | enumDefinition => "ENUM_DEFINITION"
  | enumMemberList => "ENUM_MEMBER_LIST"
  | enumMember => "ENUM_MEMBER"
  | valueDefinition => "VALUE_DEFINITION"
  | functionDefinition => "FUNCTION_DEFINITION"
  | propertyDefinition => "PROPERTY_DEFINITION"
  | typeReference => "TYPE"
  | primitiveType => "PRIMITIVE_TYPE"
  | userDefinedType => "USER_DEFINED_TYPE"
  | element => "ELEMENT"
  | propertyList => "PROPERTY_LIST"
  | propertyValue => "PROPERTY_VALUE"
  | elementsExpression => "ELEMENTS_EXPRESSION"
  | mixedContent => "MIXED_CONTENT"
  | textContent => "TEXT_CONTENT"
  | textRun => "TEXT_RUN"
  | embedContent => "EMBED_CONTENT"
  | embedTextRun => "EMBED_TEXT_RUN"
  | embedInterpolationExpression => "EMBED_INTERPOLATION_EXPRESSION"
  | rawTextRun => "RAW_TEXT_RUN"
  | interpolationExpression => "INTERPOLATION_EXPRESSION"
  | binaryExpression => "BINARY_EXPRESSION"
  | prefixUnaryExpression => "PREFIX_UNARY_EXPRESSION"
  | callExpression => "CALL_EXPRESSION"
  | argumentList => "ARGUMENT_LIST"
  | memberAccessExpression => "MEMBER_ACCESS_EXPRESSION"
  | conditionalExpression => "CONDITIONAL_EXPRESSION"
  | identifierExpression => "IDENTIFIER_EXPRESSION"
  | unitLiteral => "UNIT_LITERAL"
  | parenthesizedExpression => "PARENTHESIZED_EXPRESSION"
  | stringLiteral => "STRING_LITERAL"
  | intLiteral => "INT_LITERAL"
  | realLiteral => "REAL_LITERAL"
  | hexLiteral => "HEX_LITERAL"
  | boolLiteral => "BOOL_LITERAL"
  | nullLiteral => "NULL_LITERAL"
  | qualifiedName => "QUALIFIED_NAME"
  | qualifiedMarkupName => "QUALIFIED_MARKUP_NAME"
  | pattern => "PATTERN"
  | control domain form => domain.name ++ "_" ++ form.name

/-- The published number. A token has the same number in a tree as in
the lexer; the kinds of nodes start at 1000. -/
def number : SyntaxKind → Nat
  | tombstone => 0
  | token kind => kind.number
  | rawKeyword => 42
  | root => 1000
  | error => 1001
  | moduleDefinition => 1010
  | importStatement => 1011
  | typeDefinition => 1012
  | enumDefinition => 1013
  | enumMemberList => 1014
  | enumMember => 1015
  | valueDefinition => 1016
  | functionDefinition => 1017
  | propertyDefinition => 1018
  | typeReference => 1019
  | primitiveType => 1020
  | userDefinedType => 1021
  | element => 1030
  | propertyList => 1031
  | propertyValue => 1032
  | elementsExpression => 1033
  | mixedContent => 1034
  | textContent => 1035
  | textRun => 1036
  | embedContent => 1037
  | embedTextRun => 1038
  | embedInterpolationExpression => 1039
  | rawTextRun => 1040
  | interpolationExpression => 1041
  | binaryExpression => 1050
  | prefixUnaryExpression => 1051
  | callExpression => 1052
  | argumentList => 1053
  | memberAccessExpression => 1054
  | conditionalExpression => 1055
  | identifierExpression => 1056
  | unitLiteral => 1057
  | parenthesizedExpression => 1058
  | stringLiteral => 1060
  | intLiteral => 1061
  | realLiteral => 1062
  | hexLiteral => 1063
  | boolLiteral => 1064
  | nullLiteral => 1065
  | qualifiedName => 1070
  | qualifiedMarkupName => 1071
  | pattern => 1072
  | control domain form => domain.number + form.number

/-- The kind of a published name. -/
def ofName? (name : String) : Option SyntaxKind := all.find? fun kind => kind.name = name

/-- True for the tokens that separate others. -/
def isTrivia : SyntaxKind → Bool
  | token kind => kind.isTrivia
  | _ => false

/-- True for the kinds of tokens. -/
def isToken : SyntaxKind → Bool
  | token _ | rawKeyword => true
  | _ => false

/-- True for the kinds of nodes. -/
def isNode : SyntaxKind → Bool
  | tombstone | token _ | rawKeyword => false
  | _ => true

/-- True for the literals. -/
def isLiteral : SyntaxKind → Bool
  | stringLiteral | intLiteral | realLiteral | hexLiteral | boolLiteral | nullLiteral => true
  | _ => false

/-- True for the control constructs and their arms. -/
def isControl : SyntaxKind → Bool
  | control _ _ => true
  | _ => false

/-- True for the arms of control constructs. -/
def isArm : SyntaxKind → Bool
  | control _ form => form.isArm
  | _ => false

end SyntaxKind

end MarkupSyntax
