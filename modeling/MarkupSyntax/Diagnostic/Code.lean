import MarkupSyntax.Text.Basic

/-!
# `MarkupSyntax.Diagnostic.Code`: what can be wrong with a source

A `Code` names one kind of defect. It fixes the defect's published
name, its default message, the hint that goes with it and the stage
that finds it.
-/

set_option autoImplicit false

namespace MarkupSyntax

/-- How grave a diagnostic is. -/
inductive Severity where
  | error
  | warning
  | info
deriving DecidableEq, Repr

/-- The name of a severity in reports. -/
def Severity.name : Severity → String
  | error => "error"
  | warning => "warning"
  | info => "info"

/-- The severity of a name. -/
def Severity.ofName? : String → Option Severity
  | "error" => some .error
  | "warning" => some .warning
  | "info" => some .info
  | _ => none

/-- The stage that a defect belongs to. -/
inductive Category where
  /-- The source cannot be cut into tokens as written. -/
  | lexical
  /-- The tokens do not fit the grammar. -/
  | grammatical
deriving DecidableEq, Repr

/-- The name of a category in reports. -/
def Category.name : Category → String
  | lexical => "lex"
  | grammatical => "syntax"

/-- A kind of defect. -/
inductive Code where
  | invalidUtf8
  | invalidCharacter
  | unterminatedString
  | unterminatedComment
  | unterminatedRawText
  | expectedToken
  | expectedExpression
  | expectedValue
  | expectedName
  | expectedType
  | expectedPattern
  | unexpectedToken
  | malformedIf
  | controlInMixedContent
  | nestingTooDeep
  | tagMismatch
  | duplicateRoot
  /-- A defect that a user of the library names. -/
  | custom (name : String)
deriving DecidableEq, Repr

namespace Code

/-- The published name. -/
def name : Code → String
  | invalidUtf8 => "LEXER_INVALID_UTF8"
  | invalidCharacter => "LEXER_INVALID_CHARACTER"
  | unterminatedString => "LEXER_UNTERMINATED_STRING"
  | unterminatedComment => "LEXER_UNTERMINATED_COMMENT"
  | unterminatedRawText => "LEXER_UNTERMINATED_RAW_TEXT"
  | expectedToken => "PARSER_EXPECTED_TOKEN"
  | expectedExpression => "PARSER_EXPECTED_EXPRESSION"
  | expectedValue => "PARSER_EXPECTED_VALUE"
  | expectedName => "PARSER_EXPECTED_NAME"
  | expectedType => "PARSER_EXPECTED_TYPE"
  | expectedPattern => "PARSER_EXPECTED_PATTERN"
  | unexpectedToken => "PARSER_UNEXPECTED_TOKEN"
  | malformedIf => "PARSER_MALFORMED_IF"
  | controlInMixedContent => "PARSER_CONTROL_IN_MIXED_CONTENT"
  | nestingTooDeep => "PARSER_NESTING_TOO_DEEP"
  | tagMismatch => "PARSER_TAG_MISMATCH"
  | duplicateRoot => "PARSER_DUPLICATE_ROOT"
  | custom name => name

/-- The codes that this library reports. -/
def all : List Code :=
  [invalidUtf8, invalidCharacter, unterminatedString, unterminatedComment,
   unterminatedRawText, expectedToken, expectedExpression, expectedValue, expectedName,
   expectedType, expectedPattern, unexpectedToken, malformedIf, controlInMixedContent,
   nestingTooDeep, tagMismatch, duplicateRoot]

/-- The code of a published name. -/
def ofName (name : String) : Code :=
  (all.find? fun code => code.name = name).getD (custom name)

/-- The message, unless the place that reports the defect has a better
one. -/
def message : Code → String
  | invalidUtf8 => "Source contains an invalid UTF-8 byte sequence."
  | invalidCharacter => "Invalid character."
  | unterminatedString => "Unterminated string literal."
  | unterminatedComment => "Unterminated block comment."
  | unterminatedRawText => "Unterminated raw text block."
  | expectedToken => "Expected token"
  | expectedExpression => "Expected an expression"
  | expectedValue => "Expected an element, literal or `\x7b expression \x7d`"
  | expectedName => "Expected a name"
  | expectedType => "Expected a type"
  | expectedPattern => "Expected a pattern (literal or qualified name)"
  | unexpectedToken => "Unexpected token"
  | malformedIf => "Malformed `if` expression"
  | controlInMixedContent => "Control flow is not allowed directly in text content"
  | nestingTooDeep => "Nesting is too deep"
  | tagMismatch => "Element closing tag does not match opening tag"
  | duplicateRoot => "Duplicate definition of 'root'"
  | custom name => name

/-- The hint on how to mend the source, if there is one. -/
def help? : Code → Option String
  | invalidUtf8 => some "Re-save the file as UTF-8."
  | unterminatedString => some "Close the string with a double quote."
  | unterminatedComment => some "Close the comment with `*/` or `-->`."
  | unterminatedRawText => some "Close the raw element with its matching closing tag."
  | malformedIf => some ("Use `if cond \x7b ... \x7d`, `if value is \x7b pattern: ... \x7d` " ++
      "or `if \x7b cond: ... \x7d`.")
  | controlInMixedContent => some "Wrap the expression in braces: `\x7b if ... \x7d`."
  | _ => none

/-- The stage that finds the defect. -/
def category? : Code → Option Category
  | invalidUtf8 | invalidCharacter | unterminatedString | unterminatedComment
  | unterminatedRawText => some .lexical
  | custom _ => none
  | _ => some .grammatical

end Code

end MarkupSyntax
