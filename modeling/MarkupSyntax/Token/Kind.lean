import MarkupSyntax.Text.Basic

/-!
# `MarkupSyntax.Token.Kind`: the kinds of tokens

Every token of a source has a `TokenKind`, with a published name and
number. Four kinds are trivia: they separate tokens and are kept beside
the tree's tokens instead of in them.
-/

set_option autoImplicit false

namespace MarkupSyntax

/-- The kind of a token. -/
inductive TokenKind where
  /-- The end of the source. -/
  | eof
  /-- Spaces and tabs. -/
  | whitespace
  /-- One line break. -/
  | newline
  | comment
  /-- A character that starts no token. -/
  | skipped
  | identifier
  /-- A name with a hyphen, inside a tag. -/
  | markupIdentifier
  | string
  | int
  | real
  | hex
  | importKeyword
  | typeKeyword
  | enumKeyword
  | letKeyword
  | ifKeyword
  | elseKeyword
  | isKeyword
  | forKeyword
  | inKeyword
  | trueKeyword
  | falseKeyword
  | nullKeyword
  | equal
  | equalEqual
  | notEqual
  | lessThanOrEqual
  | greaterThanOrEqual
  | lessThan
  | greaterThan
  | plus
  | minus
  | star
  | slash
  | ampAmp
  | pipePipe
  | pipe
  | question
  | fatArrow
  | colon
  | comma
  | dot
  | lBrace
  | rBrace
  | lParen
  | rParen
  | lBracket
  | rBracket
  | atLBrace
  /-- A run of text between markup. -/
  | textChunk
  /-- A character reference such as `&lt;`. -/
  | entity
  /-- An escaped opening brace in text. -/
  | escapedLBrace
  /-- An escaped closing brace in text. -/
  | escapedRBrace
  /-- An escaped `@` in typed text. -/
  | escapedAt
  /-- A raw body up to its closing tag. -/
  | rawTextChunk
deriving DecidableEq, Repr, Inhabited

/-- The kind of a piece of trivia. -/
inductive TriviaKind where
  | whitespace
  | newline
  | comment
  | skipped
deriving DecidableEq, Repr

namespace TokenKind

/-- Every kind, in the order of their numbers. -/
def all : List TokenKind :=
  [eof, whitespace, newline, comment, skipped, identifier, markupIdentifier, string, int,
   real, hex, importKeyword, typeKeyword, enumKeyword, letKeyword, ifKeyword,
   elseKeyword, isKeyword, forKeyword, inKeyword, trueKeyword, falseKeyword, nullKeyword,
   equal, equalEqual, notEqual, lessThanOrEqual, greaterThanOrEqual, lessThan,
   greaterThan, plus, minus, star, slash, ampAmp, pipePipe, pipe, question, fatArrow,
   colon, comma, dot, lBrace, rBrace, lParen, rParen, lBracket, rBracket, atLBrace,
   textChunk, entity, escapedLBrace, escapedRBrace, escapedAt, rawTextChunk]

/-- The published name. -/
def name : TokenKind → String
  | eof => "EOF"
  | whitespace => "WHITESPACE"
  | newline => "NEWLINE"
  | comment => "COMMENT"
  | skipped => "SKIPPED"
  | identifier => "IDENTIFIER"
  | markupIdentifier => "MARKUP_IDENTIFIER"
  | string => "STRING"
  | int => "INT"
  | real => "REAL"
  | hex => "HEX"
  | importKeyword => "IMPORT_KW"
  | typeKeyword => "TYPE_KW"
  | enumKeyword => "ENUM_KW"
  | letKeyword => "LET_KW"
  | ifKeyword => "IF_KW"
  | elseKeyword => "ELSE_KW"
  | isKeyword => "IS_KW"
  | forKeyword => "FOR_KW"
  | inKeyword => "IN_KW"
  | trueKeyword => "TRUE_KW"
  | falseKeyword => "FALSE_KW"
  | nullKeyword => "NULL_KW"
  | equal => "EQUAL"
  | equalEqual => "EQUAL_EQUAL"
  | notEqual => "NOT_EQUAL"
  | lessThanOrEqual => "LESS_THAN_OR_EQUAL"
  | greaterThanOrEqual => "GREATER_THAN_OR_EQUAL"
  | lessThan => "LESS_THAN"
  | greaterThan => "GREATER_THAN"
  | plus => "PLUS"
  | minus => "MINUS"
  | star => "STAR"
  | slash => "SLASH"
  | ampAmp => "AMP_AMP"
  | pipePipe => "PIPE_PIPE"
  | pipe => "PIPE"
  | question => "QUESTION"
  | fatArrow => "FAT_ARROW"
  | colon => "COLON"
  | comma => "COMMA"
  | dot => "DOT"
  | lBrace => "LBRACE"
  | rBrace => "RBRACE"
  | lParen => "LPAREN"
  | rParen => "RPAREN"
  | lBracket => "LBRACKET"
  | rBracket => "RBRACKET"
  | atLBrace => "AT_LBRACE"
  | textChunk => "TEXT_CHUNK"
  | entity => "ENTITY"
  | escapedLBrace => "ESCAPED_LBRACE"
  | escapedRBrace => "ESCAPED_RBRACE"
  | escapedAt => "ESCAPED_AT"
  | rawTextChunk => "RAW_TEXT_CHUNK"

/-- The published number. -/
def number : TokenKind → Nat
  | eof => 1
  | whitespace => 10
  | newline => 11
  | comment => 12
  | skipped => 13
  | identifier => 20
  | markupIdentifier => 21
  | string => 22
  | int => 23
  | real => 24
  | hex => 25
  | importKeyword => 30
  | typeKeyword => 31
  | enumKeyword => 32
  | letKeyword => 33
  | ifKeyword => 34
  | elseKeyword => 35
  | isKeyword => 36
  | forKeyword => 37
  | inKeyword => 38
  | trueKeyword => 39
  | falseKeyword => 40
  | nullKeyword => 41
  | equal => 50
  | equalEqual => 51
  | notEqual => 52
  | lessThanOrEqual => 53
  | greaterThanOrEqual => 54
  | lessThan => 55
  | greaterThan => 56
  | plus => 57
  | minus => 58
  | star => 59
  | slash => 60
  | ampAmp => 61
  | pipePipe => 62
  | pipe => 63
  | question => 64
  | fatArrow => 65
  | colon => 70
  | comma => 71
  | dot => 72
  | lBrace => 73
  | rBrace => 74
  | lParen => 75
  | rParen => 76
  | lBracket => 77
  | rBracket => 78
  | atLBrace => 79
  | textChunk => 90
  | entity => 91
  | escapedLBrace => 92
  | escapedRBrace => 93
  | escapedAt => 94
  | rawTextChunk => 95

/-- The kind of a published name. -/
def ofName? (name : String) : Option TokenKind := all.find? fun kind => kind.name = name

/-- The trivia that tokens of this kind are. -/
def triviaKind? : TokenKind → Option TriviaKind
  | whitespace => some .whitespace
  | newline => some .newline
  | comment => some .comment
  | skipped => some .skipped
  | _ => none

/-- True for the kinds that separate tokens. -/
def isTrivia (kind : TokenKind) : Bool := kind.triviaKind?.isSome

/-- The word of a keyword. -/
def keyword? : TokenKind → Option String
  | importKeyword => some "import"
  | typeKeyword => some "type"
  | enumKeyword => some "enum"
  | letKeyword => some "let"
  | ifKeyword => some "if"
  | elseKeyword => some "else"
  | isKeyword => some "is"
  | forKeyword => some "for"
  | inKeyword => some "in"
  | trueKeyword => some "true"
  | falseKeyword => some "false"
  | nullKeyword => some "null"
  | _ => none

/-- True for the keywords. -/
def isReserved (kind : TokenKind) : Bool := kind.keyword?.isSome

/-- The keywords. -/
def reserved : List TokenKind := all.filter isReserved

/-- The keyword that a name spells. -/
def ofKeyword? (word : Text) : Option TokenKind :=
  reserved.find? fun kind => kind.keyword?.any fun spelling => Text.ofString spelling = word

/-- The kind as messages name it. -/
def display : TokenKind → String
  | eof => "end of file"
  | identifier => "identifier"
  | markupIdentifier => "markup identifier"
  | string => "string literal"
  | int => "integer literal"
  | real => "real literal"
  | hex => "hex literal"
  | importKeyword => "`import`"
  | typeKeyword => "`type`"
  | enumKeyword => "`enum`"
  | letKeyword => "`let`"
  | ifKeyword => "`if`"
  | elseKeyword => "`else`"
  | isKeyword => "`is`"
  | forKeyword => "`for`"
  | inKeyword => "`in`"
  | trueKeyword => "`true`"
  | falseKeyword => "`false`"
  | nullKeyword => "`null`"
  | equal => "`=`"
  | equalEqual => "`==`"
  | notEqual => "`!=`"
  | lessThanOrEqual => "`<=`"
  | greaterThanOrEqual => "`>=`"
  | lessThan => "`<`"
  | greaterThan => "`>`"
  | plus => "`+`"
  | minus => "`-`"
  | star => "`*`"
  | slash => "`/`"
  | ampAmp => "`&&`"
  | pipePipe => "`||`"
  | pipe => "`|`"
  | question => "`?`"
  | fatArrow => "`=>`"
  | colon => "`:`"
  | comma => "`,`"
  | dot => "`.`"
  | lBrace => "`\x7b`"
  | rBrace => "`\x7d`"
  | lParen => "`(`"
  | rParen => "`)`"
  | lBracket => "`[`"
  | rBracket => "`]`"
  | atLBrace => "`@\x7b`"
  | textChunk => "text"
  | entity => "entity"
  | rawTextChunk => "raw text"
  | kind => kind.name

end TokenKind

namespace TriviaKind

/-- The published name. -/
def name : TriviaKind → String
  | whitespace => "WHITESPACE"
  | newline => "NEWLINE"
  | comment => "COMMENT"
  | skipped => "SKIPPED"

/-- The trivia kind of a published name. -/
def ofName? (name : String) : Option TriviaKind :=
  [whitespace, newline, comment, skipped].find? fun kind => kind.name = name

end TriviaKind

end MarkupSyntax
