import MarkupSyntax.Text.Range
import MarkupSyntax.Token.Kind

/-!
# `MarkupSyntax.Token.Basic`: tokens, trivia and lexing contexts

The lexer has no mode of its own. Whoever asks for a token says in
which `LexContext` it is to be read, and the same characters can be
different tokens in different contexts.
-/

set_option autoImplicit false

namespace MarkupSyntax

/-- What a token is read as. -/
inductive LexContext where
  /-- Definitions and expressions. -/
  | normal
  /-- The inside of a tag: names may have hyphens, and `<`, `>` and `=`
  stand alone. -/
  | tag
  /-- Text between tags, with interpolations in braces. -/
  | text
  /-- Text of a typed element, in which braces are text and an
  interpolation starts with `@`. -/
  | typedText
  /-- A raw body, up to the closing tag of this name; with no name, up
  to any closing tag. -/
  | raw (tag : Option Text)
deriving DecidableEq, Repr

/-- The context of a published name. A raw context has none, since it
depends on a tag. -/
def LexContext.ofName? : String → Option LexContext
  | "normal" => some .normal
  | "tag" => some .tag
  | "text" => some .text
  | "embed" => some .typedText
  | _ => none

/-- What is known of a token besides its kind and range. -/
structure TokenFlags where
  /-- A line break stands before the token, or is the token. -/
  afterLineBreak : Bool := false
  /-- The token is a string with an escape. -/
  hasEscape : Bool := false
deriving DecidableEq, Repr

/-- The flags as one number. -/
def TokenFlags.toNat (flags : TokenFlags) : Nat :=
  (if flags.afterLineBreak then 1 else 0) + (if flags.hasEscape then 2 else 0)

/-- A token of a source, trivia included. -/
structure Token where
  kind : TokenKind
  range : TextRange
  flags : TokenFlags := {}
deriving DecidableEq, Repr

/-- The text of a token; the end of the source has none. -/
def Token.text (token : Token) (source : Text) : Text :=
  if token.kind = .eof then [] else source.sliceRange token.range

/-- A piece of trivia in the source. It is trailing when it belongs to
the token before it: on the same line, and not at the start of the
source. -/
structure Trivia where
  kind : TriviaKind
  range : TextRange
  isTrailing : Bool
deriving DecidableEq, Repr

/-- A piece of trivia in a tree, which keeps only its length. -/
structure TriviaPiece where
  kind : TriviaKind
  length : Nat
deriving DecidableEq, Repr

end MarkupSyntax
