import MarkupSyntax.Text.CodeSet

/-!
# `MarkupSyntax.Text.Blank`: blank characters

The white space characters of Unicode together with the information
separators U+001C..U+001F. They may stand between the parts of the tag
that closes a raw body, and around the digits of a number.

The lexer proper knows fewer: between tokens only space, tab, line feed
and carriage return are white space.
-/

set_option autoImplicit false

namespace MarkupSyntax

/-- The ranges of the blank characters. -/
def blankRanges : CodeSet :=
  [(0x9, 0xD), (0x1C, 0x20), (0x85, 0x85), (0xA0, 0xA0), (0x1680, 0x1680),
   (0x2000, 0x200A), (0x2028, 0x2029), (0x202F, 0x202F), (0x205F, 0x205F),
   (0x3000, 0x3000)]

namespace CodePoint

/-- True for a blank character. -/
def isBlank (c : CodePoint) : Bool := blankRanges.holds c.val

/-- True for a space or a tab. -/
def isSpaceOrTab (c : CodePoint) : Bool := c = ' ' || c = '\t'

/-- True for a line feed or a carriage return. -/
def isLineEnd (c : CodePoint) : Bool := c = '\n' || c = '\r'

/-- True for the four characters that separate tokens. -/
def isWhitespace (c : CodePoint) : Bool := c.isSpaceOrTab || c.isLineEnd

end CodePoint

namespace Text

/-- The text without the blanks at its two ends. -/
def trimBlanks (t : Text) : Text :=
  ((t.dropWhile (·.isBlank)).reverse.dropWhile (·.isBlank)).reverse

end Text

end MarkupSyntax
