import Mathlib.Data.Nat.Digits.Defs
import MarkupSyntax.Proofs.Token.NumberValue
import MarkupSyntax.Proofs.Token.Spelling

/-!
# `MarkupSyntax.Proofs.Token.Literal`: literals as they are written

A `LiteralSpelling` is a literal with all that its text depends on: an
integer with its digits, zeros in front included, a string with what it
stands for. In a string, backslashes and quotes are written with a
backslash in front of them. Such a text is one token by itself
(`LiteralSpelling.spells`), and the token stands for the value that was
written. Only an integer with more than `maxDecimalDigits` digits stands
for none: it is one token like the others, but reading it fails
(`LiteralSpelling.value`).
-/

set_option autoImplicit false

namespace MarkupSyntax

/-! ### Integers -/

/-- A decimal digit as it is written. -/
def CodePoint.ofDigit (digit : Fin 10) : CodePoint := ⟨0x30 + digit, by omega⟩

namespace Text

/-- Some decimal digits as they are written. -/
def ofDigits (digits : List (Fin 10)) : Text := digits.map CodePoint.ofDigit

/-- The number of which these are the digits, the most significant one
first. -/
theorem valueOfDigits_eq (base : Nat) (digits : List Nat) :
    valueOfDigits base digits = Nat.ofDigits base digits.reverse := by
  rw [valueOfDigits, Nat.ofDigits_eq_foldr, List.foldr_reverse]
  simp only [Nat.cast_id, Nat.add_comm, Nat.mul_comm]

/-- The ten digits are digits to the lexer. -/
theorem isDigit_ofDigit : ∀ digit : Fin 10, (CodePoint.ofDigit digit).isDigit = true := by decide

/-- What is written with the ten digits is digits. -/
theorem isDigit_of_mem_ofDigits {digits : List (Fin 10)} :
    ∀ c ∈ ofDigits digits, c.isDigit = true := by
  intro c hc
  obtain ⟨digit, -, rfl⟩ := List.mem_map.mp hc
  exact isDigit_ofDigit digit

/-- One or more of the ten digits are one or more digits. -/
theorem digits_ofDigits (first : Fin 10) (others : List (Fin 10)) :
    Digits (ofDigits (first :: others)) where
  ne_nil := List.cons_ne_nil _ _
  isDigit := isDigit_of_mem_ofDigits

/-- Each of the ten digits has its value, so what is written with them is read
back. -/
theorem mapM_ofDigits (digits : List (Fin 10)) :
    (ofDigits digits).mapM CodePoint.decimalValue? = some (digits.map Fin.val) := by
  have hvalue : ∀ digit : Fin 10, (CodePoint.ofDigit digit).decimalValue? = some digit.val := by
    decide
  induction digits with
  | nil => rfl
  | cons digit digits ih =>
    rw [ofDigits, List.map_cons, List.mapM_cons, hvalue, ← ofDigits, ih]
    rfl

/-- Digits are read back as their number, if there are not too many. -/
theorem decimalInteger_ofDigits (first : Fin 10) (others : List (Fin 10)) :
    decimalInteger (ofDigits (first :: others))
      = if maxDecimalDigits < (first :: others).length
        then .error (.tooManyDigits (first :: others).length)
        else .ok ((Nat.ofDigits 10 ((first :: others).map Fin.val).reverse : Nat) : Int) := by
  have hlength : (ofDigits (first :: others)).length = (first :: others).length :=
    List.length_map _
  rw [(digits_ofDigits first others).decimalInteger_eq (mapM_ofDigits _), hlength, valueOfDigits_eq]

end Text

/-! ### Strings -/

namespace Text

/-- A character of a string as it is written. -/
def quotedChar (c : CodePoint) : Text :=
  if c = '\\' ∨ c = '"' then [CodePoint.ofChar '\\', c] else [c]

/-- What is written between the quotes of a string. -/
def quotedInside (content : Text) : Text := content.flatMap quotedChar

/-- A string as it is written. -/
def ofContent (content : Text) : Text :=
  CodePoint.ofChar '"' :: (quotedInside content ++ [CodePoint.ofChar '"'])

end Text

/-- A quoted text is one closed string. What was escaped in it is skipped, so
the quote that is found is the one at the end. -/
theorem Lexeme.stringBody_quoted (content : Text) :
    (stringBody (content.quotedInside ++ [CodePoint.ofChar '"'])).isClosed = true ∧
      (stringBody (content.quotedInside ++ [CodePoint.ofChar '"'])).length
        = content.quotedInside.length + 1 := by
  induction content with
  | nil => decide
  | cons c content ih =>
    rw [Text.quotedInside, List.flatMap_cons, ← Text.quotedInside, Text.quotedChar]
    split
    · simp [stringBody, ih, show CodePoint.ofChar '\\' ≠ CodePoint.ofChar '"' by decide]
    · rename_i hplain
      rw [not_or] at hplain
      rw [List.singleton_append, List.cons_append, stringBody.eq_def]
      simp [ih, hplain]

namespace StringLiteral

/-- A character of a string is read back. -/
theorem valueFrom_quotedChar (c : CodePoint) (rest : Text) :
    valueFrom 0 (Text.quotedChar c ++ rest) = (valueFrom 0 rest).map (c :: ·) := by
  unfold Text.quotedChar
  split
  · rename_i hescaped
    have hescape : escape? (c :: rest) = .ok (some (1, [c])) := by
      rcases hescaped with rfl | rfl <;> rfl
    simp [valueFrom, hescape]
    rfl
  · rename_i hplain
    rw [not_or] at hplain
    simp [valueFrom, hplain]
    rfl

/-- The value of a quoted text is the text: every escape is undone. The position
at which an unknown escape would be reported plays no part. -/
theorem valueFrom_quotedInside (content : Text) :
    valueFrom 0 content.quotedInside = .ok content := by
  induction content with
  | nil => rfl
  | cons c content ih =>
    rw [Text.quotedInside, List.flatMap_cons, ← Text.quotedInside, valueFrom_quotedChar, ih]
    rfl

/-- A string is read back as its content. -/
theorem value_ofContent (content : Text) : value content.ofContent = .ok content := by
  have hinside : inside content.ofContent = content.quotedInside := by
    rw [inside, Text.ofContent, ← List.cons_append, List.getLast?_concat]
    simp
  rw [value, hinside, valueFrom_quotedInside]

end StringLiteral

/-! ### Literals -/

/-- A literal and how it is written. -/
inductive LiteralSpelling where
  /-- An integer by its digits. -/
  | integer (first : Fin 10) (others : List (Fin 10))
  | string (content : Text)
  | boolean (b : Bool)
  | null
deriving DecidableEq, Repr

namespace LiteralSpelling

/-- The literal as it is written. -/
def text : LiteralSpelling → Text
  | integer first others => .ofDigits (first :: others)
  | string content => content.ofContent
  | boolean true => "true"
  | boolean false => "false"
  | null => "null"

/-- The kind of its token. -/
def token : LiteralSpelling → TokenKind
  | integer .. => .int
  | string _ => .string
  | boolean true => .trueKeyword
  | boolean false => .falseKeyword
  | null => .nullKeyword

/-- The kind of its node. -/
def kind : LiteralSpelling → SyntaxKind
  | integer .. => .intLiteral
  | string _ => .stringLiteral
  | boolean _ => .boolLiteral
  | null => .nullLiteral

/-- What it stands for. An integer with too many digits stands for
nothing, whatever its value would be. -/
def value : LiteralSpelling → Except LiteralFault LiteralValue
  | integer first others =>
    if Text.maxDecimalDigits < (first :: others).length then
      .error (.tooManyDigits (first :: others).length)
    else .ok (.integer (Nat.ofDigits 10 ((first :: others).map Fin.val).reverse : Nat))
  | string content => .ok (.text content)
  | boolean b => .ok (.boolean b)
  | null => .ok .null

/-- Digits alone are one token, an integer. -/
theorem spells_integer (first : Fin 10) (others : List (Fin 10)) :
    Lexeme.Spells .int (Text.ofDigits (first :: others)) := by
  have hcode : ∀ digit : Fin 10, ∀ rest, Lexeme.next .normal (CodePoint.ofDigit digit) rest
      = Lexeme.number (CodePoint.ofDigit digit) rest := by
    intro digit rest
    have hone : (CodePoint.ofDigit digit).isWhitespace = false ∧ CodePoint.ofDigit digit ≠ '/' ∧
        CodePoint.ofDigit digit ≠ '<' ∧ CodePoint.ofDigit digit ≠ '"' := by
      revert digit
      decide
    show Lexeme.code false _ rest = _
    simp [Lexeme.code, hone, Text.isDigit_ofDigit]
  have hhex : Lexeme.hexTailLength (Text.ofDigits others) = 0 := by
    cases others with
    | nil => rfl
    | cons digit others =>
      have hmark : CodePoint.ofDigit digit ≠ 'x' ∧ CodePoint.ofDigit digit ≠ 'X' := by
        revert digit
        decide
      simp [Text.ofDigits, Lexeme.hexTailLength, hmark]
  have hcount : Lexeme.digitCount (Text.ofDigits others) = (Text.ofDigits others).length := by
    rw [Lexeme.digitCount, List.takeWhile_eq_self_iff.mpr Text.isDigit_of_mem_ofDigits]
  refine ⟨?_, rfl⟩
  rw [Text.ofDigits, List.map_cons, ← Text.ofDigits, Lexeme.splits_cons, List.append_nil, hcode]
  simp [Lexeme.number, hhex, hcount, Lexeme.fractionLength]

/-- A quoted text alone is one token, a string. -/
theorem spells_string (content : Text) : Lexeme.Spells .string content.ofContent := by
  obtain ⟨hclosed, hlength⟩ := Lexeme.stringBody_quoted content
  refine ⟨?_, rfl⟩
  rw [Text.ofContent, Lexeme.splits_cons, List.append_nil]
  show (Lexeme.string _).kind = _ ∧ (Lexeme.string _).length = _ ∧ (Lexeme.string _).problem = _
  simp [Lexeme.string, hclosed, hlength]

/-- The text of a literal is one token. -/
theorem spells (literal : LiteralSpelling) : Lexeme.Spells literal.token literal.text :=
  match literal with
  | integer first others => spells_integer first others
  | string content => spells_string content
  | boolean true | boolean false | null => ⟨⟨rfl, rfl, rfl⟩, rfl⟩

/-- The literal as a word. -/
def word (literal : LiteralSpelling) : Word literal.token := ⟨literal.text, literal.spells⟩

end LiteralSpelling

end MarkupSyntax
