import MarkupSyntax.Proofs.Token.Tags

/-!
# `MarkupSyntax.Proofs.Token.Constants`: strings and numbers in the source

A string starts with a quote and a number with a digit. Code is the only
place for them, and tags are no different from the rest of it there, so
the context says nothing about how far they go
(`Lexeme.next_of_mem_constantTokens`).
-/

set_option autoImplicit false

namespace MarkupSyntax

open Grammar

/-- The tokens of strings and numbers. -/
def TokenKind.constantTokens : List TokenKind := [.string, .int, .hex, .real]

namespace Lexeme

open TokenKind

variable {context : LexContext} {c : CodePoint} {rest : Text}

/-- A name is no constant: the literals that are words are keywords. -/
theorem kind_name_notMem {inTag : Bool} : (name inTag c rest).kind ∉ constantTokens := by
  have hall : ∀ kind ∈ markupNameTokens, kind ∉ constantTokens := by decide
  exact hall _ kind_name

/-- An operator or a punctuation mark is no constant: strings and numbers are
literals, and no mark has the kind of a literal. -/
theorem kind_mark_notMem {inTag : Bool} : (mark inTag c rest).kind ∉ constantTokens := by
  have hall : ∀ kind ∈ constantTokens, kind ∈ literalTokens ++ markupNameTokens := by decide
  exact fun h => kind_mark (hall _ h)

/-- White space is no constant, whether it ends a line or not. -/
theorem kind_separator_notMem : (separator c rest).kind ∉ constantTokens := by
  unfold separator
  split
  · exact (show TokenKind.newline ∉ constantTokens by decide)
  · exact (show TokenKind.whitespace ∉ constantTokens by decide)

/-- A comment is no constant, whatever it starts with and whether it is closed
or not. -/
theorem kind_blockComment_notMem {opener : Nat} {terminator : String} {body : Text} :
    (blockComment opener terminator body).kind ∉ constantTokens := by
  unfold blockComment
  split <;> exact (show TokenKind.comment ∉ constantTokens by decide)

/-- The markup that ends a run of text is no constant. -/
theorem kind_textMarkup_notMem {typed : Bool} {lexeme : Lexeme}
    (h : textMarkup? typed c rest = some lexeme) : lexeme.kind ∉ constantTokens := by
  unfold textMarkup? at h
  split_ifs at h
  all_goals
    cases h
    first
      | exact kind_blockComment_notMem
      | exact (show TokenKind.atLBrace ∉ constantTokens by decide)
      | exact (show TokenKind.lessThan ∉ constantTokens by decide)
      | exact (show TokenKind.lBrace ∉ constantTokens by decide)
      | exact (show TokenKind.rBrace ∉ constantTokens by decide)

/-- No lexeme of a run of text is a constant. The run ends at markup
(`kind_textMarkup_notMem`), and what it holds is escapes, references, separators
and chunks. -/
theorem kind_text_notMem {typed : Bool} : (text typed c rest).kind ∉ constantTokens := by
  unfold text
  split
  · rename_i kind hkind
    have hall : ∀ kind ∈ [TokenKind.escapedLBrace, .escapedRBrace, .escapedAt],
        kind ∉ constantTokens := by decide
    exact hall kind (of_textEscape?_eq_some hkind).1
  split
  · exact (show TokenKind.entity ∉ constantTokens by decide)
  cases hmarkup : textMarkup? typed c rest with
  | some lexeme => exact kind_textMarkup_notMem hmarkup
  | none =>
    simp only [Option.getD_none, textRun]
    split
    · exact kind_separator_notMem
    · exact (show TokenKind.textChunk ∉ constantTokens by decide)

/-- A raw body is no constant, with a close tag or without one. -/
theorem kind_raw_notMem {tag : Option Text} : (raw tag c rest).kind ∉ constantTokens := by
  unfold raw
  split
  · exact (show TokenKind.lessThan ∉ constantTokens by decide)
  · split <;> exact (show TokenKind.rawTextChunk ∉ constantTokens by decide)

/-- In code a constant is a string or a number, as its first character
says. -/
theorem code_of_mem_constantTokens {inTag : Bool} (h : (code inTag c rest).kind ∈ constantTokens) :
    (c = '"' ∧ code inTag c rest = string rest) ∨
      (c.isDigit = true ∧ code inTag c rest = number c rest) := by
  unfold code at h ⊢
  split_ifs at h ⊢ with hwhite hline hblock hmarkup hquote hdigit hname
  · exact absurd h kind_separator_notMem
  · exact absurd h (show TokenKind.comment ∉ constantTokens by decide)
  · exact absurd h kind_blockComment_notMem
  · exact absurd h kind_blockComment_notMem
  · exact .inl ⟨hquote, rfl⟩
  · exact .inr ⟨hdigit, rfl⟩
  · exact absurd h kind_name_notMem
  · exact absurd h kind_mark_notMem

/-- So it is in every context. -/
theorem next_of_mem_constantTokens (h : (next context c rest).kind ∈ constantTokens) :
    (c = '"' ∧ next context c rest = string rest) ∨
      (c.isDigit = true ∧ next context c rest = number c rest) := by
  cases context with
  | normal => exact code_of_mem_constantTokens h
  | tag => exact code_of_mem_constantTokens h
  | text => exact absurd h kind_text_notMem
  | typedText => exact absurd h kind_text_notMem
  | raw tag => exact absurd h kind_raw_notMem

/-- A number is none of the other tokens. -/
theorem kind_number (c : CodePoint) (rest : Text) :
    (number c rest).kind ∈ [TokenKind.int, .hex, .real] := by
  simp only [number]
  split_ifs
  · exact (show TokenKind.hex ∈ _ by decide)
  · exact (show TokenKind.int ∈ _ by decide)
  · exact (show TokenKind.real ∈ _ by decide)

/-- Strings are read in one way, in whatever context. -/
theorem next_eq_string (h : (next context c rest).kind = .string) :
    c = '"' ∧ next context c rest = string rest := by
  rcases next_of_mem_constantTokens (h ▸ (by decide : TokenKind.string ∈ constantTokens)) with
    hstring | ⟨-, hnumber⟩
  · exact hstring
  · have hkind := kind_number c rest
    rw [← hnumber, h] at hkind
    exact absurd hkind (by decide)

/-- So are numbers. -/
theorem next_eq_number (h : (next context c rest).kind ∈ [TokenKind.int, .hex, .real]) :
    c.isDigit = true ∧ next context c rest = number c rest := by
  have hall : ∀ kind ∈ [TokenKind.int, .hex, .real], kind ∈ constantTokens := by decide
  rcases next_of_mem_constantTokens (hall _ h) with ⟨-, hstring⟩ | hnumber
  · rw [hstring] at h
    exact absurd h (show TokenKind.string ∉ _ by decide)
  · exact hnumber

end Lexeme

end MarkupSyntax
