import MarkupSyntax.Proofs.Token.Constants
import MarkupSyntax.Proofs.Token.Reading
import MarkupSyntax.Proofs.Token.StringEscapes

/-!
# `MarkupSyntax.Proofs.Token.StringEnd`: where strings end and what they stand for

The lexer goes through a string escape by escape, up to the first quote
that no backslash hides. What the token stands for is found in another
way: the last character of its text says whether there is a quote to
leave out, and the escapes in between are looked for once more.

`StringLiteral.Decodes` says what a text with escapes stands for, one rule
for each form of escape. `Lexer.value_next_string` says that the two ways
agree on every string token of every source, but for one case: the last
quote of a string that never ends may be hidden by a backslash, and it is
left out all the same (`Lexer.exists_hidden_quote_lost`).
-/

set_option autoImplicit false

namespace MarkupSyntax

/-! ### Where a string ends -/

namespace Lexeme

/-- What is read of a string behind its opening quote: up to the closing
quote nothing closes it, and without one it is all there is. -/
theorem take_stringBody (t : Text) :
    ∃ inner, t.take (stringBody t).length
        = inner ++ (if (stringBody t).isClosed then [CodePoint.ofChar '"'] else []) ∧
      isOpenString inner = true := by
  fun_induction stringBody t with
  | case1 => exact ⟨[], rfl, rfl⟩
  | case2 => exact ⟨[], by simp, rfl⟩
  | case3 hquote => exact ⟨['\\'], by simp [isOpenString, hquote]⟩
  | case4 d rest body hquote ih =>
    obtain ⟨inner, htake, hopen⟩ := ih
    exact ⟨'\\' :: d :: inner, by simp [body, htake], by simp [isOpenString, hquote, hopen]⟩
  | case5 c rest hquote hbackslash body ih =>
    obtain ⟨inner, htake, hopen⟩ := ih
    refine ⟨c :: inner, by simp [body, htake], ?_⟩
    cases inner <;> simp_all [isOpenString]

end Lexeme

/-! ### What the value is taken from -/

namespace StringLiteral

/-- What stands in the text of a string token: the characters up to the
first quote that no backslash hides, or up to the end where there is no
such quote. -/
inductive Encloses : (isClosed : Bool) → (text inner : Text) → Prop
  | closed {inner : Text} (before : Lexeme.isOpenString inner = true)
      (closes : Lexeme.isOpenString (inner ++ [CodePoint.ofChar '"']) = false) :
      Encloses true (CodePoint.ofChar '"' :: (inner ++ [CodePoint.ofChar '"'])) inner
  | unclosed {inner : Text} (before : Lexeme.isOpenString inner = true) :
      Encloses false (CodePoint.ofChar '"' :: inner) inner

variable {isClosed : Bool} {text inner : Text}

/-- Only the last character is looked at, and the quote in front is not
the last one. -/
theorem inside_cons : inside (CodePoint.ofChar '"' :: inner)
    = if inner.getLast? = some (CodePoint.ofChar '"') then inner.dropLast else inner := by
  cases inner with
  | nil => rfl
  | cons c inner => simp only [inside, List.length_cons, Nat.le_add_left, decide_true,
      Bool.true_and, decide_eq_true_eq, List.getLast?_cons_cons, List.drop_one, List.tail_cons]

/-- The last character says whether there is a quote to leave out, but
for a quote that a backslash hides at the end of a string without an end. -/
theorem Encloses.inside_eq (h : Encloses isClosed text inner)
    (hhidden : isClosed = true ∨ inner.getLast? ≠ some (CodePoint.ofChar '"')) :
    inside text = inner := by
  cases h with
  | closed => rw [inside_cons, if_pos List.getLast?_concat, List.dropLast_concat]
  | unclosed => rw [inside_cons, if_neg (hhidden.resolve_left Bool.false_ne_true)]

/-- That quote is left out as if it closed the string. -/
theorem Encloses.inside_of_hidden (h : Encloses false text inner)
    (hhidden : inner.getLast? = some (CodePoint.ofChar '"')) : inside text = inner.dropLast := by
  cases h
  rw [inside_cons, if_pos hhidden]

end StringLiteral

namespace Lexer

variable {L : Lexer} {context : LexContext}

/-- Reading the next token reports a string without an end. -/
def ReportsOpenString (L : Lexer) (context : LexContext) : Prop :=
  ∃ diagnostic ∈ (L.next context).diagnostics.toList.drop L.diagnostics.size,
    diagnostic.code = .unterminatedString

/-- Reading a string reports that it has no end exactly if its text, behind the
first quote, is open. The hypothesis says that the next token is a string; its
range is that of the token just read. -/
theorem reportsOpenString_iff (h : (L.next context).current.kind = .string) :
    L.ReportsOpenString context ↔
      Lexeme.isOpenString ((L.source.sliceRange (L.next context).current.range).drop 1) = true := by
  have hdrop : (L.next context).diagnostics.toList.drop L.diagnostics.size
      = ((L.next context).current.defect? L.source L.file).toList := by
    rw [diagnostics_next, ← Array.length_toList, List.drop_left]
  rw [ReportsOpenString, hdrop, Token.defect?, h, Lexeme.defect?]
  by_cases hopen : Lexeme.isOpenString
      ((L.source.sliceRange (L.next context).current.range).drop 1) = true
  · simp only [hopen, if_true, Option.map_some, Option.toList_some, List.mem_singleton,
      exists_eq_left]
    simp [Diagnostic.ofDefect, Diagnostic.ofCode]
  · simp only [hopen]
    simp

/-- A string token is a quote and what it encloses, and it is the lexer
that says whether a quote closes it. -/
theorem encloses_next_string (h : (L.next context).current.kind = .string) :
    ∃ isClosed inner, StringLiteral.Encloses isClosed
        (L.source.sliceRange (L.next context).current.range) inner ∧
      (isClosed = false ↔ L.ReportsOpenString context) := by
  obtain ⟨c, rest, hkind, htext⟩ := exists_lexeme_next (by rw [h]; exact TokenKind.noConfusion)
  obtain ⟨rfl, hnext⟩ := Lexeme.next_eq_string (hkind.symm.trans h)
  rw [hnext] at htext
  replace htext : L.source.sliceRange (L.next context).current.range
      = CodePoint.ofChar '"' :: rest.take (Lexeme.stringBody rest).length := htext
  obtain ⟨inner, htake, hopen⟩ := Lexeme.take_stringBody rest
  have hends := Lexeme.isOpenString_take_stringBody rest
  rw [reportsOpenString_iff h, htext, List.drop_one, List.tail_cons]
  refine ⟨(Lexeme.stringBody rest).isClosed, inner, ?_, by simp [hends]⟩
  cases hclosed : (Lexeme.stringBody rest).isClosed with
  | true =>
    rw [hclosed] at htake hends
    rw [htake] at hends ⊢
    exact .closed hopen hends
  | false =>
    rw [hclosed] at htake
    rw [htake, if_neg Bool.false_ne_true, List.append_nil]
    exact .unclosed hopen

/-- The value of a string token is what the characters stand for that it
encloses, if each number in its escapes is that of a code point. In a
string without an end whose last character is a quote behind a backslash,
that quote is left out. -/
theorem value_next_string (h : (L.next context).current.kind = .string) :
    ∃ isClosed inner, StringLiteral.Encloses isClosed
        (L.source.sliceRange (L.next context).current.range) inner ∧
      (isClosed = false ↔ L.ReportsOpenString context) ∧
      ((isClosed = true ∨ inner.getLast? ≠ some (CodePoint.ofChar '"')) →
        ∀ out, StringLiteral.value (L.source.sliceRange (L.next context).current.range) = .ok out ↔
          StringLiteral.Decodes inner out ∧ ¬StringLiteral.TooLarge inner) ∧
      (isClosed = false → inner.getLast? = some (CodePoint.ofChar '"') →
        ∀ out, StringLiteral.value (L.source.sliceRange (L.next context).current.range) = .ok out ↔
          StringLiteral.Decodes inner.dropLast out ∧ ¬StringLiteral.TooLarge inner.dropLast) := by
  obtain ⟨isClosed, inner, hencloses, hreports⟩ := encloses_next_string h
  refine ⟨isClosed, inner, hencloses, hreports, fun hhidden out => ?_,
    fun hunclosed hhidden out => ?_⟩
  · rw [StringLiteral.value, hencloses.inside_eq hhidden, StringLiteral.valueFrom_eq_ok_iff]
  · subst hunclosed
    rw [StringLiteral.value, hencloses.inside_of_hidden hhidden, StringLiteral.valueFrom_eq_ok_iff]

/-- A string with a quote inside, closed by its last character. -/
theorem value_next_string_closed :
    let L := ofSource (Text.ofString "\"a\\\"b\" c") []
    (L.next .tag).current.kind = .string ∧
      ∃ inner, StringLiteral.Encloses true
          (L.source.sliceRange (L.next .tag).current.range) inner ∧
        ∀ out, StringLiteral.value (L.source.sliceRange (L.next .tag).current.range) = .ok out ↔
          StringLiteral.Decodes inner out ∧ ¬StringLiteral.TooLarge inner := by
  intro L
  have hkind : (L.next .tag).current.kind = .string := by decide +kernel
  obtain ⟨isClosed, inner, hencloses, hreports, hvalue, -⟩ := value_next_string hkind
  have hclosed : isClosed = true := by
    rw [reportsOpenString_iff hkind] at hreports
    rw [← Bool.not_eq_false, hreports]
    decide +kernel
  subst hclosed
  exact ⟨hkind, inner, hencloses, hvalue (.inl rfl)⟩

/-- A quote that a backslash hides is lost at the end of a string without
an end: `"\"` is no closed string, so it stands for a quote, and it is
read as a backslash. -/
theorem exists_hidden_quote_lost :
    ∃ (L : Lexer) (context : LexContext) (inner out : Text),
      (L.next context).current.kind = .string ∧ L.ReportsOpenString context ∧
      L.source.sliceRange (L.next context).current.range = CodePoint.ofChar '"' :: inner ∧
      StringLiteral.Decodes inner out ∧ ¬StringLiteral.TooLarge inner ∧
      StringLiteral.value (L.source.sliceRange (L.next context).current.range) ≠ .ok out := by
  have hkind : ((ofSource (Text.ofString "\"\\\"") []).next .normal).current.kind = .string := by
    decide +kernel
  refine ⟨ofSource (Text.ofString "\"\\\"") [], .normal,
    [CodePoint.ofChar '\\', CodePoint.ofChar '"'], [CodePoint.ofChar '"'], hkind, ?_,
    by decide +kernel, .named (by decide) .nil, ?_, by decide +kernel⟩
  · rw [reportsOpenString_iff hkind]
    decide +kernel
  · intro hlarge
    obtain ⟨fault, hfault⟩ := hlarge.exists_valueFrom_eq_error
    cases hfault

end Lexer

end MarkupSyntax
