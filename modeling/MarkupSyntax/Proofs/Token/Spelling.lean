import MarkupSyntax.Proofs.Token.Scan

/-!
# `MarkupSyntax.Proofs.Token.Spelling`: tokens with spaces between them

A `Word` is a text that is one token by itself. Where a token ends is a
matter of the characters behind it, and white space ends all tokens but
comments and open strings (`Lexeme.code_append_blank`). So words that
are written with single spaces between them are read as these words
(`lexes_spaced`).
-/

set_option autoImplicit false

namespace MarkupSyntax

namespace Lexeme

variable {c blank : CodePoint} {rest more : Text}

/-! ### White space behind a token -/

/-- White space is one of four characters. -/
theorem eq_of_isWhitespace (h : c.isWhitespace = true) :
    c = CodePoint.ofChar ' ' ∨ c = CodePoint.ofChar '\t' ∨ c = CodePoint.ofChar '\n' ∨
      c = CodePoint.ofChar '\r' := by
  simpa only [CodePoint.isWhitespace, CodePoint.isSpaceOrTab, CodePoint.isLineEnd, Bool.or_eq_true,
    decide_eq_true_eq, or_assoc] using h

/-- A pattern without the character `c` is found in front of a `c` or not at
all. -/
theorem isPrefixOf_append_cons {pattern t : Text} (h : c ∉ pattern) :
    pattern.isPrefixOf (t ++ c :: more) = pattern.isPrefixOf t := by
  induction pattern generalizing t with
  | nil => rfl
  | cons first pattern ih =>
    rw [List.mem_cons, not_or] at h
    cases t with
    | nil =>
      have hne : (first == c) = false := beq_eq_false_iff_ne.mpr (Ne.symm h.1)
      simp [List.isPrefixOf, hne]
    | cons d t => simp [List.isPrefixOf, ih h.2]

/-- A run of characters of one class ends at a character that is not of it. -/
theorem takeWhile_append_cons {f : CodePoint → Bool} (h : f c = false) :
    (rest ++ c :: more).takeWhile f = rest.takeWhile f := by
  induction rest with
  | nil => simp [h]
  | cons d rest ih => by_cases hd : f d <;> simp [hd, ih]

/-- A string that is closed stays as it is. -/
theorem stringBody_append {t : Text} (h : (stringBody t).isClosed = true) :
    stringBody (t ++ more) = stringBody t := by
  fun_induction stringBody t with
  | case1 => cases h
  | case2 rest => rw [List.cons_append, stringBody.eq_def]; rfl
  | case3 => cases h
  | case4 c rest hquote body ih =>
    rw [List.cons_append, List.cons_append, stringBody.eq_def]
    simp only [hquote, if_false, if_true, ih h, body]
  | case5 c rest hquote hescape body ih =>
    rw [List.cons_append, stringBody.eq_def]
    simp only [hquote, hescape, if_false, ih h, body]

section Blank

variable (hblank : blank.isWhitespace = true)

include hblank

/-- A pattern without white space is found in front of the blank or not at
all. -/
theorem startsWith_append_blank {pattern : String}
    (h : ∀ c ∈ Text.ofString pattern, c.isWhitespace = false) :
    startsWith pattern (rest ++ blank :: more) = startsWith pattern rest := by
  refine isPrefixOf_append_cons fun hmem => ?_
  rw [h blank hmem] at hblank
  cases hblank

/-- Digits end at a blank. -/
theorem digitCount_append_blank : digitCount (rest ++ blank :: more) = digitCount rest := by
  have hdigit : blank.isDigit = false := by
    rcases eq_of_isWhitespace hblank with rfl | rfl | rfl | rfl <;> decide
  exact congrArg List.length (takeWhile_append_cons hdigit)

/-- The hexadecimal part of a number ends at a blank. -/
theorem hexTailLength_append_blank :
    hexTailLength (rest ++ blank :: more) = hexTailLength rest := by
  have hother : (decide (blank = 'x') || decide (blank = 'X')) = false ∧
      blank.isHexDigit = false := by
    rcases eq_of_isWhitespace hblank with rfl | rfl | rfl | rfl <;> decide
  cases rest with
  | nil => simp [hexTailLength, hother.1]
  | cons d rest =>
    simp only [List.cons_append, hexTailLength]
    rw [takeWhile_append_cons hother.2]

/-- A fraction ends at a blank. -/
theorem fractionLength_append_blank :
    fractionLength (rest ++ blank :: more) = fractionLength rest := by
  have hpoint : decide (blank = '.') = false := by
    rcases eq_of_isWhitespace hblank with rfl | rfl | rfl | rfl <;> decide
  cases rest with
  | nil => simp [fractionLength, hpoint]
  | cons d rest => simp only [List.cons_append, fractionLength, digitCount_append_blank hblank]

/-- An exponent ends at a blank. -/
theorem exponentLength_append_blank :
    exponentLength (rest ++ blank :: more) = exponentLength rest := by
  have hexponent : (decide (blank = 'e') || decide (blank = 'E')) = false := by
    rcases eq_of_isWhitespace hblank with rfl | rfl | rfl | rfl <;> decide
  cases rest with
  | nil => simp [exponentLength, hexponent]
  | cons e rest =>
    simp only [List.cons_append, exponentLength]
    rw [startsWith_append_blank hblank (by decide), startsWith_append_blank hblank (by decide)]
    by_cases hsign : (startsWith "+" rest || startsWith "-" rest) = true
    · -- The sign is a character of the number.
      obtain ⟨sign, digits, rfl⟩ : ∃ sign digits, rest = sign :: digits := by
        cases rest with
        | nil => cases hsign
        | cons sign digits => exact ⟨sign, digits, rfl⟩
      simp only [hsign, if_true, List.cons_append, List.drop_succ_cons, List.drop_zero,
        digitCount_append_blank hblank, List.length_cons, Nat.add_sub_cancel_left]
    · simp only [hsign, Bool.false_eq_true, if_false, digitCount_append_blank hblank, Nat.sub_self]

/-- A number ends at a blank. -/
theorem number_append_blank : number c (rest ++ blank :: more) = number c rest := by
  have hwhole := digitCount_le rest
  have hfraction := fractionLength_le (rest.drop (digitCount rest))
  rw [List.length_drop] at hfraction
  have hdrop : ∀ n ≤ rest.length, (rest ++ blank :: more).drop n
      = rest.drop n ++ blank :: more := fun _ => List.drop_append_of_le_length
  simp only [number, hexTailLength_append_blank hblank, digitCount_append_blank hblank,
    hdrop _ hwhole, fractionLength_append_blank hblank,
    hdrop (digitCount rest + fractionLength (rest.drop (digitCount rest))) (by omega),
    exponentLength_append_blank hblank]

/-- A blank continues no name. -/
theorem continuesName_blank {inTag : Bool} : continuesName inTag blank = false := by
  rcases eq_of_isWhitespace hblank with rfl | rfl | rfl | rfl <;> cases inTag <;> decide

/-- A name or a keyword ends at a blank. -/
theorem name_append_blank {inTag : Bool} :
    name inTag c (rest ++ blank :: more) = name inTag c rest := by
  simp only [name, takeWhile_append_cons (continuesName_blank hblank)]

/-- No token of two characters ends with white space. -/
theorem mark_append_blank {inTag : Bool} :
    mark inTag c (rest ++ blank :: more) = mark inTag c rest := by
  have hpair : pair? c (rest ++ blank :: more) = pair? c rest := by
    unfold pair?
    cases rest with
    | nil =>
      rcases eq_of_isWhitespace hblank with rfl | rfl | rfl | rfl <;>
        simp [pairs, CodePoint.ofChar]
    | cons d rest => rfl
  simp only [mark, hpair]

/-- White space behind a token that is no trivia, and that has no
defect, does not change it. -/
theorem code_append_blank {inTag : Bool} (solid : (code inTag c rest).kind.isTrivia = false)
    (sound : (code inTag c rest).problem = none) :
    code inTag c (rest ++ blank :: more) = code inTag c rest := by
  unfold code at solid sound ⊢
  simp only [startsWith_append_blank hblank
      (by decide : ∀ c ∈ Text.ofString "/", c.isWhitespace = false),
    startsWith_append_blank hblank (by decide : ∀ c ∈ Text.ofString "*", c.isWhitespace = false),
    startsWith_append_blank hblank (by decide : ∀ c ∈ Text.ofString "!--", c.isWhitespace = false)]
  split at solid
  · -- White space is trivia, and so are comments.
    unfold separator at solid
    split at solid <;> cases solid
  split at solid
  · cases solid
  split at solid
  · unfold blockComment at solid
    split at solid <;> cases solid
  split at solid
  · unfold blockComment at solid
    split at solid <;> cases solid
  simp only [*, Bool.false_eq_true, if_false] at sound ⊢
  split at solid
  · rename_i hquote
    simp only [hquote, if_true, string] at sound ⊢
    have hclosed : (stringBody rest).isClosed = true := by
      by_contra hopen
      simp [hopen] at sound
    simp only [stringBody_append hclosed]
  · rename_i hquote
    simp only [hquote, if_false, number_append_blank hblank, name_append_blank hblank,
      mark_append_blank hblank]

end Blank

/-! ### Words -/

/-- The rules of code are those of a tag, too. -/
theorem next_of_code {context : LexContext} (hcontext : context = .normal ∨ context = .tag) :
    ∃ inTag, ∀ c rest, next context c rest = code inTag c rest := by
  rcases hcontext with rfl | rfl
  · exact ⟨false, fun _ _ => rfl⟩
  · exact ⟨true, fun _ _ => rfl⟩

section Alone

variable {context : LexContext} {kind : TokenKind} {text : Text}
  (hcontext : context = .normal ∨ context = .tag)

include hcontext

/-- White space ends a token that is one by itself, and so does the end
of the source. -/
theorem Splits.behind (splits : Splits context kind text []) (solid : kind.isTrivia = false)
    {rest : Text} (hrest : ∀ c ∈ rest.head?, c.isWhitespace = true) :
    Splits context kind text rest := by
  obtain ⟨inTag, hnext⟩ := next_of_code hcontext
  cases rest with
  | nil => exact splits
  | cons c more =>
    cases text with
    | nil => exact splits.elim
    | cons d tail =>
      rw [splits_cons, hnext, List.append_nil] at splits
      rw [splits_cons, hnext, code_append_blank (hrest c rfl) (splits.1 ▸ solid) splits.2.2]
      exact splits

/-- A token does not start with white space. -/
theorem Splits.exists_cons (splits : Splits context kind text []) (solid : kind.isTrivia = false) :
    ∃ c tail, text = c :: tail ∧ c.isSpaceOrTab = false := by
  obtain ⟨inTag, hnext⟩ := next_of_code hcontext
  cases text with
  | nil => exact splits.elim
  | cons c tail =>
    refine ⟨c, tail, rfl, ?_⟩
    by_contra hblank
    rw [Bool.not_eq_false] at hblank
    have hwhite : c.isWhitespace = true := by rw [CodePoint.isWhitespace, hblank, Bool.true_or]
    have hkind : (separator c (tail ++ [])).kind = kind := by
      rw [← (splits_cons.mp splits).1, hnext]
      exact congrArg Lexeme.kind (if_pos hwhite).symm
    rw [← hkind] at solid
    unfold separator at solid
    split at solid <;> cases solid

/-- One space in front of a token is one piece of white space. -/
theorem splits_space {c : CodePoint} {tail : Text} (h : c.isSpaceOrTab = false) :
    Splits context .whitespace [CodePoint.ofChar ' '] (c :: tail) := by
  obtain ⟨inTag, hnext⟩ := next_of_code hcontext
  have hspace : next context (CodePoint.ofChar ' ') (c :: tail)
      = separator (CodePoint.ofChar ' ') (c :: tail) := hnext _ _
  have hline : (CodePoint.ofChar ' ').isLineEnd = false := by decide
  rw [splits_cons, List.nil_append, hspace, separator, hline]
  simp [h]

end Alone

/-- The text is one token of this kind by itself, no trivia, and nothing
is wrong with it. -/
structure Spells (kind : TokenKind) (text : Text) : Prop where
  splits : Splits .normal kind text []
  solid : kind.isTrivia = false

variable {kind : TokenKind} {text : Text}

/-- White space ends a word, and so does the end of the source. -/
theorem Spells.splits_behind (h : Spells kind text) {rest : Text}
    (hrest : ∀ c ∈ rest.head?, c.isWhitespace = true) : Splits .normal kind text rest :=
  h.splits.behind (.inl rfl) h.solid hrest

/-- A word does not start with white space. -/
theorem Spells.exists_cons (h : Spells kind text) :
    ∃ c tail, text = c :: tail ∧ c.isSpaceOrTab = false := h.splits.exists_cons (.inl rfl) h.solid

/-- What spells a token is not the end of the source. -/
theorem Spells.kind_ne_eof (h : Spells kind text) : kind ≠ .eof := h.splits.kind_ne_eof

end Lexeme

/-- A text that is a token of this kind. -/
structure Word (kind : TokenKind) where
  text : Text
  spells : Lexeme.Spells kind text

/-- The word as a token of code. -/
def Word.lexed {kind : TokenKind} (word : Word kind) : Lexed := ⟨.normal, kind, word.text⟩

/-- The token as it is read outside tags and text. -/
def Leaf.lexed (leaf : Leaf) : Lexed where
  context := .normal
  kind := leaf.kind.lexeme?.getD .eof
  text := leaf.text

/-- The token is a word. -/
def Leaf.IsWord (leaf : Leaf) : Prop := Lexeme.Spells leaf.lexed.kind leaf.text

/-- Texts with single spaces between them. -/
def Text.spaced (texts : List Text) : Text := [CodePoint.ofChar ' '].intercalate texts

/-- A spaced text with its first part in front. Each other part has its space in
front of it, which is how the text is read. -/
theorem Text.spaced_cons (text : Text) (rest : List Text) :
    spaced (text :: rest) = text ++ rest.flatMap (CodePoint.ofChar ' ' :: ·) := by
  induction rest generalizing text with
  | nil => simp [spaced, List.intercalate]
  | cons next rest ih =>
    have hnext := ih next
    simp only [spaced, List.intercalate, List.intersperse_cons_cons, List.flatten_cons] at hnext ⊢
    simp [hnext]

/-! ### Reading words -/

section Lexes

variable {kind : TokenKind} {tokens : List Lexed} {text rest behind : Text}

/-- A word in front of other tokens. -/
theorem Lexes.word (splits : Lexeme.Splits .normal kind text rest) (solid : kind.isTrivia = false)
    (later : Lexes rest tokens behind) :
    Lexes (text ++ rest) (⟨.normal, kind, text⟩ :: tokens) behind :=
  @Lexes.cons ⟨.normal, kind, text⟩ tokens [] _ rest behind (.token splits solid) later

/-- A word with a space in front of it. -/
theorem Lexes.spacedWord (h : Lexeme.Spells kind text)
    (splits : Lexeme.Splits .normal kind text rest) (later : Lexes rest tokens behind) :
    Lexes (CodePoint.ofChar ' ' :: (text ++ rest)) (⟨.normal, kind, text⟩ :: tokens) behind := by
  obtain ⟨c, tail, htext, hblank⟩ := h.exists_cons
  have hspace : Lexeme.Splits .normal .whitespace [CodePoint.ofChar ' '] (text ++ rest) := by
    rw [htext]
    exact Lexeme.splits_space (.inl rfl) hblank
  have hscan : Scans .normal ([CodePoint.ofChar ' '] ++ (text ++ rest)) _ kind text rest :=
    .trivia hspace rfl (.token splits h.solid)
  exact @Lexes.cons ⟨.normal, kind, text⟩ tokens _ _ rest behind hscan later

/-- A line break in front of some tokens. -/
theorem Lexes.newline {leaves : List Leaf} (hne : leaves ≠ [])
    (h : Lexes text (leaves.map Leaf.lexed) behind) :
    Lexes (CodePoint.ofChar '\n' :: text) (leaves.map Leaf.lexed) behind := by
  have hsplits : Lexeme.Splits .normal .newline [CodePoint.ofChar '\n'] text := ⟨rfl, rfl, rfl⟩
  cases leaves with
  | nil => exact absurd rfl hne
  | cons leaf leaves =>
    cases h with
    | cons first later => exact .cons (.trivia hsplits rfl first) later

end Lexes

/-- Behind a word with further words in front of white space there is
white space, too. -/
theorem isWhitespace_head?_flatMap {α : Type} {items : List α} {text : α → Text} {rest : Text}
    (hrest : ∀ c ∈ rest.head?, c.isWhitespace = true) :
    ∀ c ∈ (items.flatMap (fun item => CodePoint.ofChar ' ' :: text item) ++ rest).head?,
      c.isWhitespace = true := by
  cases items with
  | nil => exact hrest
  | cons item items =>
    rintro c ⟨⟩
    rfl

/-- Words with a space in front of each are read as these words, in front
of white space or of nothing. -/
theorem lexes_flatMap {leaves : List Leaf} (h : ∀ leaf ∈ leaves, leaf.IsWord) {rest behind : Text}
    (hrest : ∀ c ∈ rest.head?, c.isWhitespace = true) {tokens : List Lexed}
    (later : Lexes rest tokens behind) :
    Lexes (leaves.flatMap (fun leaf => CodePoint.ofChar ' ' :: leaf.text) ++ rest)
      (leaves.map Leaf.lexed ++ tokens) behind := by
  induction leaves with
  | nil => exact later
  | cons leaf leaves ih =>
    obtain ⟨hword, hwords⟩ := List.forall_mem_cons.mp h
    have hscan := Lexes.spacedWord hword (hword.splits_behind (isWhitespace_head?_flatMap hrest))
      (ih hwords)
    rwa [← List.append_assoc] at hscan

/-- So are words with single spaces between them. -/
theorem lexes_spaced_append {leaves : List Leaf} (h : ∀ leaf ∈ leaves, leaf.IsWord)
    {rest behind : Text} (hrest : ∀ c ∈ rest.head?, c.isWhitespace = true) {tokens : List Lexed}
    (later : Lexes rest tokens behind) :
    Lexes (Text.spaced (leaves.map (·.text)) ++ rest) (leaves.map Leaf.lexed ++ tokens) behind := by
  cases leaves with
  | nil => exact later
  | cons leaf leaves =>
    obtain ⟨hword, hwords⟩ := List.forall_mem_cons.mp h
    rw [List.map_cons, Text.spaced_cons, List.flatMap_map, List.append_assoc]
    exact .word (hword.splits_behind (isWhitespace_head?_flatMap hrest)) hword.solid
      (lexes_flatMap hwords hrest later)

/-- Words with single spaces between them are read as these words, up to the end
of the source. -/
theorem lexes_spaced {leaves : List Leaf} (h : ∀ leaf ∈ leaves, leaf.IsWord) :
    Lexes (Text.spaced (leaves.map (·.text))) (leaves.map Leaf.lexed) [] := by
  have hall := lexes_spaced_append h (nofun : ∀ c ∈ ([] : Text).head?, _) (.nil [])
  rwa [List.append_nil, List.append_nil] at hall

end MarkupSyntax
