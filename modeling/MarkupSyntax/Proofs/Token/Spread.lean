import MarkupSyntax.Proofs.Token.Spelling
import MarkupSyntax.Proofs.Token.Tags

/-!
# `MarkupSyntax.Proofs.Token.Spread`: tokens with a space in front of each

A text that is spread (`Leaf.spread`) has a space in front of each token.
A token that is one by itself is then read in its own context
(`Lexed.Solo`), whatever the contexts of the others are, so the same text
can be read partly as code and partly as in tags (`lexes_spread`).

Names without hyphens and literals are the same tokens in a tag as in
code (`Lexeme.Spells.splits_tag`).
-/

set_option autoImplicit false

namespace MarkupSyntax

open Grammar

/-! ### Spread texts -/

/-- The tokens with a space in front of each. -/
def Leaf.spread (leaves : List Leaf) : Text :=
  leaves.flatMap fun leaf => CodePoint.ofChar ' ' :: leaf.text

/-- The text goes on with a space. -/
def Text.Loose (text : Text) : Prop := ∃ more, text = CodePoint.ofChar ' ' :: more

namespace Leaf

/-- No tokens make an empty text. -/
@[simp] theorem spread_nil : spread [] = [] := rfl

/-- The first token, behind its space, and the others. -/
@[simp] theorem spread_cons (leaf : Leaf) (rest : List Leaf) :
    spread (leaf :: rest) = CodePoint.ofChar ' ' :: (leaf.text ++ spread rest) := rfl

/-- Two lists of tokens are spread one behind the other. -/
@[simp] theorem spread_append (leaves leaves' : List Leaf) :
    spread (leaves ++ leaves') = spread leaves ++ spread leaves' := List.flatMap_append

/-- Single spaces between some texts leave the first one without. -/
theorem spaced_map_cons (leaf : Leaf) (rest : List Leaf) :
    Text.spaced ((leaf :: rest).map (·.text)) = leaf.text ++ spread rest := by
  rw [List.map_cons, Text.spaced_cons, List.flatMap_map]
  rfl

end Leaf

namespace Text

/-- A text with a space in front is loose. -/
theorem loose_space (more : Text) : Loose (CodePoint.ofChar ' ' :: more) := ⟨more, rfl⟩

/-- Behind a spread text that something with a space follows there is one,
too, and in front of it. -/
theorem loose_spread (leaves : List Leaf) {text : Text} (h : text.Loose) :
    Loose (Leaf.spread leaves ++ text) := by
  cases leaves with
  | nil => exact h
  | cons => exact loose_space _

/-- A loose text goes on with white space, which ends any word. -/
theorem Loose.head? {text : Text} (h : text.Loose) : ∀ c ∈ text.head?, c.isWhitespace = true := by
  obtain ⟨more, rfl⟩ := h
  rintro c ⟨⟩
  rfl

end Text

/-! ### Tokens that stand alone -/

namespace Lexed

/-- The token as a leaf without trivia. -/
def word (token : Lexed) : Leaf := ⟨.token token.kind, token.text, [], []⟩

/-- The token is one by itself in code or in a tag, wherever it is read. -/
structure Solo (token : Lexed) : Prop where
  code : token.context = .normal ∨ token.context = .tag
  splits : Lexeme.Splits token.context token.kind token.text []
  solid : token.kind.isTrivia = false

variable {token : Lexed} {behind : Text}

/-- White space is all that is in front of a token of a spread text. -/
theorem scans_of_splits (hcode : token.context = .normal ∨ token.context = .tag)
    (splits : Lexeme.Splits token.context token.kind token.text behind)
    (solid : token.kind.isTrivia = false) {c : CodePoint} {tail : Text}
    (htext : token.text = c :: tail) (hblank : c.isSpaceOrTab = false) :
    Scans token.context (CodePoint.ofChar ' ' :: (token.text ++ behind))
      [(.whitespace, [CodePoint.ofChar ' '])] token.kind token.text behind := by
  have hspace : Lexeme.Splits token.context .whitespace [CodePoint.ofChar ' ']
      (token.text ++ behind) := by
    rw [htext]
    exact Lexeme.splits_space hcode hblank
  exact .trivia hspace rfl (.token splits solid)

/-- A token that stands alone is read behind its space, if the text goes on with
another one. -/
theorem Solo.scans (h : token.Solo) (hbehind : behind.Loose) :
    Scans token.context (CodePoint.ofChar ' ' :: (token.text ++ behind))
      [(.whitespace, [CodePoint.ofChar ' '])] token.kind token.text behind := by
  obtain ⟨c, tail, htext, hblank⟩ := h.splits.exists_cons h.code h.solid
  exact scans_of_splits h.code (h.splits.behind h.code h.solid hbehind.head?) h.solid htext hblank

/-- A token that stands alone is not the end of the source. -/
theorem Solo.kind_ne_eof (h : token.Solo) : token.kind ≠ .eof := h.splits.kind_ne_eof

/-- A word stands alone in code. -/
theorem solo_word {kind : TokenKind} (word : Word kind) : Solo ⟨.normal, kind, word.text⟩ :=
  ⟨.inl rfl, word.spells.splits, word.spells.solid⟩

/-- A name stands alone in a tag. -/
theorem solo_name (name : TagName) : name.lexed.Solo := ⟨.inr rfl, name.splits, name.solid⟩

end Lexed

/-- A brace that closes is one in front of everything. -/
theorem scans_rBrace {context : LexContext} (hcode : context = .normal ∨ context = .tag)
    (behind : Text) :
    Scans context (CodePoint.ofChar ' ' :: CodePoint.ofChar '\x7d' :: behind)
      [(.whitespace, [CodePoint.ofChar ' '])] .rBrace [CodePoint.ofChar '\x7d'] behind := by
  have hsplits : Lexeme.Splits context .rBrace [CodePoint.ofChar '\x7d'] behind := by
    rcases hcode with rfl | rfl <;> exact ⟨rfl, rfl, rfl⟩
  exact @Lexed.scans_of_splits ⟨context, .rBrace, [CodePoint.ofChar '\x7d']⟩ behind hcode hsplits rfl
    _ _ rfl rfl

/-- A closing brace that stands alone is read whatever is behind it; the text
need not go on with a space. -/
theorem Lexed.Solo.scans_rBrace {token : Lexed} (h : token.Solo)
    (htext : token.text = [CodePoint.ofChar '\x7d']) (behind : Text) :
    Scans token.context (CodePoint.ofChar ' ' :: (token.text ++ behind))
      [(.whitespace, [CodePoint.ofChar ' '])] token.kind token.text behind := by
  obtain ⟨hcode, splits, -⟩ := h
  have hkind : token.kind = .rBrace := by
    rw [htext] at splits
    rw [← (Lexeme.splits_cons.mp splits).1]
    rcases hcode with hcode | hcode <;> rw [hcode] <;> rfl
  rw [htext, hkind]
  exact MarkupSyntax.scans_rBrace hcode behind

/-- The end of a tag that closes itself, with a space in front of it. -/
def selfClosing : Text := [CodePoint.ofChar ' ', CodePoint.ofChar '/', CodePoint.ofChar '>']

/-- The slash of a tag that closes itself is read in code as in a tag. The `>`
right behind it makes no other token of it. -/
theorem scans_selfClosing {context : LexContext} (hcode : context = .normal ∨ context = .tag)
    (behind : Text) :
    Scans context (selfClosing ++ behind) [(.whitespace, [CodePoint.ofChar ' '])] .slash
      [CodePoint.ofChar '/'] (CodePoint.ofChar '>' :: behind) :=
  @Lexed.scans_of_splits ⟨context, .slash, [CodePoint.ofChar '/']⟩ _ hcode
    (Lexeme.splits_slash ⟨by decide, by decide⟩ hcode) rfl _ _ rfl rfl

/-- The end of a tag that closes itself is read as a slash and a `>`. -/
theorem lexes_selfClosing (behind : Text) :
    Lexes (selfClosing ++ behind) [.slash, .greaterThan] behind :=
  (scans_selfClosing (.inr rfl) behind).lexes.append (TagName.consists_greaterThan behind).lexes

/-- A spread text is read as its tokens, each in its context. -/
theorem lexes_spread {tokens : List Lexed} (h : ∀ token ∈ tokens, token.Solo) {leaves : List Leaf}
    (htexts : tokens.map (·.text) = leaves.map (·.text)) {behind : Text} (hbehind : behind.Loose) :
    Lexes (Leaf.spread leaves ++ behind) tokens behind := by
  induction tokens generalizing leaves with
  | nil =>
    rw [List.map_eq_nil_iff.mp htexts.symm]
    exact .nil behind
  | cons token rest ih =>
    cases leaves with
    | nil => cases htexts
    | cons leaf leaves =>
      obtain ⟨hfirst, hrest⟩ := List.forall_mem_cons.mp h
      obtain ⟨htext, htexts⟩ := List.cons.inj htexts
      have htext : token.text = leaf.text := htext
      have hscan := hfirst.scans (Text.loose_spread leaves hbehind)
      rw [Leaf.spread_cons, List.cons_append, List.append_assoc, ← htext]
      exact .cons hscan (ih hrest htexts)

/-! ### Tokens that do not touch -/

/-- A token with trivia in front of it leaves something of the text
out. -/
theorem Scans.length_add_le {context : LexContext} {kind : TokenKind}
    {gap : List (TriviaKind × Text)} {text first behind : Text}
    (h : Scans context text gap kind first behind) :
    first.length + behind.length + gap.length ≤ text.length := by
  induction h with
  | eof => exact Nat.le_refl _
  | token => simp
  | @trivia _ _ _ _ piece _ _ _ splits isTrivia _ ih =>
    -- A piece of trivia is a lexeme, so it is not empty.
    have hpos : 0 < piece.length := by
      unfold Lexeme.Splits at splits
      split at splits
      · exact splits.elim
      · rw [← splits.2.1]
        exact Lexeme.length_pos _
    simp only [List.length_cons, List.length_append]
    omega

/-- Where the text goes on with a space, the next token does not touch the
current one. -/
theorem Seam.apartAhead_one {seam : Seam} {context : LexContext} {kind : TokenKind}
    {gap : List (TriviaKind × Text)} {first behind : Text} (inside : seam.lexer.IsInside)
    (hkind : (seam.current context).kind ≠ .eof) (hgap : gap ≠ [])
    (hscan : Scans .normal (seam.pass context).behind gap kind first behind) :
    seam.apartAhead context 1 = true := by
  have inside' := isInside_pass inside context
  have hahead : seam.rangeAhead context 1 = ((seam.pass context).current .normal).range := by
    have hsolid := Lexer.solidOf_stream inside'.suffices hkind
    show ((Lexer.solidOf _)[0]?.map (·.range)).getD _ = _
    rw [hsolid]
    rfl
  -- The trivia takes what the token and the text behind it leave.
  obtain ⟨hstart, hbehind⟩ := range_add_of_scans inside' hscan
  have hlength := hscan.length_add_le
  have hpos := List.length_pos_iff.mpr hgap
  have hinside : (seam.pass context).lexer.position ≤ (seam.pass context).lexer.source.length :=
    inside'
  have hstop : (seam.current context).range.stop = (seam.pass context).lexer.position := rfl
  simp only [Seam.behind, Lexer.behind, List.length_drop] at hlength
  unfold apartAhead
  rw [if_neg Nat.one_ne_zero, hahead]
  refine decide_eq_true ?_
  show (seam.current context).range.stop < _
  omega

/-! ### Names and literals in tags -/

namespace Lexeme

variable {kind : TokenKind} {text : Text}

/-- A name that is all of a text has no hyphen, so it is one in a tag. -/
theorem name_true_of_length {c : CodePoint} {tail : Text}
    (h : (name false c tail).length = tail.length + 1) : name true c tail = name false c tail := by
  have hle : tail.length ≤ (tail.takeWhile (continuesName false)).length := by
    have hsame : (tail.takeWhile (continuesName false)).length + 1 = tail.length + 1 := h
    omega
  have htail : tail.takeWhile (continuesName false) = tail :=
    (List.takeWhile_prefix _).eq_of_length_le hle
  have htag : tail.takeWhile (continuesName true) = tail := by
    rw [List.takeWhile_eq_self_iff] at htail ⊢
    intro d hd
    have hcontinues := htail d hd
    simp only [continuesName, Bool.false_and, Bool.or_false] at hcontinues
    rw [continuesName, hcontinues, Bool.true_or]
  simp only [name, htail, htag]

/-- A name or a literal is the same token in a tag: only marks join with
what follows in code alone, and hyphens in a tag alone. -/
theorem Spells.splits_tag (h : Spells kind text) (hkind : kind ∈ literalTokens ++ markupNameTokens) :
    Splits .tag kind text [] := by
  obtain ⟨splits, solid⟩ := h
  cases text with
  | nil => exact splits.elim
  | cons c tail =>
    rw [splits_cons, List.append_nil] at splits ⊢
    obtain ⟨hkind', hlength, hproblem⟩ := splits
    have hcode : (code false c tail).kind = kind := hkind'
    have hwhole : (code false c tail).length = tail.length + 1 := hlength
    -- In a tag only names are read otherwise, and a name that is a whole text outside of tags is
    -- one inside too.
    have hsame : code true c tail = code false c tail := by
      unfold code at hcode hwhole ⊢
      split
      · rfl
      split
      · rfl
      split
      · rfl
      split
      · rfl
      split
      · rfl
      split
      · rfl
      simp only [*, Bool.false_eq_true, if_false] at hcode hwhole
      split
      · rename_i hstarts
        rw [if_pos hstarts] at hwhole
        exact name_true_of_length hwhole
      · rename_i hstarts
        rw [if_neg hstarts] at hcode
        exact absurd (hcode ▸ hkind) kind_mark
    show (code true c tail).kind = kind ∧ (code true c tail).length = tail.length + 1 ∧
      (code true c tail).problem = none
    rw [hsame]
    exact ⟨hkind', hlength, hproblem⟩

end Lexeme

end MarkupSyntax
