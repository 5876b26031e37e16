import MarkupSyntax.Proofs.Tree.Layout

/-!
# `MarkupSyntax.Proofs.Token.Scan`: tokens of a known text

The invariants of seams hold of every source. Where the text behind a
seam is known, its tokens can be named. `Lexeme.Splits` says that a text
splits into a first lexeme and a rest, `Scans` passes the trivia in front
of a token, and `Lexes` lists tokens that are read in contexts of their
own, `Consists` with the trivia in front of them. They speak of texts
only, and of lexemes without a defect.

The lemmas on `Seam.behind`, the text behind a seam, carry this over to
what is read from a seam: the kind of the next token, its text, the text
behind it, and that nothing is reported.
-/

set_option autoImplicit false

namespace MarkupSyntax

/-! ### Texts -/

/-- Read in `context`, the text `token ++ rest` starts with the lexeme
`token` of this kind, and nothing is wrong with it. -/
def Lexeme.Splits (context : LexContext) (kind : TokenKind) (token rest : Text) : Prop :=
  match token ++ rest with
  | [] => False
  | c :: tail =>
    (Lexeme.next context c tail).kind = kind ∧
      (Lexeme.next context c tail).length = token.length ∧
      (Lexeme.next context c tail).problem = none

/-- For a token with a first character, what it is to be read from a text is
said of the lexeme at that character. -/
theorem Lexeme.splits_cons {context : LexContext} {kind : TokenKind} {c : CodePoint}
    {token rest : Text} :
    Splits context kind (c :: token) rest ↔
      (next context c (token ++ rest)).kind = kind ∧
        (next context c (token ++ rest)).length = token.length + 1 ∧
        (next context c (token ++ rest)).problem = none :=
  Iff.rfl

/-- A lexeme is never empty. -/
theorem Lexeme.Splits.exists_cons_eq {context : LexContext} {kind : TokenKind} {token rest : Text}
    (h : Splits context kind token rest) : ∃ c run, token = c :: run := by
  cases token with
  | cons c run => exact ⟨c, run, rfl⟩
  | nil =>
    unfold Splits at h
    split at h
    · exact h.elim
    · rename_i c tail _
      have hpos := (next context c tail).length_pos
      rw [h.2.1] at hpos
      cases hpos

/-- A lexeme is never the end of the text. -/
theorem Lexeme.Splits.kind_ne_eof {context : LexContext} {kind : TokenKind} {token rest : Text}
    (h : Splits context kind token rest) : kind ≠ .eof := by
  obtain ⟨c, run, rfl⟩ := h.exists_cons_eq
  rw [← (splits_cons.mp h).1]
  exact (cuts_next context c _).kind_ne

/-- A text splits into its first lexeme and the rest, if nothing is wrong
with the lexeme. -/
theorem Lexeme.splits_next {context : LexContext} {c : CodePoint} {rest : Text}
    (sound : (next context c rest).problem = none) :
    Splits context (next context c rest).kind ((c :: rest).take (next context c rest).length)
      ((c :: rest).drop (next context c rest).length) := by
  have hfits := (cuts_next context c rest).fits
  unfold Splits
  rw [List.take_append_drop]
  exact ⟨rfl, (List.length_take_of_le hfits).symm, sound⟩

/-- Read in `context`, the first token of a text that is no trivia is of
this kind and has this text, and a rest follows. `gap` is the trivia in
front of the token. -/
inductive Scans (context : LexContext) :
    (text : Text) → (gap : List (TriviaKind × Text)) → TokenKind → (token rest : Text) → Prop
  | eof : Scans context [] [] .eof [] []
  | token {kind : TokenKind} {token rest : Text} (splits : Lexeme.Splits context kind token rest)
      (solid : kind.isTrivia = false) : Scans context (token ++ rest) [] kind token rest
  | trivia {kind kind' : TokenKind} {trivia : TriviaKind} {gap : List (TriviaKind × Text)}
      {piece text token rest : Text} (splits : Lexeme.Splits context kind' piece text)
      (isTrivia : kind'.triviaKind? = some trivia) (later : Scans context text gap kind token rest) :
      Scans context (piece ++ text) ((trivia, piece) :: gap) kind token rest

/-- A token as it is read. -/
structure Lexed where
  context : LexContext
  kind : TokenKind
  text : Text

/-- Nothing is wrong with the text, read as code. -/
inductive Text.Clean : Text → Prop
  | nil : Clean []
  | cons {kind : TokenKind} {token rest : Text} (splits : Lexeme.Splits .normal kind token rest)
      (later : Clean rest) : Clean (token ++ rest)

/-- The text is made of these tokens, each read in its context, and of a
rest. -/
inductive Lexes : (text : Text) → List Lexed → (rest : Text) → Prop
  | nil (text : Text) : Lexes text [] text
  | cons {token : Lexed} {tokens : List Lexed} {gap : List (TriviaKind × Text)}
      {text tail rest : Text} (first : Scans token.context text gap token.kind token.text tail)
      (later : Lexes tail tokens rest) : Lexes text (token :: tokens) rest

/-- One token. -/
theorem Scans.lexes {context : LexContext} {kind : TokenKind} {gap : List (TriviaKind × Text)}
    {text token rest : Text} (h : Scans context text gap kind token rest) :
    Lexes text [⟨context, kind, token⟩] rest :=
  @Lexes.cons ⟨context, kind, token⟩ [] gap text rest rest h (.nil rest)

/-- A token that is not the end of the text takes a character. -/
theorem Scans.length_lt {context : LexContext} {kind : TokenKind}
    {gap : List (TriviaKind × Text)} {text token rest : Text}
    (h : Scans context text gap kind token rest) (notEnd : kind ≠ .eof) :
    rest.length < text.length := by
  induction h with
  | eof => exact absurd rfl notEnd
  | @token kind token rest splits _ =>
    obtain ⟨c, token, rfl⟩ := splits.exists_cons_eq
    rw [List.cons_append, List.length_cons, List.length_append]
    omega
  | trivia _ _ _ ih =>
    rw [List.length_append]
    have hlater := ih notEnd
    omega

/-- The tokens in front come first. -/
theorem Lexes.of_append {tokens tokens' : List Lexed} {text rest : Text}
    (h : Lexes text (tokens ++ tokens') rest) :
    ∃ middle, Lexes text tokens middle ∧ Lexes middle tokens' rest := by
  induction tokens generalizing text with
  | nil => exact ⟨text, .nil text, h⟩
  | cons token tokens ih =>
    cases h with
    | cons first later =>
      obtain ⟨middle, hfront, hback⟩ := ih later
      exact ⟨middle, .cons first hfront, hback⟩

/-- Other tokens may follow. -/
theorem Lexes.append {tokens tokens' : List Lexed} {text middle rest : Text}
    (h : Lexes text tokens middle) (h' : Lexes middle tokens' rest) :
    Lexes text (tokens ++ tokens') rest := by
  induction h with
  | nil => exact h'
  | cons first _ ih => exact .cons first (ih h')

/-- There are no more tokens than characters. -/
theorem Lexes.length_le {tokens : List Lexed} {text rest : Text} (h : Lexes text tokens rest)
    (notEnd : ∀ token ∈ tokens, token.kind ≠ .eof) : tokens.length ≤ text.length := by
  induction h with
  | nil => exact Nat.zero_le _
  | cons first later ih =>
    obtain ⟨hfirst, hlater⟩ := List.forall_mem_cons.mp notEnd
    have hlt := first.length_lt hfirst
    have hle := ih hlater
    rw [List.length_cons]
    omega

/-- A token as it is read, with the trivia in front of it. -/
structure Piece where
  gap : List (TriviaKind × Text)
  lexed : Lexed

/-- The text is made of these pieces and of a rest. -/
inductive Consists : (text : Text) → List Piece → (rest : Text) → Prop
  | nil (text : Text) : Consists text [] text
  | cons {piece : Piece} {pieces : List Piece} {text tail rest : Text}
      (first : Scans piece.lexed.context text piece.gap piece.lexed.kind piece.lexed.text tail)
      (later : Consists tail pieces rest) : Consists text (piece :: pieces) rest

namespace Consists

variable {pieces pieces' : List Piece} {text middle rest : Text}

/-- The tokens of the pieces. -/
theorem lexes (h : Consists text pieces rest) : Lexes text (pieces.map (·.lexed)) rest := by
  induction h with
  | nil text => exact .nil text
  | cons first _ ih => exact .cons first ih

/-- Other pieces may follow. -/
theorem append (h : Consists text pieces middle) (h' : Consists middle pieces' rest) :
    Consists text (pieces ++ pieces') rest := by
  induction h with
  | nil => exact h'
  | cons first _ ih => exact .cons first (ih h')

/-- The pieces in front come first. -/
theorem of_append (h : Consists text (pieces ++ pieces') rest) :
    ∃ middle, Consists text pieces middle ∧ Consists middle pieces' rest := by
  induction pieces generalizing text with
  | nil => exact ⟨text, .nil text, h⟩
  | cons piece pieces ih =>
    cases h with
    | cons first later =>
      obtain ⟨middle, hfront, hback⟩ := ih later
      exact ⟨middle, .cons first hfront, hback⟩

end Consists

/-- Tokens have trivia in front of them, or none. -/
theorem Lexes.exists_consists {tokens : List Lexed} {text rest : Text} (h : Lexes text tokens rest) :
    ∃ pieces : List Piece, pieces.map (·.lexed) = tokens ∧ Consists text pieces rest := by
  induction h with
  | nil text => exact ⟨[], rfl, .nil text⟩
  | @cons token tokens gap _ _ _ first _ ih =>
    obtain ⟨pieces, htokens, hpieces⟩ := ih
    exact ⟨⟨gap, token⟩ :: pieces, by rw [List.map_cons, htokens], .cons first hpieces⟩

/-! ### Lexers -/

namespace Lexer

variable {L : Lexer} {context : LexContext} {kind : TokenKind}
  {gap : List (TriviaKind × Text)} {text token rest : Text}

/-- The text behind the current token. -/
def behind (L : Lexer) : Text := L.source.drop L.position

/-- A step reads the lexeme that the text behind starts with. -/
theorem next_of_splits (h : Lexeme.Splits context kind token rest)
    (hrest : L.behind = token ++ rest) :
    (L.next context).current.kind = kind ∧ (L.next context).behind = rest ∧
      L.source.sliceRange (L.next context).current.range = token ∧
      (L.next context).diagnostics = L.diagnostics := by
  unfold Lexeme.Splits at h
  rw [← hrest] at h
  cases hdrop : L.source.drop L.position with
  | nil =>
    rw [behind, hdrop] at h
    exact h.elim
  | cons c tail =>
    rw [behind, hdrop] at h hrest
    obtain ⟨hkind, hlength, hproblem⟩ := h
    obtain ⟨hkind', hrange, hdiagnostics⟩ := @next_of_drop_eq L context c tail hdrop
    have hposition : (L.next context).position = L.position + token.length := by
      show (L.next context).current.range.stop = _
      rw [hrange, hlength]
      rfl
    refine ⟨hkind'.trans hkind, ?_, ?_, ?_⟩
    · rw [behind, hposition, next_source, ← List.drop_drop, hdrop, hrest, List.drop_left]
    · show (L.source.drop _).take _ = token
      rw [hrange, hlength]
      show (L.source.drop L.position).take (L.position + token.length - L.position) = token
      rw [hdrop, hrest, Nat.add_sub_cancel_left, List.take_left]
    · rw [hdiagnostics, problem?, hproblem]
      simp

/-- Where nothing is wrong with the text behind, looking ahead reports
nothing. The induction is on the number of tokens read ahead. -/
theorem diagnostics_stream_of_clean (h : L.behind.Clean) (count : Nat) :
    ((L.stream count).getLastD L).diagnostics = L.diagnostics := by
  induction count generalizing L with
  | zero => rfl
  | succ count ih =>
    have hnext : (L.next .normal).behind.Clean ∧
        (L.next .normal).diagnostics = L.diagnostics := by
      generalize hbehind : L.behind = text at h
      cases h with
      | nil =>
        rw [@next_of_length_le L .normal (List.drop_eq_nil_iff.mp hbehind)]
        refine ⟨?_, rfl⟩
        show Text.Clean L.behind
        rw [hbehind]
        exact .nil
      | cons splits later =>
        obtain ⟨-, hrest, -, hdiagnostics⟩ := next_of_splits splits hbehind
        exact ⟨hrest ▸ later, hdiagnostics⟩
    rw [stream]
    split
    · rfl
    · rw [List.getLastD_cons, ih hnext.1, hnext.2]

/-- Passing trivia comes to the token that the text behind scans to. The
induction follows the scan, one step of the lexer for each lexeme. -/
theorem landed_of_scans {fuel : Nat} (h : Scans context text gap kind token rest)
    (enough : L.Suffices fuel) (hrest : L.behind = text) :
    (L.landed context fuel).current.kind = kind ∧ (L.landed context fuel).behind = rest ∧
      L.source.sliceRange (L.landed context fuel).current.range = token ∧
      (L.landed context fuel).diagnostics = L.diagnostics := by
  induction h generalizing L fuel with
  | eof =>
    have hend : L.source.length ≤ L.position := List.drop_eq_nil_iff.mp hrest
    have hnext := @next_of_length_le L context hend
    cases fuel with
    | zero => exact absurd enough.2 (Nat.not_lt_zero _)
    | succ fuel =>
      have hsolid : (L.next context).current.kind.isTrivia = false := by rw [hnext]; rfl
      rw [landed, hsolid, if_neg Bool.false_ne_true, hnext]
      refine ⟨rfl, hrest, ?_, rfl⟩
      simp [Text.sliceRange, Text.slice, TextRange.empty]
  | token splits solid =>
    obtain ⟨hkind, hbehind, htext, hdiagnostics⟩ := next_of_splits splits hrest
    cases fuel with
    | zero => exact absurd enough.2 (Nat.not_lt_zero _)
    | succ fuel =>
      rw [landed, hkind, solid, if_neg Bool.false_ne_true]
      exact ⟨hkind, hbehind, htext, hdiagnostics⟩
  | @trivia _ kind' _ _ _ _ _ _ splits isTrivia _ ih =>
    obtain ⟨hkind, hbehind, -, hdiagnostics⟩ := next_of_splits splits hrest
    have htrivia : kind'.isTrivia = true := by rw [TokenKind.isTrivia, isTrivia]; rfl
    cases fuel with
    | zero => exact absurd enough.2 (Nat.not_lt_zero _)
    | succ fuel =>
      rw [landed, hkind, if_pos htrivia]
      have hlater := ih (enough.next (hkind ▸ htrivia)) hbehind
      rwa [hdiagnostics, next_source] at hlater

end Lexer

/-! ### Seams -/

namespace Seam

variable {seam : Seam} {context : LexContext} {kind : TokenKind}
  {gap : List (TriviaKind × Text)} {token rest : Text}

/-- The text behind the seam. -/
def behind (seam : Seam) : Text := seam.lexer.behind

/-- A step over a token stays in the source. The lexer must be inside of it,
else there is no token to come. -/
theorem source_pass (inside : seam.lexer.IsInside) :
    (seam.pass context).lexer.source = seam.lexer.source :=
  (reads_leg inside context).extends_.source

section Scans

variable (inside : seam.lexer.IsInside)
  (h : Scans context seam.behind gap kind token rest)

include inside h

/-- The next token of a known text. -/
theorem kind_current_of_scans : (seam.current context).kind = kind :=
  (Lexer.landed_of_scans h inside.suffices rfl).1

/-- The text of the next token is the one that the rule gives. -/
theorem text_current_of_scans :
    seam.lexer.source.sliceRange (seam.current context).range = token :=
  (Lexer.landed_of_scans h inside.suffices rfl).2.2.1

/-- Behind the token stands the rest that the rule gives. -/
theorem behind_pass_of_scans : (seam.pass context).behind = rest :=
  (Lexer.landed_of_scans h inside.suffices rfl).2.1

/-- A token that a rule gives is read without a diagnostic, and so are the
trivia in front of it. -/
theorem diagnostics_pass_of_scans :
    (seam.pass context).lexer.diagnostics = seam.lexer.diagnostics :=
  (Lexer.landed_of_scans h inside.suffices rfl).2.2.2

/-- Where the next token of a known text stands: the token and what is
behind it are the end of the source. -/
theorem range_add_of_scans :
    (seam.current context).range.start + token.length = (seam.current context).range.stop ∧
      (seam.current context).range.stop + rest.length = seam.lexer.source.length := by
  have htoken := congrArg List.length (text_current_of_scans inside h)
  have hrest := congrArg List.length (behind_pass_of_scans inside h)
  have hinside : (seam.pass context).lexer.position ≤ seam.lexer.source.length := by
    rw [← source_pass inside]
    exact isInside_pass inside context
  have hstop : (seam.current context).range.stop = (seam.pass context).lexer.position := rfl
  have horder := (seam.current context).range.start_le_stop
  simp only [behind, Lexer.behind, List.length_drop, source_pass inside] at hrest
  simp only [Text.sliceRange, Text.slice, List.length_take, List.length_drop] at htoken
  omega

end Scans

/-- A token with no trivia in front of it starts at the seam. -/
theorem start_current_of_scans (inside : seam.lexer.IsInside)
    (h : Scans context seam.behind [] kind token rest) :
    (seam.current context).range.start = seam.lexer.position := by
  obtain ⟨hstart, hstop⟩ := range_add_of_scans inside h
  have hlength : seam.behind.length = token.length + rest.length := by
    generalize seam.behind = text at h
    cases h with
    | eof => rfl
    | token => exact List.length_append
  have hinside : seam.lexer.position ≤ seam.lexer.source.length := inside
  simp only [behind, Lexer.behind, List.length_drop] at hlength
  omega

/-- The texts of the tokens along the contexts of a known text. -/
theorem leaves_of_lexes (inside : seam.lexer.IsInside) {tokens : List Lexed}
    {kinds : List SyntaxKind} {text : Text} (h : Lexes text tokens rest)
    (hrest : seam.behind = text) (hlength : kinds.length = tokens.length) :
    (seam.leaves kinds (tokens.map (·.context))).map (·.text) = tokens.map (·.text) ∧
      (seam.along (tokens.map (·.context))).lexer.diagnostics = seam.lexer.diagnostics := by
  induction h generalizing seam kinds with
  | nil text => exact ⟨by cases kinds <;> rfl, rfl⟩
  | cons first later ih =>
    cases kinds with
    | nil => cases hlength
    | cons kind kinds =>
      rw [← hrest] at first
      obtain ⟨hleaves, hdiagnostics⟩ := ih (isInside_pass inside _)
        (behind_pass_of_scans inside first) (Nat.succ.inj hlength)
      constructor
      · simp only [List.map_cons, leaves, leaf, hleaves, text_current_of_scans inside first]
      · exact hdiagnostics.trans (diagnostics_pass_of_scans inside first)

end Seam

end MarkupSyntax
