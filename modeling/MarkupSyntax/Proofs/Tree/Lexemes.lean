import MarkupSyntax.Proofs.Tree.Places

/-!
# `MarkupSyntax.Proofs.Tree.Lexemes`: the tokens of a tree and the lexer

A tree is what is left of a run of the lexer. Its tokens are lexemes of
the source (`Located.IsLexeme`), each in the context in which the parse
consumed it, and the trivia between two tokens is split at its first line
break (`Seam.Shows.trailingTrivia`, `Seam.Shows.leadingTrivia`).

`Located.lexemes` reads the run back from the tree: the token and the
trivia around it as the lexer had them. All together they are the tokens
that the lexer read on its way (`Seam.Shows.lexemes`), so the tree knows
every diagnostic that the lexer still has at the end
(`Seam.Shows.diagnostics`).
-/

set_option autoImplicit false

namespace MarkupSyntax

/-! ### Tokens without their flags -/

namespace Token

/-- The token as a tree knows it. -/
def bare (token : Token) : Token := { token with flags := {} }

/-- Tokens that follow each other start one after another. -/
theorem Chain.pairwise {start stop : Nat} {tokens : List Token} (h : Chain start tokens stop) :
    tokens.Pairwise fun token later => token.range.start ≤ later.range.start := by
  have hstart : ∀ {start : Nat} {tokens : List Token}, Chain start tokens stop →
      ∀ token ∈ tokens, start ≤ token.range.start := by
    intro start tokens h
    induction tokens generalizing start with
    | nil => simp
    | cons first rest ih =>
      intro token hmem
      have hle := first.range.start_le_stop
      have hfirst := h.1
      rcases List.mem_cons.mp hmem with rfl | hmem
      · omega
      · have := ih h.2 token hmem
        omega
  induction tokens generalizing start with
  | nil => exact .nil
  | cons first rest ih =>
    have hle := first.range.start_le_stop
    exact .cons (fun token hmem => Nat.le_trans hle (hstart h.2 token hmem)) (ih h.2)

/-- They end one after another, the last one where the chain does. -/
theorem Chain.start_le_stop {start stop : Nat} {tokens : List Token} (h : Chain start tokens stop) :
    start ≤ stop := by
  induction tokens generalizing start with
  | nil => exact Nat.le_of_eq h
  | cons first rest ih => exact h.1 ▸ Nat.le_trans first.range.start_le_stop (ih h.2)

/-- A token of a chain stops where the chain does, or in front of that. -/
theorem Chain.stop_le {start stop : Nat} {tokens : List Token} (h : Chain start tokens stop) :
    ∀ token ∈ tokens, token.range.stop ≤ stop := by
  induction tokens generalizing start with
  | nil => exact fun _ hmem => nomatch hmem
  | cons first rest ih =>
    intro token hmem
    rcases List.mem_cons.mp hmem with rfl | hmem
    · exact h.2.start_le_stop
    · exact ih h.2 token hmem

end Token

/-- The kind of token that a piece of trivia was. -/
def TriviaKind.token : TriviaKind → TokenKind
  | whitespace => .whitespace
  | newline => .newline
  | comment => .comment
  | skipped => .skipped

/-- The token that a piece of trivia was. -/
def Trivia.token (trivia : Trivia) : Token := ⟨trivia.kind.token, trivia.range, {}⟩

/-- The tokens that pieces of trivia from an offset on were. -/
def TriviaPiece.tokens (start : Nat) : List TriviaPiece → List Token
  | [] => []
  | piece :: rest =>
    ⟨piece.kind.token, .ofLength start piece.length, {}⟩ :: tokens (start + piece.length) rest

/-- Pieces in a row are as many tokens in a row, at their ranges. -/
theorem TriviaPiece.tokens_of_chain {start stop : Nat} {pieces : List Trivia}
    (h : Trivia.Chain start pieces stop) :
    tokens start (pieces.map Trivia.piece) = pieces.map Trivia.token := by
  induction pieces generalizing start with
  | nil => rfl
  | cons piece rest ih =>
    obtain ⟨rfl, hrest⟩ := h
    have hrange : TextRange.ofLength piece.range.start piece.range.length = piece.range :=
      TextRange.ofLength_length piece.range
    have hstop : piece.range.start + piece.range.length = piece.range.stop :=
      congrArg TextRange.stop hrange
    rw [List.map_cons, List.map_cons, tokens]
    show Token.mk piece.kind.token (.ofLength piece.range.start piece.range.length) {} ::
      tokens (piece.range.start + piece.range.length) _ = _
    rw [hrange, hstop, ih hrest]
    rfl

/-- The pieces of trivia that tokens are give these tokens back. -/
theorem Trivia.map_token_ofTokens {isTrailing : Bool} {tokens : List Token}
    (h : ∀ token ∈ tokens, token.kind.isTrivia = true) :
    (ofTokens isTrailing tokens).map Trivia.token = tokens.map Token.bare := by
  induction tokens generalizing isTrailing with
  | nil => rfl
  | cons token rest ih =>
    have hkind : (token.kind.triviaKind?.getD .whitespace).token = token.kind := by
      have htrivia := h token List.mem_cons_self
      revert htrivia
      cases token.kind <;> simp [TokenKind.isTrivia, TokenKind.triviaKind?, TriviaKind.token]
    rw [ofTokens, List.map_cons, ih fun token hmem => h token (List.mem_cons_of_mem _ hmem),
      List.map_cons]
    show Token.mk (token.kind.triviaKind?.getD .whitespace).token token.range {} :: _ = _
    rw [hkind]
    rfl

/-! ### One token -/

namespace Located

/-- The token is not empty, and it is what a lexer of the source reads
where the token starts, in this context. -/
structure IsLexeme (source : Text) (context : LexContext) (part : Located) : Prop where
  nonempty : part.text ≠ []
  reads : ∀ lexer : Lexer, lexer.source = source → lexer.position = part.tokenStart →
    part.kind.lexeme? = some (lexer.next context).current.kind ∧
      part.tokenRange = (lexer.next context).current.range ∧
      part.text = (lexer.next context).current.text source

/-- Some lexer of the source reads it. -/
theorem IsLexeme.exists_lexer {source : Text} {context : LexContext} {part : Located}
    (h : part.IsLexeme source context) :
    ∃ lexer : Lexer, lexer.source = source ∧
      part.kind.lexeme? = some (lexer.next context).current.kind ∧
      part.text = (lexer.next context).current.text lexer.source := by
  obtain ⟨hkind, -, htext⟩ :=
    h.reads { source, file := [], current := ⟨.eof, .empty part.tokenStart, {}⟩ } rfl rfl
  exact ⟨_, rfl, hkind, htext⟩

/-- A lexeme is not the end of the source. -/
theorem IsLexeme.kind_ne_eof {source : Text} {context : LexContext} {part : Located}
    (h : part.IsLexeme source context) : part.kind ≠ .token .eof := by
  intro heof
  obtain ⟨lexer, -, hkind, htext⟩ := h.exists_lexer
  rw [heof] at hkind
  rw [Token.text, if_pos (Option.some.inj hkind).symm] at htext
  exact h.nonempty htext

/-- No lexeme is the end of the source. -/
theorem kind_ne_eof_of_forall₂ {source : Text} {contexts : List LexContext}
    {tokens : List Located} (h : List.Forall₂ (IsLexeme source) contexts tokens) :
    ∀ token ∈ tokens, token.kind ≠ .token .eof := by
  induction h with
  | nil => simp
  | cons first _ ih =>
    intro token hmem
    rcases List.mem_cons.mp hmem with rfl | hmem
    · exact first.kind_ne_eof
    · exact ih token hmem

/-- The token and the trivia around it as tokens of the lexer, in the
order of the source. -/
def lexemes (part : Located) : List Token :=
  TriviaPiece.tokens part.start ((part.leaf?.map (·.leading)).getD []) ++
    (part.kind.lexeme?.map fun kind => ⟨kind, part.tokenRange, {}⟩).toList ++
    TriviaPiece.tokens part.tokenRange.stop ((part.leaf?.map (·.trailing)).getD [])

namespace IsNext

variable {part : Located} {seam : Seam} {context : LexContext} {rest : List LexContext}

/-- A token that is not the end is a lexeme in the context in which it
was read. -/
theorem isLexeme (h : part.IsNext seam context rest) (inside : seam.lexer.IsInside)
    (notEnd : (seam.current context).kind ≠ .eof) :
    part.IsLexeme seam.lexer.source context where
  nonempty := by
    have hlt := Seam.start_lt_stop inside notEnd
    have hlength : (seam.lexer.source.sliceRange (seam.current context).range).length
        = (seam.current context).range.stop - (seam.current context).range.start :=
      Text.length_slice_of_le (Seam.stop_le inside)
    rw [h.text]
    intro hnil
    rw [hnil, List.length_nil] at hlength
    omega
  reads := by
    intro lexer hsource hposition
    -- A lexer at this offset reads the lexeme that the token was cut as.
    obtain ⟨c, rest, hdrop, hkind, hstop⟩ := Seam.cutIn_current inside notEnd
    have hstart : lexer.position = (seam.lexer.target context).current.range.start := by
      rw [hposition, h.tokenStart inside]
      rfl
    rw [← hsource, ← hstart] at hdrop
    obtain ⟨hkind', hrange', -⟩ := @Lexer.next_of_drop_eq lexer context c rest hdrop
    have hrange : (lexer.next context).current.range = (seam.current context).range := by
      have hlength : (Lexeme.next context c rest).length
          = (seam.current context).range.length := by
        show _ = (seam.lexer.target context).current.range.stop -
          (seam.lexer.target context).current.range.start
        omega
      rw [hrange', hstart, hlength]
      exact TextRange.ofLength_length _
    have hkinds : (lexer.next context).current.kind = (seam.current context).kind :=
      hkind'.trans hkind.symm
    refine ⟨?_, ?_, ?_⟩
    · rw [h.lexeme?, hkinds]
    · rw [h.tokenRange inside, hrange]
    · rw [h.text, Token.text, hkinds, if_neg notEnd, hrange]

/-- The token with its trivia as the lexer had them. -/
theorem lexemes_eq (h : part.IsNext seam context rest) (inside : seam.lexer.IsInside) :
    part.lexemes = (seam.leading context).map Trivia.token ++
      [(seam.lexer.target context).current.bare] ++
      ((seam.pass context).trailing rest).map Trivia.token := by
  have hrange := h.tokenRange inside
  have hkind := h.lexeme?
  have hleading := TriviaPiece.tokens_of_chain (@Seam.chain_leading seam context inside rest)
  have htrailing := TriviaPiece.tokens_of_chain
    (Seam.chain_trailing (Seam.isInside_pass inside context) rest)
  rw [Seam.position_pass] at htrailing
  obtain ⟨kind, -, hleaf⟩ := h.leaf
  unfold lexemes
  rw [hleaf, hkind, hrange, h.start]
  show TriviaPiece.tokens _ ((seam.leading context).map Trivia.piece) ++ _ ++
    TriviaPiece.tokens _ (((seam.pass context).trailing rest).map Trivia.piece) = _
  rw [hleading, htrailing]
  rfl

end IsNext

end Located

/-! ### All tokens -/

namespace Seam

variable {seam : Seam} {contexts : List LexContext} {last : LexContext} {parts : List Located}

/-- All tokens but the last are lexemes in the contexts in which the parse
consumed them. -/
theorem Shows.isLexeme (h : seam.Shows (contexts ++ [last]) parts) (inside : seam.lexer.IsInside)
    (hpasses : seam.Passes contexts) :
    ∃ tokens final, parts = tokens ++ [final] ∧
      List.Forall₂ (Located.IsLexeme seam.lexer.source) contexts tokens ∧
      final.IsNext (seam.along contexts) last [] := by
  induction contexts generalizing seam parts with
  | nil =>
    cases h with
    | next first later =>
      cases later
      exact ⟨[], _, rfl, .nil, first⟩
  | cons context rest ih =>
    cases h with
    | next first later =>
      have hsource : (seam.pass context).lexer.source = seam.lexer.source :=
        (reads_leg inside context).extends_.source
      obtain ⟨tokens, final, hparts, hall, hfinal⟩ :=
        ih later (isInside_pass inside context) hpasses.2
      rw [hsource] at hall
      rw [hparts]
      exact ⟨_ :: tokens, final, rfl, .cons (first.isLexeme inside hpasses.1) hall, hfinal⟩

/-- Trailing trivia holds no line break. -/
theorem Shows.trailingTrivia (h : seam.Shows contexts parts) (inside : seam.lexer.IsInside) :
    ∀ part ∈ parts, ∀ piece ∈ part.trailingTrivia, piece.1 ≠ .newline := by
  induction h with
  | done seam => simp
  | @next seam context rest part parts first later ih =>
    intro token hmem piece hpiece
    rcases List.mem_cons.mp hmem with rfl | hmem
    · rw [first.trailingTrivia_eq inside] at hpiece
      obtain ⟨trivia, htrivia, rfl⟩ := List.mem_map.mp hpiece
      exact (isTrailing_of_mem_trailing htrivia).2
    · exact ih (isInside_pass inside context) token hmem piece hpiece

/-- Behind the start of the source leading trivia starts with a line
break. -/
theorem Shows.leadingTrivia (h : seam.Shows contexts parts) (inside : seam.lexer.IsInside)
    (hposition : 0 < seam.lexer.position) :
    ∀ part ∈ parts, ∀ piece ∈ part.leadingTrivia.head?, piece.1 = .newline := by
  induction h with
  | done seam => simp
  | @next seam context rest part parts first later ih =>
    intro token hmem piece hpiece
    rcases List.mem_cons.mp hmem with rfl | hmem
    · rw [first.leadingTrivia_eq inside, List.head?_map] at hpiece
      obtain ⟨trivia, htrivia, rfl⟩ := Option.map_eq_some_iff.mp hpiece
      exact kind_head_leading hposition trivia htrivia
    · have hle := (reads_leg inside context).position_le
      exact ih (isInside_pass inside context) (Nat.lt_of_lt_of_le hposition hle) token hmem piece
        hpiece

/-- So does the leading trivia of every token but the first. -/
theorem Shows.leadingTrivia_tail (h : seam.Shows (contexts ++ [last]) parts)
    (inside : seam.lexer.IsInside) (hpasses : seam.Passes contexts) :
    ∀ part ∈ parts.tail, ∀ piece ∈ part.leadingTrivia.head?, piece.1 = .newline := by
  cases contexts with
  | nil =>
    cases h with
    | next first later =>
      cases later
      simp
  | cons context rest =>
    cases h with
    | next first later =>
      -- The first token is not empty, so the second starts behind the start of the source.
      have hlt := start_lt_stop inside hpasses.1
      exact later.leadingTrivia (isInside_pass inside context) (Nat.zero_lt_of_lt hlt)

/-- The trivia of a gap is what the lexer passed there. -/
theorem map_token_gap (seam : Seam) (context : LexContext) :
    (seam.gap context).map Trivia.token = (seam.lexer.gap context).map Token.bare :=
  Trivia.map_token_ofTokens fun _ hmem => Lexer.isTrivia_of_mem_passed hmem

/-- The tokens of the tree, with the trivia in front of the first one, are
those that the lexer read. -/
theorem Shows.lexemes (h : seam.Shows contexts parts) (inside : seam.lexer.IsInside) :
    (seam.trailing contexts).map Trivia.token ++ parts.flatMap Located.lexemes
      = (seam.legs contexts).map fun item => item.2.bare := by
  induction h with
  | done seam => rfl
  | @next seam context rest part parts first later ih =>
    have hgap := map_token_gap seam context
    rw [← trailing_append_leading rest, List.map_append] at hgap
    have hleg : (seam.leg context).map (fun item => item.2.bare)
        = (seam.lexer.gap context).map Token.bare ++
            [(seam.lexer.target context).current.bare] := by
      simp [leg]
    rw [legs, List.map_append, ← ih (isInside_pass inside context), hleg, ← hgap,
      List.flatMap_cons, first.lexemes_eq inside]
    simp only [List.append_assoc]

/-- The lexer has the diagnostics that the tokens of the tree ask for. -/
theorem Shows.diagnostics (h : seam.Shows contexts parts) (inside : seam.lexer.IsInside)
    (hstart : seam.trailing contexts = []) :
    (seam.along contexts).lexer.diagnostics.toList
      = seam.lexer.diagnostics.toList ++
        (parts.flatMap Located.lexemes).filterMap
          (Token.defect? seam.lexer.source seam.lexer.file) := by
  have hlexemes := h.lexemes inside
  rw [hstart, List.map_nil, List.nil_append] at hlexemes
  rw [(reads_legs inside contexts).diagnostics, hlexemes, List.filterMap_map]
  congr 1
  rw [← List.filterMap_eq_flatMap_toList]
  rfl

/-- The tokens of the tree start one after another, trivia included. -/
theorem Shows.pairwise (h : seam.Shows contexts parts) (inside : seam.lexer.IsInside)
    (hstart : seam.trailing contexts = []) :
    (parts.flatMap Located.lexemes).Pairwise
      fun token later => token.range.start ≤ later.range.start := by
  have hlexemes := h.lexemes inside
  rw [hstart, List.map_nil, List.nil_append] at hlexemes
  have hchain := (reads_legs inside contexts).chain.pairwise
  rw [hlexemes]
  rw [List.pairwise_map] at hchain ⊢
  exact hchain

/-- They all stop inside the source. -/
theorem Shows.stop_le (h : seam.Shows contexts parts) (inside : seam.lexer.IsInside)
    (hstart : seam.trailing contexts = []) :
    ∀ token ∈ parts.flatMap Located.lexemes, token.range.stop ≤ seam.lexer.source.length := by
  have hlexemes := h.lexemes inside
  rw [hstart, List.map_nil, List.nil_append] at hlexemes
  have hreads := reads_legs inside contexts
  have hend : (seam.along contexts).lexer.position ≤ seam.lexer.source.length :=
    hreads.extends_.source ▸ isInside_along inside contexts
  intro token hmem
  rw [hlexemes] at hmem
  obtain ⟨item, hitem, rfl⟩ := List.mem_map.mp hmem
  exact Nat.le_trans (hreads.chain.stop_le item.2 (List.mem_map_of_mem hitem)) hend

end Seam

end MarkupSyntax
