import Mathlib.Data.List.TakeWhile
import MarkupSyntax.Proofs.Event.Growth
import MarkupSyntax.Proofs.Token.Seam

/-!
# `MarkupSyntax.Proofs.Tree.Layout`: which trivia a token of a tree has

The trivia between two tokens is split at its first line break: what
comes before is trailing trivia of the first token, the rest is leading
trivia of the second (`Seam.trailing`, `Seam.leading`). The assembly of a
tree does not see the tokens of the lexer, only the trivia of the whole
source and where each token stops. `Seam.leaves_outermost` states that it
splits the trivia in the same way: the tokens of the tree are
`Seam.leaves`, the tokens along the contexts in which the parse consumed
them.

This rests on tokens not being empty. The pieces of trivia are taken as
long as they touch, and between the last piece before a token and the
first one behind it lies the token.
-/

set_option autoImplicit false

namespace MarkupSyntax

/-! ### Pieces of trivia in a row -/

namespace Trivia

/-- The piece as a tree keeps it. -/
def piece (trivia : Trivia) : TriviaPiece := ⟨trivia.kind, trivia.range.length⟩

/-- The pieces follow each other without gaps from one offset to
another. -/
def Chain : (start : Nat) → List Trivia → (stop : Nat) → Prop
  | start, [], stop => start = stop
  | start, piece :: rest, stop => piece.range.start = start ∧ Chain piece.range.stop rest stop

variable {start middle stop : Nat} {l l' : List Trivia}

/-- The length of a row of pieces is the distance that it covers. -/
theorem Chain.add_length (h : Chain start l stop) :
    start + TriviaPiece.totalLength (l.map piece) = stop := by
  induction l generalizing start with
  | nil => exact h
  | cons first rest ih =>
    have hrest := ih h.2
    have hle := first.range.start_le_stop
    have hstart := h.1
    simp only [List.map_cons, TriviaPiece.totalLength]
    show start + (first.range.length + _) = stop
    unfold TextRange.length
    omega

/-- A row of pieces can be cut between any two of them. -/
theorem Chain.split (h : Chain start (l ++ l') stop) :
    Chain start l (start + TriviaPiece.totalLength (l.map piece)) ∧
      Chain (start + TriviaPiece.totalLength (l.map piece)) l' stop := by
  have hmiddle : ∃ middle, Chain start l middle ∧ Chain middle l' stop := by
    induction l generalizing start with
    | nil => exact ⟨start, rfl, h⟩
    | cons first rest ih =>
      obtain ⟨middle, hrest, hlast⟩ := ih h.2
      exact ⟨middle, ⟨h.1, hrest⟩, hlast⟩
  obtain ⟨middle, hfirst, hlast⟩ := hmiddle
  rw [hfirst.add_length]
  exact ⟨hfirst, hlast⟩

/-- Taking trivia takes a row of pieces that fit, and stops where the
next one does not fit or does not touch. -/
theorem takeTrivia_append {takes : Trivia → Bool} (h : Chain start l stop)
    (hl : ∀ piece ∈ l, takes piece = true)
    (hl' : ∀ piece ∈ l'.head?, takes piece = false ∨ stop ≠ piece.range.start) :
    Assembly.takeTrivia takes start (l ++ l') = (l.map piece, stop, l') := by
  induction l generalizing start with
  | nil =>
    cases h
    cases l' with
    | nil => rfl
    | cons first rest =>
      rw [List.nil_append, Assembly.takeTrivia, if_neg]
      · rfl
      · rcases hl' first rfl with hfirst | hfirst
        · simp [hfirst]
        · simp [hfirst]
  | cons first rest ih =>
    have hfits : (takes first && decide (start = first.range.start)) = true := by
      rw [hl first List.mem_cons_self, h.1]
      simp
    rw [List.cons_append, Assembly.takeTrivia, if_pos hfits,
      ih h.2 fun piece hmem => hl piece (List.mem_cons_of_mem _ hmem)]
    rfl

/-! ### Trailing and leading trivia -/

/-- Behind a line break no trivia is trailing. -/
theorem isTrailing_ofTokens_false {tokens : List Token} :
    ∀ piece ∈ ofTokens false tokens, piece.isTrailing = false := by
  induction tokens with
  | nil => exact fun _ hmem => nomatch hmem
  | cons token rest ih =>
    intro piece hmem
    rcases List.mem_cons.mp hmem with rfl | hmem
    · rfl
    · exact ih piece hmem

/-- Trailing trivia holds no line break. -/
theorem kind_of_isTrailing {isTrailing : Bool} {tokens : List Token} :
    ∀ piece ∈ ofTokens isTrailing tokens, piece.isTrailing = true → piece.kind ≠ .newline := by
  induction tokens generalizing isTrailing with
  | nil => exact fun _ hmem => nomatch hmem
  | cons token rest ih =>
    intro piece hmem htrailing
    rcases List.mem_cons.mp hmem with rfl | hmem
    · have hkind : token.kind ≠ .newline := by
        have := Bool.and_eq_true_iff.mp htrailing
        exact of_decide_eq_true this.2
      show token.kind.triviaKind?.getD .whitespace ≠ .newline
      revert hkind
      cases token.kind <;> decide
    · exact ih piece hmem htrailing

/-- What is left of the trivia of a gap behind the trailing part is not
trailing, and starts with a line break unless the gap starts the
source. -/
theorem dropWhile_ofTokens {isTrailing : Bool} {tokens : List Token} :
    (∀ piece ∈ (ofTokens isTrailing tokens).dropWhile (·.isTrailing), piece.isTrailing = false) ∧
      (isTrailing = true →
        ∀ piece ∈ ((ofTokens isTrailing tokens).dropWhile (·.isTrailing)).head?,
          piece.kind = .newline) := by
  induction tokens generalizing isTrailing with
  | nil => exact ⟨fun _ hmem => (nomatch hmem), fun _ _ hmem => (nomatch hmem)⟩
  | cons token rest ih =>
    rw [ofTokens, List.dropWhile_cons]
    by_cases htrailing : (isTrailing && decide (token.kind ≠ .newline)) = true
    · rw [if_pos htrailing, htrailing]
      exact ⟨ih.1, fun _ => ih.2 rfl⟩
    · rw [if_neg htrailing]
      rw [Bool.not_eq_true] at htrailing
      refine ⟨fun piece hmem => ?_, fun hfirst piece hmem => ?_⟩
      · rcases List.mem_cons.mp hmem with rfl | hmem
        · exact htrailing
        · rw [htrailing] at hmem
          exact isTrailing_ofTokens_false piece hmem
      · rw [← Option.some.inj hmem]
        rw [hfirst, Bool.true_and, decide_eq_false_iff_not, not_not] at htrailing
        show token.kind.triviaKind?.getD .whitespace = .newline
        rw [htrailing]
        rfl

/-- The pieces of a gap follow each other as its tokens do. -/
theorem chain_ofTokens {isTrailing : Bool} {tokens : List Token}
    (h : Token.Chain start tokens stop) : Chain start (ofTokens isTrailing tokens) stop := by
  induction tokens generalizing start isTrailing with
  | nil => exact h
  | cons token rest ih => exact ⟨h.1, ih h.2⟩

end Trivia

/-! ### The trivia around a token -/

namespace Seam

variable {seam : Seam} {context : LexContext}

/-- The trivia behind a seam that belongs to the token before it. -/
def trailing (seam : Seam) : List LexContext → List Trivia
  | [] => []
  | context :: _ => (seam.gap context).takeWhile (·.isTrailing)

/-- The trivia behind a seam that belongs to the next token. -/
def leading (seam : Seam) (context : LexContext) : List Trivia :=
  (seam.gap context).dropWhile (·.isTrailing)

/-- The trivia along these contexts. -/
def ahead (seam : Seam) : List LexContext → List Trivia
  | [] => []
  | context :: rest => seam.gap context ++ (seam.pass context).ahead rest

/-- What an assembly has left when it comes to a seam, with the trailing
trivia of the token before given away. -/
def supply (seam : Seam) (contexts : List LexContext) : Supply where
  trivia := (seam.ahead contexts).drop (seam.trailing contexts).length
  position := seam.lexer.position + TriviaPiece.totalLength ((seam.trailing contexts).map Trivia.piece)

/-- The next token with its trivia; `rest` are the contexts behind it. -/
def leaf (seam : Seam) (kind : SyntaxKind) (context : LexContext) (rest : List LexContext) :
    Leaf where
  kind
  text := seam.lexer.source.sliceRange (seam.current context).range
  leading := (seam.leading context).map Trivia.piece
  trailing := ((seam.pass context).trailing rest).map Trivia.piece

/-- The tokens along these contexts, of these kinds. -/
def leaves (seam : Seam) : List SyntaxKind → List LexContext → List Leaf
  | kind :: kinds, context :: rest =>
    seam.leaf kind context rest :: (seam.pass context).leaves kinds rest
  | _, _ => []

/-- The leading part is not trailing, and starts with a line break unless
it starts the source. -/
theorem isTrailing_of_mem_leading {piece : Trivia} (h : piece ∈ seam.leading context) :
    piece.isTrailing = false :=
  (@Trivia.dropWhile_ofTokens (0 < seam.lexer.position) _).1 piece h

/-- Leading trivia that does not start the source begins with a line break: what
is in front of the line break is trailing trivia of the token before. -/
theorem kind_head_leading (h : 0 < seam.lexer.position) :
    ∀ piece ∈ (seam.leading context).head?, piece.kind = .newline :=
  Trivia.dropWhile_ofTokens.2 (decide_eq_true h)

/-- The trailing part is trailing and holds no line break. -/
theorem isTrailing_of_mem_trailing {contexts : List LexContext} {piece : Trivia}
    (h : piece ∈ seam.trailing contexts) : piece.isTrailing = true ∧ piece.kind ≠ .newline := by
  cases contexts with
  | nil => cases h
  | cons context rest =>
    have htrailing : piece.isTrailing = true := List.mem_takeWhile_imp h
    exact ⟨htrailing, Trivia.kind_of_isTrailing piece ((List.takeWhile_prefix _).mem h) htrailing⟩

/-- The gap in front of a token is split at its first line break into the
trailing trivia of the token before and its own leading trivia. -/
theorem trailing_append_leading (rest : List LexContext) :
    seam.trailing (context :: rest) ++ seam.leading context = seam.gap context :=
  List.takeWhile_append_dropWhile

/-- What is left in the supply in front of a token: its leading trivia, and all
that is ahead. -/
theorem supply_cons (rest : List LexContext) :
    (seam.supply (context :: rest)).trivia
      = seam.leading context ++ (seam.pass context).ahead rest := by
  show (seam.ahead (context :: rest)).drop _ = _
  rw [ahead, ← trailing_append_leading rest, List.append_assoc, List.drop_left]

/-- A later seam has the trivia in between besides. -/
theorem trivia_along (contexts : List LexContext) :
    (seam.along contexts).trivia.toList = seam.trivia.toList ++ seam.ahead contexts := by
  induction contexts generalizing seam with
  | nil => exact (List.append_nil _).symm
  | cons context rest ih =>
    refine ih.trans ?_
    rw [pass, Array.toList_append, ahead, List.append_assoc]
    rfl

/-- The trivia in front of a token reaches from the seam to the token. -/
theorem chain_gap (inside : seam.lexer.IsInside) :
    Trivia.Chain seam.lexer.position (seam.gap context) (seam.current context).range.start := by
  have hchain := (reads_leg inside context).chain
  unfold leg at hchain
  rw [List.map_append, List.map_map] at hchain
  have hall : ∀ (tokens : List Token) (start : Nat),
      Token.Chain start (tokens ++ [(seam.lexer.target context).current])
        (seam.pass context).lexer.position →
      Token.Chain start tokens (seam.current context).range.start := by
    intro tokens
    induction tokens with
    | nil => exact fun start h => h.1.symm
    | cons token rest ih => exact fun start h => ⟨h.1, ih _ h.2⟩
  have hgap : (seam.lexer.gap context).map ((·.2) ∘ (context, ·)) = seam.lexer.gap context :=
    List.map_id _
  rw [hgap] at hchain
  exact Trivia.chain_ofTokens (hall _ _ hchain)

/-- The leading part of the trivia in front of a token reaches to the
token. -/
theorem chain_leading (inside : seam.lexer.IsInside) (rest : List LexContext) :
    Trivia.Chain (seam.supply (context :: rest)).position (seam.leading context)
      (seam.current context).range.start := by
  have hchain := @chain_gap seam context inside
  rw [← trailing_append_leading rest] at hchain
  exact hchain.split.2

/-- The trailing part starts at the seam. -/
theorem chain_trailing (inside : seam.lexer.IsInside) (contexts : List LexContext) :
    Trivia.Chain seam.lexer.position (seam.trailing contexts) (seam.supply contexts).position := by
  cases contexts with
  | nil => rfl
  | cons context rest =>
    have hchain := @chain_gap seam context inside
    rw [← trailing_append_leading rest] at hchain
    exact hchain.split.1

/-- A row of trivia stays behind its start. -/
theorem le_start_of_mem {start stop : Nat} {pieces : List Trivia}
    (h : Trivia.Chain start pieces stop) {piece : Trivia} (hmem : piece ∈ pieces) :
    start ≤ piece.range.start ∧ piece.range.stop ≤ stop := by
  induction pieces generalizing start with
  | nil => cases hmem
  | cons first rest ih =>
    have hlength := h.2.add_length
    have hle := first.range.start_le_stop
    have hstart := h.1
    rcases List.mem_cons.mp hmem with rfl | hmem
    · omega
    · have := ih h.2 hmem
      omega

/-- Trivia ahead lies behind the seam. -/
theorem position_le_of_mem_ahead (inside : seam.lexer.IsInside) {contexts : List LexContext}
    {piece : Trivia} (hmem : piece ∈ seam.ahead contexts) :
    seam.lexer.position ≤ piece.range.start := by
  induction contexts generalizing seam with
  | nil => cases hmem
  | cons context rest ih =>
    rcases List.mem_append.mp hmem with hmem | hmem
    · exact (le_start_of_mem (chain_gap inside) hmem).1
    · have hpass := ih (isInside_pass inside context) hmem
      exact Nat.le_trans (reads_leg inside context).position_le hpass

/-- The trivia ahead is the trailing part and what an assembly has left
then. -/
theorem ahead_eq (contexts : List LexContext) :
    seam.ahead contexts = seam.trailing contexts ++ (seam.supply contexts).trivia := by
  cases contexts with
  | nil => rfl
  | cons context rest =>
    rw [supply_cons, ← List.append_assoc, trailing_append_leading]
    rfl

/-- Only the last token along these contexts may be the end of the
source. -/
def EndsLate (seam : Seam) : List LexContext → Prop
  | [] => True
  | context :: rest =>
    (rest ≠ [] → (seam.current context).kind ≠ .eof) ∧ (seam.pass context).EndsLate rest

/-- Contexts along which the seam passes text are followed by the end of the
source. -/
theorem Passes.endsLate {contexts : List LexContext} (h : seam.Passes contexts)
    (last : LexContext) : seam.EndsLate (contexts ++ [last]) := by
  induction contexts generalizing seam with
  | nil => exact ⟨fun hne => absurd rfl hne, trivial⟩
  | cons context rest ih => exact ⟨fun _ => h.1, ih h.2⟩

/-- Behind a token that is not the end, trivia ahead does not touch its
start. -/
theorem start_ne_of_head?_ahead (inside : seam.lexer.IsInside) {rest : List LexContext}
    (h : rest ≠ [] → (seam.current context).kind ≠ .eof) {piece : Trivia}
    (hmem : piece ∈ ((seam.pass context).ahead rest).head?) :
    (seam.current context).range.start ≠ piece.range.start := by
  have hne : rest ≠ [] := by
    rintro rfl
    cases hmem
  have hlt := start_lt_stop inside (h hne)
  have hle := position_le_of_mem_ahead (isInside_pass inside context) (List.mem_of_mem_head? hmem)
  rw [position_pass] at hle
  omega

/-- An assembly gives a token the trivia that belongs to it, and comes to
the next seam. -/
theorem next_supply (inside : seam.lexer.IsInside) {rest : List LexContext}
    (h : seam.EndsLate (context :: rest)) (kind : SyntaxKind) :
    (seam.supply (context :: rest)).next seam.lexer.source kind (seam.current context).range.stop
      = (seam.leaf kind context rest, (seam.pass context).supply rest) := by
  have inside' := isInside_pass inside context
  have hleading : Assembly.takeTrivia
      (fun piece => !piece.isTrailing && piece.range.stop ≤ (seam.current context).range.stop)
      (seam.supply (context :: rest)).position (seam.supply (context :: rest)).trivia
      = ((seam.leading context).map Trivia.piece, (seam.current context).range.start,
        (seam.pass context).ahead rest) := by
    rw [supply_cons]
    refine Trivia.takeTrivia_append (chain_leading inside rest) (fun piece hmem => ?_)
      fun piece hmem => .inr (start_ne_of_head?_ahead inside h.1 hmem)
    have hstop := (le_start_of_mem (chain_leading inside rest) hmem).2
    have hle := (seam.current context).range.start_le_stop
    rw [isTrailing_of_mem_leading hmem]
    exact decide_eq_true (Nat.le_trans hstop hle)
  have htrailing : Assembly.takeTrivia (·.isTrailing) (seam.current context).range.stop
      ((seam.pass context).ahead rest)
      = (((seam.pass context).trailing rest).map Trivia.piece,
        ((seam.pass context).supply rest).position, ((seam.pass context).supply rest).trivia) := by
    rw [ahead_eq]
    refine Trivia.takeTrivia_append (chain_trailing inside' rest) (fun piece hmem => ?_)
      fun piece hmem => ?_
    · exact (isTrailing_of_mem_trailing hmem).1
    · cases rest with
      | nil => cases hmem
      | cons next rest =>
        rw [supply_cons] at hmem
        cases hnext : (seam.pass context).leading next with
        | nil =>
          -- All the trivia is trailing, so it reaches to the next token.
          have hchain := @chain_leading (seam.pass context) next inside' rest
          rw [hnext] at hchain hmem
          have hstart : ((seam.pass context).supply (next :: rest)).position
              = ((seam.pass context).current next).range.start := hchain
          rw [hstart]
          exact .inr (start_ne_of_head?_ahead inside' h.2.1 hmem)
        | cons first others =>
          rw [hnext] at hmem
          refine .inl (@isTrailing_of_mem_leading (seam.pass context) next piece ?_)
          rw [hnext, ← Option.some.inj hmem]
          exact List.mem_cons_self
  unfold Supply.next
  rw [hleading]
  dsimp only
  rw [htrailing]
  rfl

/-- The tokens of an assembly are those along the contexts in which the
parse consumed them. -/
theorem run_supply (inside : seam.lexer.IsInside) {contexts : List LexContext} {last : LexContext}
    (h : seam.EndsLate (contexts ++ [last])) {tokens : List (SyntaxKind × Nat)}
    (htokens : (tokens.map fun token => (token.1.lexeme?, token.2)) = seam.takes contexts) :
    (seam.supply (contexts ++ [last])).run seam.lexer.source tokens
      = (seam.leaves (tokens.map (·.1)) (contexts ++ [last]),
        (seam.along contexts).supply [last]) := by
  induction contexts generalizing seam tokens with
  | nil =>
    have hnil := List.map_eq_nil_iff.mp htokens
    rw [hnil]
    rfl
  | cons context rest ih =>
    obtain ⟨kind, stop, others, rfl⟩ : ∃ kind stop others, tokens = (kind, stop) :: others := by
      cases tokens with
      | nil => cases htokens
      | cons token others => exact ⟨token.1, token.2, others, rfl⟩
    obtain ⟨hfirst, hothers⟩ := List.cons.inj htokens
    have hstop : stop = (seam.current context).range.stop := congrArg Prod.snd hfirst
    have hsource : (seam.pass context).lexer.source = seam.lexer.source :=
      (reads_leg inside context).extends_.source
    have hrest := ih (isInside_pass inside context) h.2 hothers
    have hnext : (seam.supply (context :: (rest ++ [last]))).next seam.lexer.source kind stop
        = (seam.leaf kind context (rest ++ [last]), (seam.pass context).supply (rest ++ [last])) := by
      rw [hstop]
      exact next_supply inside h kind
    rw [hsource] at hrest
    rw [List.cons_append, Supply.run, hnext, hrest]
    rfl

/-! ### Whole sources -/

/-- At the start of a source there is no trailing trivia. -/
theorem trailing_ofSource (text file : Text) (contexts : List LexContext) :
    (ofSource text file).trailing contexts = [] := by
  cases contexts with
  | nil => rfl
  | cons context rest =>
    cases hgap : (ofSource text file).gap context with
    | nil => simp only [trailing, hgap, List.takeWhile_nil]
    | cons first others =>
      have hmem : first ∈ (ofSource text file).gap context := by
        rw [hgap]
        exact List.mem_cons_self
      have hfirst := Trivia.isTrailing_ofTokens_false first hmem
      simp only [trailing, hgap, List.takeWhile_cons, hfirst, Bool.false_eq_true, if_false]

/-- At the start the supply is all trivia of the source. -/
theorem supply_ofSource (text file : Text) (contexts : List LexContext) :
    (ofSource text file).supply contexts = ⟨(ofSource text file).ahead contexts, 0⟩ := by
  unfold supply
  rw [trailing_ofSource]
  rfl

/-- The leaves along contexts, with the last one taken apart. Nothing follows
it, so it has no trailing trivia. -/
theorem leaves_concat {kinds : List SyntaxKind} {contexts : List LexContext}
    (hlength : kinds.length = contexts.length) (kind : SyntaxKind) (last : LexContext) :
    seam.leaves (kinds ++ [kind]) (contexts ++ [last])
      = seam.leaves kinds (contexts ++ [last]) ++ [(seam.along contexts).leaf kind last []] := by
  induction contexts generalizing seam kinds with
  | nil =>
    rw [List.length_eq_zero_iff.mp hlength]
    rfl
  | cons context rest ih =>
    cases kinds with
    | nil => cases hlength
    | cons first kinds => exact congrArg (_ :: ·) (ih (Nat.succ.inj hlength))

/-- A token for each context. -/
theorem length_takes (contexts : List LexContext) :
    (seam.takes contexts).length = contexts.length := by
  induction contexts generalizing seam with
  | nil => rfl
  | cons context rest ih => exact congrArg (· + 1) ih

/-- The tokens of the tree of a whole source are those along the contexts
in which the parse consumed them, the end of the source included. -/
theorem leaves_outermost {text file : Text} {contexts : List LexContext} {last : LexContext}
    {sprout : Sprout} (hnode : sprout.isNode = true)
    (hpasses : (ofSource text file).Passes contexts)
    (hend : (((ofSource text file).along contexts).current last).kind = .eof)
    (htokens : (sprout.tokens.map fun token => (token.1.lexeme?, token.2))
      = (ofSource text file).takes contexts) :
    (Tree.outermost text sprout ⟨(ofSource text file).ahead (contexts ++ [last]), 0⟩).leaves
      = (ofSource text file).leaves (sprout.tokens.map (·.1) ++ [.token .eof])
          (contexts ++ [last]) := by
  have inside : (ofSource text file).lexer.IsInside := Nat.zero_le _
  have inside' := isInside_along inside contexts
  have hsource : ((ofSource text file).along contexts).lexer.source = text :=
    (reads_legs inside contexts).extends_.source
  have hlength : (sprout.tokens.map (·.1)).length = contexts.length := by
    have hlen := congrArg List.length htokens
    rw [List.length_map, length_takes] at hlen
    rw [List.length_map, hlen]
  have hrun := run_supply inside (hpasses.endsLate last) htokens
  have hstop : (((ofSource text file).along contexts).current last).range.stop = text.length := by
    rw [range_current_of_eof inside' hend, hsource]
    rfl
  have hnext := @next_supply ((ofSource text file).along contexts) last inside' []
    ⟨fun hne => absurd rfl hne, trivial⟩ (.token .eof)
  rw [hstop, hsource] at hnext
  rw [Tree.leaves_outermost hnode, ← supply_ofSource, leaves_concat hlength]
  have hrun' : ((ofSource text file).supply (contexts ++ [last])).run text sprout.tokens = _ := hrun
  rw [hrun']
  dsimp only
  rw [hnext]

end Seam

end MarkupSyntax
