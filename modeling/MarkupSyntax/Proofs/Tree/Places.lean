import MarkupSyntax.Proofs.Tree.Layout
import MarkupSyntax.Tree.Located

/-!
# `MarkupSyntax.Proofs.Tree.Places`: where the tokens of a tree lie

A tree keeps lengths only. A `Located` walk adds up the lengths of the
parts before, and this module proves that it arrives where the tokens
lie in the source: the tokens of the walk are those of the tree, each
where the one before stops (`Located.map_tokens`), and if they are the
tokens along some contexts (`Seam.leaves`), each has the range of its
token (`Located.IsNext.tokenRange`) and the trivia in front of and behind
it (`leadingTrivia_eq`, `trailingTrivia_eq`).

`Seam.Shows` relates the seams of a source to the tokens of a walk. What
is true of every token of a tree is proved once for a token next to a
seam (`Located.IsNext`), and for all of them by induction on `Shows`.
-/

set_option autoImplicit false

namespace MarkupSyntax

/-- A range is given by its start and its length. -/
theorem TextRange.ofLength_length (range : TextRange) :
    .ofLength range.start range.length = range := by
  obtain ⟨start, stop, hle⟩ := range
  show TextRange.mk start (start + (stop - start)) _ = _
  simp only [Nat.add_sub_cancel' hle]

namespace Text

/-- A slice that ends in the source is as long as its bounds say. -/
theorem length_slice_of_le {source : Text} {start stop : Nat} (h : stop ≤ source.length) :
    (source.slice start stop).length = stop - start := by
  unfold slice
  rw [List.length_take, List.length_drop]
  omega

/-- Two slices that touch are one. -/
theorem slice_append_slice {source : Text} {start middle stop : Nat} (h : start ≤ middle)
    (h' : middle ≤ stop) :
    source.slice start middle ++ source.slice middle stop = source.slice start stop := by
  have hmiddle : (source.drop start).drop (middle - start) = source.drop middle := by
    rw [List.drop_drop, Nat.add_sub_cancel' h]
  have hstop : stop - start = middle - start + (stop - middle) := by omega
  unfold slice
  rw [hstop, List.take_add, hmiddle]

end Text

namespace Trivia

variable {start stop : Nat} {pieces : List Trivia} {source : Text}

/-- The texts of a row of pieces, one after another, are the text that
the row covers. -/
theorem flatMap_sliceRange (h : Chain start pieces stop) :
    pieces.flatMap (fun piece => source.sliceRange piece.range) = source.slice start stop := by
  induction pieces generalizing start with
  | nil =>
    cases h
    simp [Text.slice]
  | cons piece rest ih =>
    have hle := piece.range.start_le_stop
    have hstop := h.2.add_length
    rw [List.flatMap_cons, ih h.2, ← h.1]
    exact Text.slice_append_slice hle (by omega)

end Trivia

namespace Located

/-! ### Tokens one after another -/

/-- Tokens with the offsets at which they start, each where the one
before stops. -/
def placed (start : Nat) : List Leaf → List (Nat × Leaf)
  | [] => []
  | leaf :: rest => (start, leaf) :: placed (start + leaf.length) rest

/-- The length of tokens that follow one another, trivia included. -/
def totalLength : List Leaf → Nat
  | [] => 0
  | leaf :: rest => leaf.length + totalLength rest

/-- The lengths of tokens one after another add up. -/
theorem totalLength_append (l l' : List Leaf) :
    totalLength (l ++ l') = totalLength l + totalLength l' := by
  induction l with
  | nil => simp [totalLength]
  | cons leaf rest ih =>
    simp only [List.cons_append, totalLength, ih]
    omega

/-- Tokens one after another are placed one after another. -/
theorem placed_append (start : Nat) (l l' : List Leaf) :
    placed start (l ++ l') = placed start l ++ placed (start + totalLength l) l' := by
  induction l generalizing start with
  | nil => rfl
  | cons leaf rest ih =>
    rw [List.cons_append, placed, placed, ih, totalLength, Nat.add_assoc]
    rfl

end Located

namespace Tree

mutual
/-- A part is as long as its tokens together. -/
theorem length_eq : ∀ tree : Tree, tree.length = Located.totalLength tree.leaves
  | node _ _ children => lengthList_eq children
  | leaf _ token => (Nat.add_zero token.length).symm

/-- The same for trees one after another. -/
theorem lengthList_eq : ∀ trees : List Tree,
    lengthList trees = Located.totalLength (leavesList trees)
  | [] => rfl
  | tree :: rest => by
    rw [lengthList, leavesList, Located.totalLength_append, length_eq tree, lengthList_eq rest]
end

end Tree

namespace Located

/-- What there is to know of a token in a walk: its source, where it
starts, and the token itself. -/
def place (part : Located) : Text × Nat × Option Leaf := (part.source, part.start, part.leaf?)

mutual
/-- The tokens of a walk over a tree stand where their lengths put them. The
walk goes through nodes, so the statement is about its tokens only. -/
theorem map_place_walk (source : Text) : ∀ (tree : Tree) (above : List Ancestor) (start : Nat),
    ((walk source above start tree).filter isLeaf).map place
      = (placed start tree.leaves).map fun item => (source, item.1, some item.2)
  | .leaf field token, above, start => rfl
  | .node field kind children, above, start => by
    rw [walk, List.filter_cons_of_neg (by exact Bool.false_ne_true)]
    exact map_place_walkList source children _ start above 0 start

/-- The same for the children of a node, the first of which starts where the
node does. -/
theorem map_place_walkList (source : Text) : ∀ (trees : List Tree) (parent : Tree)
    (parentStart : Nat) (above : List Ancestor) (index start : Nat),
    ((walkList source parent parentStart above index start trees).filter isLeaf).map place
      = (placed start (Tree.leavesList trees)).map fun item => (source, item.1, some item.2)
  | [], _, _, _, _, _ => rfl
  | tree :: rest, parent, parentStart, above, index, start => by
    rw [walkList, List.filter_append, List.map_append, map_place_walk source tree,
      map_place_walkList source rest, Tree.leavesList, placed_append, List.map_append,
      Tree.length_eq]
end

/-- The tokens of a part are those of its tree, each where the one before
stops. -/
theorem map_tokens (part : Located) :
    part.tokens.map place
      = (placed part.start part.tree.leaves).map fun item => (part.source, item.1, some item.2) :=
  map_place_walk part.source part.tree part.above part.start

/-- The texts of the tokens of a part are those of its tree. -/
theorem map_text_tokens (part : Located) :
    part.tokens.map text = part.tree.leaves.map (·.text) := by
  have hplaced : ∀ (leaves : List Leaf) (start : Nat), (placed start leaves).map (·.2) = leaves := by
    intro leaves
    induction leaves with
    | nil => exact fun _ => rfl
    | cons leaf rest ih => exact fun start => congrArg (leaf :: ·) (ih _)
  have hleaves : part.tokens.map leaf? = part.tree.leaves.map some := by
    have hplaces := congrArg (List.map (·.2.2)) part.map_tokens
    rw [List.map_map, List.map_map] at hplaces
    rw [← hplaced part.tree.leaves part.start, List.map_map]
    exact hplaces
  have htexts : part.tokens.map (some ∘ text) = part.tokens.map (Option.map (·.text) ∘ leaf?) := by
    refine List.map_congr_left fun token hmem => ?_
    obtain ⟨leaf, hleaf⟩ := Option.isSome_iff_exists.mp (List.mem_filter.mp hmem).2
    simp only [Function.comp_apply, text, hleaf, Option.map_some]
  refine List.map_injective_iff.mpr (Option.some_injective Text) ?_
  rw [List.map_map, htexts, ← List.map_map, hleaves, List.map_map, List.map_map]
  rfl

/-! ### The token next to a seam -/

/-- The part is the next token behind a seam, read in `context`; `rest`
are the contexts of the tokens behind it. -/
structure IsNext (part : Located) (seam : Seam) (context : LexContext) (rest : List LexContext) :
    Prop where
  source : part.source = seam.lexer.source
  start : part.start = (seam.supply (context :: rest)).position
  leaf : ∃ kind : SyntaxKind, kind.lexeme? = some (seam.current context).kind ∧
    part.leaf? = some (seam.leaf kind context rest)

/-- The texts of a row of pieces, read from the source by their
lengths. -/
theorem triviaTexts_of_chain {source : Text} {start stop : Nat} {pieces : List Trivia}
    (h : Trivia.Chain start pieces stop) :
    triviaTexts source start (pieces.map Trivia.piece)
      = pieces.map fun piece => (piece.kind, source.sliceRange piece.range) := by
  induction pieces generalizing start with
  | nil => rfl
  | cons piece rest ih =>
    have hle := piece.range.start_le_stop
    have hstop : start + piece.range.length = piece.range.stop := by
      unfold TextRange.length
      have := h.1
      omega
    rw [List.map_cons, triviaTexts]
    show (piece.kind, source.slice start (start + piece.range.length)) ::
      triviaTexts source (start + piece.range.length) _ = _
    rw [hstop, ih h.2, ← h.1]
    rfl

namespace IsNext

variable {part : Located} {seam : Seam} {context : LexContext} {rest : List LexContext}

/-- The kind is that of the lexer's token, or that of a name read as a
keyword. -/
theorem lexeme? (h : part.IsNext seam context rest) :
    part.kind.lexeme? = some (seam.current context).kind := by
  obtain ⟨kind, hkind, hleaf⟩ := h.leaf
  rw [← hkind]
  unfold leaf? at hleaf
  split at hleaf
  · rename_i htree
    rw [Located.kind, htree]
    exact congrArg (fun leaf => SyntaxKind.lexeme? leaf.kind) (Option.some.inj hleaf)
  · cases hleaf

/-- The text of the token is that between the ends of the lexer's current
token. -/
theorem text (h : part.IsNext seam context rest) :
    part.text = seam.lexer.source.sliceRange (seam.current context).range := by
  obtain ⟨kind, -, hleaf⟩ := h.leaf
  rw [Located.text, hleaf]
  rfl

/-- The token starts behind its leading trivia, where the lexer's does. -/
theorem tokenStart (h : part.IsNext seam context rest) (inside : seam.lexer.IsInside) :
    part.tokenStart = (seam.current context).range.start := by
  obtain ⟨kind, -, hleaf⟩ := h.leaf
  rw [Located.tokenStart, leadingLength, hleaf, h.start]
  exact (Seam.chain_leading inside rest).add_length

/-- The token has the range of the lexer's token. -/
theorem tokenRange (h : part.IsNext seam context rest) (inside : seam.lexer.IsInside) :
    part.tokenRange = (seam.current context).range := by
  have hstart := h.tokenStart inside
  obtain ⟨kind, -, hleaf⟩ := h.leaf
  have hlength : (part.leaf?.map (·.text.length)).getD 0 = (seam.current context).range.length := by
    rw [hleaf]
    exact Text.length_slice_of_le (Seam.stop_le inside)
  unfold Located.tokenRange
  rw [hstart, hlength, TextRange.ofLength_length]

/-- Its leading trivia is the part of the gap that the seam leaves to it. -/
theorem leadingTrivia_eq (h : part.IsNext seam context rest) (inside : seam.lexer.IsInside) :
    part.leadingTrivia
      = (seam.leading context).map fun piece => (piece.kind, part.source.sliceRange piece.range) := by
  obtain ⟨kind, -, hleaf⟩ := h.leaf
  rw [leadingTrivia, hleaf, h.start]
  exact triviaTexts_of_chain (Seam.chain_leading inside rest)

/-- Its trailing trivia is the part of the next gap in front of the line
break. -/
theorem trailingTrivia_eq (h : part.IsNext seam context rest) (inside : seam.lexer.IsInside) :
    part.trailingTrivia = ((seam.pass context).trailing rest).map
      fun piece => (piece.kind, part.source.sliceRange piece.range) := by
  have hrange := h.tokenRange inside
  obtain ⟨kind, -, hleaf⟩ := h.leaf
  rw [trailingTrivia, hleaf, hrange]
  exact triviaTexts_of_chain (Seam.chain_trailing (Seam.isInside_pass inside context) rest)

end IsNext

end Located

/-! ### The tokens along contexts -/

namespace Seam

variable {seam : Seam} {contexts : List LexContext} {parts : List Located}

/-- The parts are the tokens behind a seam, read in these contexts. -/
inductive Shows : Seam → List LexContext → List Located → Prop
  | done (seam : Seam) : Shows seam [] []
  | next {seam : Seam} {context : LexContext} {rest : List LexContext} {part : Located}
      {parts : List Located} (first : part.IsNext seam context rest)
      (later : Shows (seam.pass context) rest parts) : Shows seam (context :: rest) (part :: parts)

/-- A token with its trivia reaches to where the next one starts. -/
theorem add_length_leaf (inside : seam.lexer.IsInside) (kind : SyntaxKind) (context : LexContext)
    (rest : List LexContext) :
    (seam.supply (context :: rest)).position + (seam.leaf kind context rest).length
      = ((seam.pass context).supply rest).position := by
  have hleading := (@chain_leading seam context inside rest).add_length
  have htrailing := (chain_trailing (isInside_pass inside context) rest).add_length
  have htext : (seam.leaf kind context rest).text.length
      = (seam.current context).range.stop - (seam.current context).range.start :=
    Text.length_slice_of_le (stop_le inside)
  have hle := (seam.current context).range.start_le_stop
  rw [position_pass] at htrailing
  unfold Leaf.length
  rw [htext]
  show _ + (TriviaPiece.totalLength ((seam.leading context).map Trivia.piece) + _ +
    TriviaPiece.totalLength (((seam.pass context).trailing rest).map Trivia.piece)) = _
  omega

/-- The trailing trivia behind a seam stops before the last token along
the contexts does. -/
theorem position_supply_le (inside : seam.lexer.IsInside) (contexts : List LexContext) :
    (seam.supply contexts).position ≤ (seam.along contexts).lexer.position := by
  cases contexts with
  | nil => exact Nat.le_refl _
  | cons context rest =>
    have hleading := (@chain_leading seam context inside rest).add_length
    have hle := (seam.current context).range.start_le_stop
    have hrest := (reads_legs (isInside_pass inside context) rest).position_le
    rw [position_pass] at hrest
    show _ ≤ ((seam.pass context).along rest).lexer.position
    omega

/-- The tokens along contexts reach from one seam to the other. -/
theorem add_length_leaves (inside : seam.lexer.IsInside) {kinds : List SyntaxKind}
    (hlength : kinds.length = contexts.length) :
    (seam.supply contexts).position + Located.totalLength (seam.leaves kinds contexts)
      = (seam.along contexts).lexer.position := by
  induction contexts generalizing seam kinds with
  | nil =>
    rw [List.length_eq_zero_iff.mp hlength]
    rfl
  | cons context rest ih =>
    cases kinds with
    | nil => cases hlength
    | cons kind kinds =>
      have hrest := ih (isInside_pass inside context) (Nat.succ.inj hlength)
      rw [leaves, Located.totalLength, ← Nat.add_assoc, add_length_leaf inside, hrest]
      rfl

/-- A walk over the tokens along contexts shows them. -/
theorem shows_of_map_place (inside : seam.lexer.IsInside) {kinds : List SyntaxKind}
    (hkinds : kinds.map SyntaxKind.lexeme? = (seam.takes contexts).map (·.1))
    (hparts : parts.map Located.place
      = (Located.placed (seam.supply contexts).position (seam.leaves kinds contexts)).map
          fun item => (seam.lexer.source, item.1, some item.2)) :
    seam.Shows contexts parts := by
  -- One context is one step of the reader and one leaf, so the three lists go down together.
  induction contexts generalizing seam kinds parts with
  | nil =>
    have hnone : seam.leaves kinds [] = [] := by
      cases kinds <;> rfl
    rw [hnone] at hparts
    rw [List.map_eq_nil_iff.mp hparts]
    exact .done seam
  | cons context rest ih =>
    obtain ⟨kind, others, rfl⟩ : ∃ kind others, kinds = kind :: others := by
      cases kinds with
      | nil => cases hkinds
      | cons kind others => exact ⟨kind, others, rfl⟩
    obtain ⟨part, later, rfl⟩ : ∃ part later, parts = part :: later := by
      cases parts with
      | nil => cases hparts
      | cons part later => exact ⟨part, later, rfl⟩
    obtain ⟨hkind, hothers⟩ := List.cons.inj hkinds
    obtain ⟨hpart, hlater⟩ := List.cons.inj hparts
    -- The place of the first part has all that the reader's first token says about it.
    obtain ⟨hsource, hstart, hleaf⟩ : part.source = seam.lexer.source ∧
        part.start = (seam.supply (context :: rest)).position ∧
        part.leaf? = some (seam.leaf kind context rest) := by
      simpa only [Located.place, Prod.mk.injEq] using hpart
    have hsource' : (seam.pass context).lexer.source = seam.lexer.source :=
      (reads_leg inside context).extends_.source
    refine .next ⟨hsource, hstart, kind, hkind, hleaf⟩
      (ih (isInside_pass inside context) hothers ?_)
    rw [hsource', ← add_length_leaf inside kind]
    exact hlater

/-- The texts of the tokens with their trivia, one after another, are the
source from the first token on. -/
theorem Shows.flatMap_text (h : seam.Shows contexts parts) (inside : seam.lexer.IsInside) :
    parts.flatMap (fun part => part.leadingTrivia.flatMap (·.2) ++ part.text ++
        part.trailingTrivia.flatMap (·.2))
      = seam.lexer.source.slice (seam.supply contexts).position
          (seam.along contexts).lexer.position := by
  induction h with
  | done seam => simp [Text.slice, supply, trailing, TriviaPiece.totalLength]
  | @next seam context rest part parts first later ih =>
    have inside' := isInside_pass inside context
    have hsource : (seam.pass context).lexer.source = seam.lexer.source :=
      (reads_leg inside context).extends_.source
    have hleading := @chain_leading seam context inside rest
    have htrailing := chain_trailing inside' rest
    have hle := (seam.current context).range.start_le_stop
    have hend := position_supply_le inside' rest
    have hlength := hleading.add_length
    have hlength' := htrailing.add_length
    rw [List.flatMap_cons, ih inside', first.leadingTrivia_eq inside,
      first.trailingTrivia_eq inside, first.text, first.source, hsource, List.flatMap_map,
      List.flatMap_map, Trivia.flatMap_sliceRange hleading, Trivia.flatMap_sliceRange htrailing]
    show seam.lexer.source.slice _ _ ++ seam.lexer.source.slice _ _ ++ seam.lexer.source.slice _ _ ++
      seam.lexer.source.slice _ _ = _
    rw [position_pass] at hlength' ⊢
    rw [Text.slice_append_slice (by omega) hle, Text.slice_append_slice (by omega) (by omega),
      Text.slice_append_slice (by omega) (by omega)]
    rfl

end Seam

end MarkupSyntax
