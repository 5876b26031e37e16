import MarkupSyntax.Proofs.Tree.Bare
import MarkupSyntax.Proofs.Tree.Lookup
import MarkupSyntax.Proofs.Tree.Runs

/-!
# `MarkupSyntax.Proofs.Tree.Spans`: the parts of a text that parts of a tree hold

What a run of text stands for depends on the white space between its
tokens, which a tree without trivia (`Located.bare`) has lost.
`Located.Spans` keeps both sides together: the trees of some parts, and
the pieces of the text that their tokens are. It is taken apart along a
tree: parts that follow one another span pieces that follow one another
(`Spans.split`), and the children of a node span what the node spans
(`Spans.children`). At the bottom is a run, which stands for what its
pieces stand for (`Spans.readRun`).
-/

set_option autoImplicit false

namespace MarkupSyntax

variable {seam : Seam} {contexts : List LexContext}

/-- The first parts that a seam shows are shown by it, the others by the
seam behind them. -/
theorem Seam.Shows.split {front back : List LexContext} {parts others : List Located}
    (h : seam.Shows (front ++ back) (parts ++ others)) (hlength : parts.length = front.length) :
    (seam.along front).Shows back others := by
  induction front generalizing seam parts with
  | nil =>
    rw [List.length_eq_zero_iff.mp hlength] at h
    exact h
  | cons context front ih =>
    cases parts with
    | nil => cases hlength
    | cons part parts =>
      cases h with
      | next _ later => exact ih later (Nat.succ.inj hlength)

/-- Behind the tokens of a text stands its rest. -/
theorem Seam.behind_along {pieces : List Piece} {rest : Text} (inside : seam.lexer.IsInside)
    (h : Consists seam.behind pieces rest) :
    (seam.along (pieces.map (·.lexed.context))).behind = rest := by
  generalize htext : seam.behind = text at h
  induction h generalizing seam with
  | nil => exact htext
  | cons first _ ih =>
    rw [← htext] at first
    exact ih (isInside_pass inside _) (behind_pass_of_scans inside first)

namespace Located

variable {parts : List Located} {trees trees' : List Tree} {pieces pieces' : List Piece}

/-! ### Tokens of children -/

/-- A part has as many tokens as its tree. -/
theorem length_tokens (part : Located) : part.tokens.length = part.bare.leaves.length := by
  have hplaced : ∀ (leaves : List Leaf) (start : Nat),
      (placed start leaves).length = leaves.length := by
    intro leaves
    induction leaves with
    | nil => exact fun _ => rfl
    | cons leaf rest ih => exact fun start => congrArg Nat.succ (ih _)
  have h := congrArg List.length part.map_tokens
  rwa [List.length_map, List.length_map, hplaced, ← List.length_map (f := Leaf.bare),
    ← Tree.leaves_bare] at h

/-- Parts have as many tokens as their trees have leaves. -/
theorem length_flatMap_tokens (parts : List Located) :
    (parts.flatMap tokens).length = (Tree.leavesList (parts.map bare)).length := by
  induction parts with
  | nil => rfl
  | cons part rest ih =>
    rw [List.flatMap_cons, List.map_cons, Tree.leavesList, List.length_append, List.length_append,
      length_tokens, ih]

/-! ### Spans -/

/-- The parts have these trees, and their tokens are these pieces of a
text. -/
structure Spans (parts : List Located) (trees : List Tree) (pieces : List Piece) : Prop where
  bare : parts.map bare = trees.map Tree.bare
  shown : ∃ (seam : Seam) (rest : Text) (contexts : List LexContext) (others : List Located),
    seam.lexer.IsInside ∧ Consists seam.behind pieces rest ∧
      seam.Shows (pieces.map (·.lexed.context) ++ contexts) (parts.flatMap tokens ++ others)

namespace Spans

/-- Parts that follow one another span pieces that follow one another. -/
theorem split (h : Spans parts (trees ++ trees') (pieces ++ pieces'))
    (hlength : (Tree.leavesList trees).length = pieces.length) :
    ∃ front back, parts = front ++ back ∧ Spans front trees pieces ∧ Spans back trees' pieces' := by
  obtain ⟨hbare, seam, rest, contexts, others, inside, hconsists, hshows⟩ := h
  rw [List.map_append] at hbare
  obtain ⟨front, back, rfl, hfront, hback⟩ := List.map_eq_append_iff.mp hbare
  obtain ⟨middle, hconsists, hconsists'⟩ := hconsists.of_append
  rw [List.map_append, List.append_assoc, List.flatMap_append, List.append_assoc] at hshows
  have hsame : (front.flatMap tokens).length = pieces.length := by
    rw [length_flatMap_tokens, hfront, ← Tree.bareList_eq_map, Tree.leavesList_bareList,
      List.length_map, hlength]
  refine ⟨front, back, rfl, ⟨hfront, seam, middle, _, _, inside, hconsists, hshows⟩, hback, ?_⟩
  have hbehind := Seam.behind_along inside hconsists
  rw [← hbehind] at hconsists'
  refine ⟨_, rest, _, _, Seam.isInside_along inside _, hconsists',
    hshows.split (by rw [hsame, List.length_map])⟩

/-- What spans one tree is one part. -/
theorem exists_eq_singleton {tree : Tree} (h : Spans parts [tree] pieces) :
    ∃ part, parts = [part] := by
  have hone := congrArg List.length h.bare
  rw [List.length_map, List.length_map] at hone
  exact List.length_eq_one_iff.mp hone

/-- The first part spans the first pieces. -/
theorem cons {tree : Tree} (h : Spans parts (tree :: trees) (pieces ++ pieces'))
    (hlength : tree.leaves.length = pieces.length) :
    ∃ part rest, parts = part :: rest ∧ Spans [part] [tree] pieces ∧ Spans rest trees pieces' := by
  rw [← List.singleton_append] at h
  obtain ⟨front, back, rfl, hfront, hback⟩ := h.split (by
    rw [Tree.leavesList, Tree.leavesList, List.append_nil, hlength])
  obtain ⟨part, rfl⟩ := hfront.exists_eq_singleton
  exact ⟨part, back, rfl, hfront, hback⟩

/-- Parts of one tree each span the pieces of their trees. -/
theorem forall₂ {α : Type} {tree : α → Tree} {tokens : α → List Lexed} {items : List α}
    (hlength : ∀ item, (tree item).leaves.length = (tokens item).length)
    (hpieces : pieces.map (·.lexed) = items.flatMap tokens) (h : Spans parts (items.map tree) pieces) :
    List.Forall₂ (fun item part => ∃ pieces, pieces.map (·.lexed) = tokens item ∧
      Spans [part] [tree item] pieces) items parts := by
  induction items generalizing parts pieces with
  | nil =>
    rw [List.map_eq_nil_iff.mp h.bare]
    exact .nil
  | cons item items ih =>
    rw [List.flatMap_cons] at hpieces
    obtain ⟨front, back, rfl, hfront, hback⟩ := List.map_eq_append_iff.mp hpieces
    have hsame : (tree item).leaves.length = front.length := by
      rw [hlength, ← hfront, List.length_map]
    obtain ⟨part, others, rfl, hpart, hothers⟩ := h.cons hsame
    exact .cons ⟨front, hfront, hpart⟩ (ih hback hothers)

section Node

variable {part : Located} {field : Option String} {kind : SyntaxKind}

/-- The part has the kind of the tree. -/
theorem kind_eq {tree : Tree} (h : Spans [part] [tree] pieces) : part.kind = tree.kind := by
  have hbare : part.bare = tree.bare := (List.cons.inj h.bare).1
  rw [← kind_bare, hbare, Tree.kind_bare]

/-- The part is in the field of the tree. -/
theorem field_eq {tree : Tree} (h : Spans [part] [tree] pieces) : part.field? = tree.field? := by
  have hbare : part.bare = tree.bare := (List.cons.inj h.bare).1
  rw [← field_bare, hbare, Tree.field_bare]

/-- A part that spans a node is one. -/
theorem isNode_eq_true (h : Spans [part] [.node field kind trees] pieces) : part.isNode = true := by
  have hbare : part.tree.bare = Tree.bare (.node field kind trees) := (List.cons.inj h.bare).1
  unfold isNode leaf?
  cases htree : part.tree with
  | node => rfl
  | leaf =>
    rw [htree] at hbare
    cases hbare

/-- A part that spans a token is one. -/
theorem isNode_eq_false {token : Leaf} (h : Spans [part] [.leaf field token] pieces) :
    part.isNode = false := by
  have hbare : part.tree.bare = Tree.bare (.leaf field token) := (List.cons.inj h.bare).1
  unfold isNode leaf?
  cases htree : part.tree with
  | leaf => rfl
  | node =>
    rw [htree] at hbare
    cases hbare

/-- The children of a node span what the node spans. -/
theorem children (h : Spans [part] [.node field kind trees] pieces) :
    Spans part.children trees pieces := by
  have hbare : part.bare = Tree.bare (.node field kind trees) := (List.cons.inj h.bare).1
  refine ⟨?_, ?_⟩
  · rw [map_bare_children, hbare, Tree.children_bare]
    rfl
  · have hshown := h.shown
    rwa [List.flatMap_singleton, tokens_of_isNode h.isNode_eq_true] at hshown

/-- The tokens of a part have the texts of its tree. -/
theorem map_text_tokens {tree : Tree} (h : Spans [part] [tree] pieces) :
    part.tokens.map Located.text = tree.leaves.map (·.text) := by
  have hbare : part.tree.bare = tree.bare := (List.cons.inj h.bare).1
  have htexts := congrArg (fun tree : Tree => tree.leaves.map (·.text)) hbare
  simp only [Tree.leaves_bare, List.map_map] at htexts
  rw [Located.map_text_tokens]
  exact htexts

/-- The token of a node that is made of one. -/
theorem exists_firstToken? {field' : Option String} {token : Leaf}
    (h : Spans [part] [.node field kind [.leaf field' token]] pieces) :
    ∃ first, part.firstToken? = some first ∧ first.kind = token.kind ∧ first.text = token.text := by
  obtain ⟨first, hchildren⟩ := h.children.exists_eq_singleton
  have hspans := h.children
  rw [hchildren] at hspans
  have htokens : first.tokens = [first] := tokens_of_isNode_eq_false hspans.isNode_eq_false
  have htexts := hspans.map_text_tokens
  rw [htokens] at htexts
  refine ⟨first, ?_, hspans.kind_eq, (List.cons.inj htexts).1⟩
  rw [firstToken?_eq_head?, tokens_of_isNode h.isNode_eq_true, hchildren]
  simp [htokens]

/-- A raw run is read as the texts of its tokens. -/
theorem readRun_raw (h : Spans [part] [.node field .rawTextRun trees] pieces) :
    part.readRun = .ok ((Tree.leavesList trees).flatMap (·.text)) := by
  have hkind : part.kind = .rawTextRun := h.kind_eq
  have htext : part.runText = (Tree.leavesList trees).flatMap (·.text) := by
    rw [Located.runText, if_pos hkind, List.flatMap_def, h.map_text_tokens, List.flatMap_def]
    rfl
  rw [readRun, runFault?, if_pos hkind, htext]

/-- A run of text is read as what its pieces stand for, if none of them is
a reference with too many digits. -/
theorem readRun (h : Spans [part] [.node field kind trees] pieces) (hraw : kind ≠ .rawTextRun)
    (hgap : ∀ piece ∈ pieces.head?, piece.gap = [])
    (hlength : (Tree.leavesList trees).length = pieces.length)
    (hreadable : ∀ piece ∈ pieces, piece.lexed.kind = .entity →
      References.longNumber? piece.lexed.text = none) :
    part.readRun = .ok (pieces.flatMap Piece.value) := by
  have hkind : part.kind = kind := h.kind_eq
  obtain ⟨hbare, seam, rest, contexts, others, inside, hconsists, hshows⟩ := h
  have hbare : part.bare = Tree.bare (.node field kind trees) := (List.cons.inj hbare).1
  have hsame : part.tokens.length = pieces.length := by
    rw [length_tokens, hbare, Tree.leaves_bare, List.length_map]
    exact hlength
  rw [List.flatMap_singleton] at hshows
  have hnone : part.runFault? = none := by
    rw [runFault?, if_neg (hkind ▸ hraw), List.findSome?_eq_none_iff]
    intro token hmem
    obtain ⟨hmem, hentity⟩ := List.mem_filter.mp hmem
    rw [Seam.longNumber?_of_shows inside hconsists hshows hsame hreadable token hmem
      (of_decide_eq_true hentity), Option.map_none]
  have htext : part.runText = pieces.flatMap Piece.value := by
    rw [Located.runText, if_neg (hkind ▸ hraw)]
    exact Seam.joinedText_of_shows inside hconsists hshows hsame hgap
  rw [Located.readRun, hnone, htext]

/-- Where no tree is in a field, no part is. -/
theorem find?_field_eq_none {name : String} (h : Spans parts trees pieces)
    (hfields : ∀ tree ∈ trees, tree.field? ≠ some name) :
    parts.find? (fun part => part.field? = some name) = none := by
  refine List.find?_eq_none.mpr fun part hmem hpart => ?_
  have hbare : part.bare ∈ trees.map Tree.bare := h.bare ▸ List.mem_map_of_mem hmem
  obtain ⟨tree, htree, hbare⟩ := List.mem_map.mp hbare
  refine hfields tree htree ?_
  rw [← Tree.field_bare, hbare, Located.field_bare]
  exact of_decide_eq_true hpart

/-- The part in a field is the first that has this field. -/
theorem exists_child? (name : String) {tree : Tree} {pieces'' : List Piece}
    (h : Spans part.children (trees ++ tree :: trees') (pieces ++ (pieces' ++ pieces'')))
    (hfront : ∀ other ∈ trees, other.field? ≠ some name) (hfield : tree.field? = some name)
    (hlength : (Tree.leavesList trees).length = pieces.length)
    (hlength' : tree.leaves.length = pieces'.length) :
    ∃ child, part.child? name = some child ∧ Spans [child] [tree] pieces' := by
  obtain ⟨front, back, hchildren, hspans, hback⟩ := h.split hlength
  obtain ⟨child, others, rfl, hchild, -⟩ := hback.cons hlength'
  have hnone := hspans.find?_field_eq_none hfront
  refine ⟨child, ?_, hchild⟩
  have hsame : child.field? = some name := hchild.field_eq.trans hfield
  rw [Located.child?, hchildren, List.find?_append, hnone, List.find?_cons, hsame]
  simp

end Node

end Spans

end Located

end MarkupSyntax
