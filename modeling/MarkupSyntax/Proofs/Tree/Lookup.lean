import Mathlib.Data.List.Basic
import MarkupSyntax.Tree.Located

/-!
# `MarkupSyntax.Proofs.Tree.Lookup`: finding the part at an offset

The tokens of a tree tile it, so for every offset inside there is one
token that covers it, and going down from the root to whichever child
covers the offset arrives at the node above that token
(`Located.exists_finds`). The first token and the last one of a node are
found by recursion as well, from the two sides; they are the two ends of
its list of tokens and of its range (`Located.ends`).

Nodes without tokens and tokens without text are empty ranges: they cover
nothing, and stand anywhere between the others. Nothing here asks how a
tree came about, nor what its source is.

The functions recurse on trees, with the place as an argument. They are
described here by what they do with the children of a part
(`parts_eq`, `firstToken?_of_isNode`, `nodeAt_eq`), and the proofs go by
induction on the children (`induction_on_children`).
-/

set_option autoImplicit false

namespace MarkupSyntax

/-! ### Ranges side by side -/

namespace TextRange

variable {start middle stop offset : Nat} {ranges ranges' : List TextRange}

/-- The ranges follow one another without a gap, from one offset to
another. -/
def Tile : Nat → List TextRange → Nat → Prop
  | start, [], stop => start = stop
  | start, range :: rest, stop => range.start = start ∧ Tile range.stop rest stop

/-- Ranges that tile up to a place are followed by ranges that tile from
there. -/
theorem Tile.append (h : Tile start ranges middle) (h' : Tile middle ranges' stop) :
    Tile start (ranges ++ ranges') stop := by
  induction ranges generalizing start with
  | nil =>
    have heq : start = middle := h
    rwa [heq]
  | cons range rest ih => exact ⟨h.1, ih h.2⟩

/-- Tiles go forward. -/
theorem Tile.start_le_stop (h : Tile start ranges stop) : start ≤ stop := by
  induction ranges generalizing start with
  | nil => exact Nat.le_of_eq h
  | cons range rest ih =>
    have hrest := ih h.2
    have hle := range.start_le_stop
    rw [← h.1]
    omega

/-- Each range lies between the two offsets. -/
theorem Tile.within (h : Tile start ranges stop) :
    ∀ range ∈ ranges, start ≤ range.start ∧ range.stop ≤ stop := by
  induction ranges generalizing start with
  | nil => exact fun range hmem => nomatch hmem
  | cons range rest ih =>
    intro other hmem
    have hle := range.start_le_stop
    rcases List.mem_cons.mp hmem with rfl | hmem
    · exact ⟨Nat.le_of_eq h.1.symm, h.2.start_le_stop⟩
    · have hother := ih h.2 other hmem
      rw [← h.1]
      exact ⟨Nat.le_trans hle hother.1, hother.2⟩

/-- The last range stops where all of them do. -/
theorem Tile.stop_getLast? {last : TextRange} (h : Tile start ranges stop)
    (hlast : ranges.getLast? = some last) : last.stop = stop := by
  obtain ⟨front, rfl⟩ := List.getLast?_eq_some_iff.mp hlast
  induction front generalizing start with
  | nil => exact h.2
  | cons range rest ih => exact ih h.2 (by simp)

end TextRange

namespace Located

variable {part child : Located} {parts : List Located} {start stop offset : Nat}

/-- A part covers the offsets of its text with its trivia, the last one
excluded. -/
theorem covers_iff : part.covers offset = true ↔ part.start ≤ offset ∧ offset < part.stop := by
  show (decide (part.start ≤ offset) && decide (offset < part.stop)) = true ↔ _
  rw [Bool.and_eq_true, decide_eq_true_iff, decide_eq_true_iff]

/-- Of parts side by side one covers an offset between their ends, and no
other does. -/
theorem exists_filter_covers (h : TextRange.Tile start (parts.map range) stop)
    (hstart : start ≤ offset) (hstop : offset < stop) :
    ∃ part, parts.filter (·.covers offset) = [part] := by
  induction parts generalizing start with
  | nil =>
    have heq : start = stop := h
    omega
  | cons part rest ih =>
    have hpart : part.start = start := h.1
    by_cases hbefore : offset < part.stop
    · -- The parts behind the first start too late.
      refine ⟨part, ?_⟩
      have hrest : ∀ other ∈ rest, ¬ other.covers offset = true := by
        intro other hmem hcovers
        have hwithin := h.2.within _ (List.mem_map_of_mem hmem)
        have hle : part.stop ≤ other.start := hwithin.1
        have := (covers_iff.mp hcovers).1
        omega
      have hcovers : part.covers offset = true := covers_iff.mpr ⟨by omega, hbefore⟩
      rw [List.filter_cons_of_pos (p := fun part : Located => part.covers offset) hcovers,
        List.filter_eq_nil_iff.mpr hrest]
    · obtain ⟨found, hfound⟩ := ih h.2 (Nat.not_lt.mp hbefore)
      have hcovers : ¬ part.covers offset = true := fun hcovers =>
        hbefore (covers_iff.mp hcovers).2
      refine ⟨found, ?_⟩
      rw [List.filter_cons_of_neg (p := fun part : Located => part.covers offset) hcovers, hfound]

/-- So a part that covers the offset is the only one. -/
theorem filter_covers_eq (h : TextRange.Tile start (parts.map range) stop) (hmem : part ∈ parts)
    (hcovers : part.covers offset = true) : parts.filter (·.covers offset) = [part] := by
  have hwithin := h.within _ (List.mem_map_of_mem hmem)
  have hbounds := covers_iff.mp hcovers
  obtain ⟨found, hfound⟩ := exists_filter_covers h (Nat.le_trans hwithin.1 hbounds.1)
    (Nat.lt_of_lt_of_le hbounds.2 hwithin.2)
  have heq : part ∈ [found] := hfound ▸ List.mem_filter.mpr ⟨hmem, hcovers⟩
  rw [hfound, List.mem_singleton.mp heq]

/-! ### Children -/

/-- The children follow one another from the start of the part. -/
theorem tile_childrenFrom (node : Located) (index start : Nat) (trees : List Tree) :
    TextRange.Tile start ((node.childrenFrom index start trees).map range)
      (start + Tree.lengthList trees) := by
  induction trees generalizing index start with
  | nil => rfl
  | cons tree rest ih =>
    refine ⟨rfl, ?_⟩
    rw [Tree.lengthList, ← Nat.add_assoc]
    exact ih (index + 1) (start + tree.length)

/-- The children of a node tile it. -/
theorem tile_children (h : part.isNode = true) :
    TextRange.Tile part.start (part.children.map range) part.stop := by
  obtain ⟨source, tree, start, above⟩ := part
  cases tree with
  | node field kind children => exact tile_childrenFrom _ 0 start children
  | leaf => cases h

/-- A child at its place knows the node above it. -/
theorem mem_childrenFrom {node : Located} {index start : Nat} {trees : List Tree}
    (h : child ∈ node.childrenFrom index start trees) :
    child.tree ∈ trees ∧ child.parent? = some node ∧ child.above.length = node.above.length + 1 := by
  induction trees generalizing index start with
  | nil => cases h
  | cons tree rest ih =>
    rcases List.mem_cons.mp h with rfl | hmem
    · exact ⟨List.mem_cons_self, rfl, rfl⟩
    · obtain ⟨htree, hparent, hdepth⟩ := ih hmem
      exact ⟨List.mem_cons_of_mem tree htree, hparent, hdepth⟩

/-- The parent of a child is the part that it is a child of. -/
theorem parent?_of_mem_children (h : child ∈ part.children) : child.parent? = some part :=
  (mem_childrenFrom h).2.1

/-- A child has one node more above it. -/
theorem depth_of_mem_children (h : child ∈ part.children) :
    child.above.length = part.above.length + 1 :=
  (mem_childrenFrom h).2.2

/-- What is true of a part if it is true of its children is true of every
part. -/
theorem induction_on_children {motive : Located → Prop}
    (step : ∀ part : Located, (∀ child ∈ part.children, motive child) → motive part)
    (part : Located) : motive part := by
  generalize hsize : sizeOf part.tree = size
  induction size using Nat.strongRecOn generalizing part with
  | ind size ih =>
    refine step part fun child hmem => ih _ ?_ child rfl
    have htree := (mem_childrenFrom hmem).1
    obtain ⟨source, tree, start, above⟩ := part
    cases tree with
    | node field kind children =>
      have hlt := List.sizeOf_lt_of_mem htree
      rw [← hsize]
      simp only [Tree.children, Tree.node.sizeOf_spec] at hlt ⊢
      omega
    | leaf => cases htree

/-! ### The recursions, by children -/

/-- The parts of a part are itself and those of its children. -/
theorem parts_eq (part : Located) :
    part.parts = part :: part.children.flatMap Located.parts := by
  have hlist : ∀ (trees : List Tree) (index start : Nat),
      walkList part.source part.tree part.start part.above index start trees
        = (part.childrenFrom index start trees).flatMap Located.parts := by
    intro trees
    induction trees with
    | nil => exact fun _ _ => rfl
    | cons tree rest ih =>
      intro index start
      rw [walkList, childrenFrom, List.flatMap_cons, ih]
      rfl
  obtain ⟨source, tree, start, above⟩ := part
  cases tree with
  | leaf => rfl
  | node field kind children => exact congrArg (List.cons _) (hlist children 0 start)

/-- A part is a token or a node. -/
theorem isLeaf_eq_not_isNode (part : Located) : part.isLeaf = !part.isNode := by
  unfold isLeaf isNode
  cases part.leaf? <;> rfl

/-- The tokens of a node are those of its children. -/
theorem tokens_of_isNode (h : part.isNode = true) :
    part.tokens = part.children.flatMap tokens := by
  have hleaf : ¬ part.isLeaf = true := by
    rw [isLeaf_eq_not_isNode, h]
    exact Bool.false_ne_true
  rw [tokens, parts_eq, List.filter_cons_of_neg hleaf, List.filter_flatMap]
  rfl

/-- A token has itself alone. -/
theorem tokens_of_isNode_eq_false (h : part.isNode = false) : part.tokens = [part] := by
  obtain ⟨source, tree, start, above⟩ := part
  cases tree with
  | leaf => rfl
  | node => cases h

/-- The nodes of a node are itself and those of its children. -/
theorem nodes_of_isNode (h : part.isNode = true) :
    part.nodes = part :: part.children.flatMap nodes := by
  rw [nodes, parts_eq, List.filter_cons_of_pos h, List.filter_flatMap]
  rfl

/-- There is no node in a token. -/
theorem nodes_of_isNode_eq_false (h : part.isNode = false) : part.nodes = [] := by
  obtain ⟨source, tree, start, above⟩ := part
  cases tree with
  | leaf => rfl
  | node => cases h

/-- The tokens of a node below a part are tokens of the part. -/
theorem mem_tokens_of_mem_nodes {node token : Located} (h : node ∈ part.nodes)
    (htoken : token ∈ node.tokens) : token ∈ part.tokens := by
  induction part using induction_on_children with
  | step part ih =>
    cases hnode : part.isNode with
    | true =>
      rw [nodes_of_isNode hnode] at h
      rcases List.mem_cons.mp h with rfl | hmem
      · exact htoken
      · obtain ⟨child, hchild, hmem⟩ := List.mem_flatMap.mp hmem
        rw [tokens_of_isNode hnode]
        exact List.mem_flatMap_of_mem hchild (ih child hchild hmem)
    | false =>
      rw [nodes_of_isNode_eq_false hnode] at h
      cases h

/-- The first token of a node is that of its first child that has one. -/
theorem firstToken?_of_isNode (h : part.isNode = true) :
    part.firstToken? = part.children.findSome? firstToken? := by
  have hlist : ∀ (trees : List Tree) (index start : Nat),
      firstOfList part.source part.tree part.start part.above index start trees
        = (part.childrenFrom index start trees).findSome? firstToken? := by
    intro trees
    induction trees with
    | nil => exact fun _ _ => rfl
    | cons tree rest ih =>
      intro index start
      rw [firstOfList, childrenFrom, List.findSome?_cons, ih, firstToken?]
      cases firstOf _ _ _ _ <;> rfl
  obtain ⟨source, tree, start, above⟩ := part
  cases tree with
  | leaf => cases h
  | node field kind children => exact hlist children 0 start

/-- The last token of a node is that of its last child that has one. -/
theorem lastToken?_of_isNode (h : part.isNode = true) :
    part.lastToken? = part.children.reverse.findSome? lastToken? := by
  have hlist : ∀ (trees : List Tree) (index start : Nat),
      lastOfList part.source part.tree part.start part.above index start trees
        = (part.childrenFrom index start trees).reverse.findSome? lastToken? := by
    intro trees
    induction trees with
    | nil => exact fun _ _ => rfl
    | cons tree rest ih =>
      intro index start
      rw [lastOfList, childrenFrom, List.reverse_cons, List.findSome?_append, ih,
        List.findSome?_singleton]
      rfl
  obtain ⟨source, tree, start, above⟩ := part
  cases tree with
  | leaf => cases h
  | node field kind children => exact hlist children 0 start

/-- The search for a node goes on in the first child node that covers the
offset, and stops where there is none. -/
theorem nodeAt_eq (part : Located) (offset : Nat) :
    part.nodeAt offset
      = ((part.children.find? fun child => child.isNode && child.covers offset).map
          (·.nodeAt offset)).getD part := by
  have hlist : ∀ (trees : List Tree) (index start : Nat),
      descendList offset part.source part.tree part.start part.above index start trees
        = ((part.childrenFrom index start trees).find?
            fun child => child.isNode && child.covers offset).map (·.nodeAt offset) := by
    intro trees
    induction trees with
    | nil => exact fun _ _ => rfl
    | cons tree rest ih =>
      intro index start
      rw [descendList, childrenFrom, List.find?_cons, ih]
      split
      · rename_i hchild
        rw [hchild]
        rfl
      · rename_i hchild
        rw [Bool.eq_false_iff.mpr hchild]
  obtain ⟨source, tree, start, above⟩ := part
  cases tree with
  | leaf => rfl
  | node field kind children => exact congrArg (Option.getD · _) (hlist children 0 start)

/-! ### The two ends of a node -/

/-- The first token of a part is the first of its tokens. -/
theorem firstToken?_eq_head? (part : Located) : part.firstToken? = part.tokens.head? := by
  induction part using induction_on_children with
  | step part ih =>
    cases hnode : part.isNode with
    | true =>
      rw [firstToken?_of_isNode hnode, tokens_of_isNode hnode, List.head?_flatMap,
        ← List.head?_filterMap, ← List.head?_filterMap, List.filterMap_congr ih]
    | false =>
      rw [tokens_of_isNode_eq_false hnode]
      obtain ⟨source, tree, start, above⟩ := part
      cases tree with
      | leaf => rfl
      | node => cases hnode

/-- The last token of a part is the last of its tokens. -/
theorem lastToken?_eq_getLast? (part : Located) : part.lastToken? = part.tokens.getLast? := by
  induction part using induction_on_children with
  | step part ih =>
    cases hnode : part.isNode with
    | true =>
      have hchildren : ∀ child ∈ part.children.reverse, child.lastToken? = child.tokens.getLast? :=
        fun child hmem => ih child (List.mem_reverse.mp hmem)
      rw [lastToken?_of_isNode hnode, tokens_of_isNode hnode, List.getLast?_flatMap,
        ← List.head?_filterMap, ← List.head?_filterMap, List.filterMap_congr hchildren]
    | false =>
      rw [tokens_of_isNode_eq_false hnode]
      obtain ⟨source, tree, start, above⟩ := part
      cases tree with
      | leaf => rfl
      | node => cases hnode

/-- Parts side by side, each tiled by its tokens, are tiled by the tokens
of all of them. -/
theorem tile_flatMap_tokens (h : TextRange.Tile start (parts.map range) stop)
    (hparts : ∀ part ∈ parts, TextRange.Tile part.start (part.tokens.map range) part.stop) :
    TextRange.Tile start ((parts.flatMap tokens).map range) stop := by
  induction parts generalizing start with
  | nil => exact h
  | cons part rest ih =>
    have hpart := hparts part List.mem_cons_self
    have hstart : part.start = start := h.1
    rw [List.flatMap_cons, List.map_append, ← hstart]
    exact hpart.append (ih h.2 fun other hmem => hparts other (List.mem_cons_of_mem part hmem))

/-- The tokens of a part tile it. -/
theorem tile_tokens (part : Located) :
    TextRange.Tile part.start (part.tokens.map range) part.stop := by
  induction part using induction_on_children with
  | step part ih =>
    cases hnode : part.isNode with
    | true =>
      rw [tokens_of_isNode hnode]
      exact tile_flatMap_tokens (tile_children hnode) ih
    | false =>
      rw [tokens_of_isNode_eq_false hnode]
      exact ⟨rfl, rfl⟩

/-- The first token of a part and its last one are the ends of its tokens
and of its range; without tokens the range is empty. -/
structure Ends (part : Located) : Prop where
  first : part.firstToken? = part.tokens.head?
  last : part.lastToken? = part.tokens.getLast?
  start : ∀ token ∈ part.firstToken?, part.range.start = token.range.start
  stop : ∀ token ∈ part.lastToken?, part.range.stop = token.range.stop
  isEmpty : part.tokens = [] → part.range.isEmpty = true

/-- Every part has the two ends that its tokens say. The fields are the lemmas
above. -/
theorem ends (part : Located) : part.Ends where
  first := firstToken?_eq_head? part
  last := lastToken?_eq_getLast? part
  start := by
    intro token hfirst
    have htile := part.tile_tokens
    obtain ⟨rest, hrest⟩ := List.head?_eq_some_iff.mp
      ((firstToken?_eq_head? part).symm.trans hfirst)
    rw [hrest] at htile
    exact htile.1.symm
  stop := by
    intro token hlast
    have hranges : (part.tokens.map range).getLast? = some token.range := by
      rw [List.getLast?_map, ← lastToken?_eq_getLast?, hlast]
      rfl
    exact (part.tile_tokens.stop_getLast? hranges).symm
  isEmpty := by
    intro hnone
    have htile := part.tile_tokens
    rw [hnone] at htile
    exact decide_eq_true htile

/-! ### The part at an offset -/

/-- A node below a part lies inside it, and no node below is above it. -/
theorem within_of_mem_nodes {node : Located} (h : node ∈ part.nodes) :
    part.start ≤ node.start ∧ node.stop ≤ part.stop ∧ part.above.length ≤ node.above.length := by
  induction part using induction_on_children with
  | step part ih =>
    cases hnode : part.isNode with
    | true =>
      rw [nodes_of_isNode hnode] at h
      rcases List.mem_cons.mp h with rfl | hmem
      · exact ⟨Nat.le_refl _, Nat.le_refl _, Nat.le_refl _⟩
      · obtain ⟨child, hchild, hmem⟩ := List.mem_flatMap.mp hmem
        obtain ⟨hstart, hstop, hdepth⟩ := ih child hchild hmem
        have hwithin := (tile_children hnode).within _ (List.mem_map_of_mem hchild)
        have hdepth' := depth_of_mem_children hchild
        exact ⟨Nat.le_trans hwithin.1 hstart, Nat.le_trans hstop hwithin.2, by omega⟩
    | false =>
      rw [nodes_of_isNode_eq_false hnode] at h
      cases h

/-- `token` is what the search for an offset in `part` finds: it is the
only token that covers the offset, and the node that is found is its
parent, and deeper than every other node that covers the offset. -/
structure Finds (part : Located) (offset : Nat) (token : Located) : Prop where
  tokenAt : part.tokenAt? offset = some token
  only : part.tokens.filter (·.covers offset) = [token]
  parent : token.parent? = some (part.nodeAt offset)
  mem_nodes : part.nodeAt offset ∈ part.nodes
  covers : (part.nodeAt offset).covers offset = true
  deepest : ∀ node ∈ part.nodes, node.covers offset = true → node ≠ part.nodeAt offset →
    node.above.length < (part.nodeAt offset).above.length

/-- One child alone covers an offset. -/
theorem eq_of_covers_children {other : Located} (hnode : part.isNode = true)
    (hmem : child ∈ part.children) (hcovers : child.covers offset = true)
    (hother : other ∈ part.children) (hcovers' : other.covers offset = true) : other = child := by
  have heq : other ∈ part.children.filter (·.covers offset) :=
    List.mem_filter.mpr ⟨hother, hcovers'⟩
  rw [filter_covers_eq (tile_children hnode) hmem hcovers] at heq
  exact List.mem_singleton.mp heq

/-- A node below a part that covers an offset is the part itself or below
the child that covers the offset. -/
theorem eq_or_mem_nodes_of_covers {node : Located} (hnode : part.isNode = true)
    (hmem : child ∈ part.children) (hcovers : child.covers offset = true)
    (hnodes : node ∈ part.nodes) (hcovers' : node.covers offset = true) :
    node = part ∨ node ∈ child.nodes := by
  rw [nodes_of_isNode hnode] at hnodes
  rcases List.mem_cons.mp hnodes with heq | hnodes
  · exact .inl heq
  · obtain ⟨other, hother, hnodes⟩ := List.mem_flatMap.mp hnodes
    obtain ⟨hstart, hstop, -⟩ := within_of_mem_nodes hnodes
    have hbounds := covers_iff.mp hcovers'
    have hothers : other.covers offset = true := covers_iff.mpr ⟨by omega, by omega⟩
    rw [eq_of_covers_children hnode hmem hcovers hother hothers] at hnodes
    exact .inr hnodes

/-- A child token that covers the offset is found. -/
theorem Finds.of_token (hnode : part.isNode = true) (hmem : child ∈ part.children)
    (hchild : child.isNode = false) (hcovers : child.covers offset = true) :
    part.Finds offset child := by
  -- No child that is a node covers the offset, as the token does and children do not overlap. So
  -- the lookup stops at the part itself.
  have hat : part.nodeAt offset = part := by
    have hnone : part.children.find? (fun child => child.isNode && child.covers offset) = none := by
      refine List.find?_eq_none.mpr fun other hother hfound => ?_
      rw [Bool.and_eq_true] at hfound
      have heq := eq_of_covers_children hnode hmem hcovers hother hfound.2
      rw [heq, hchild] at hfound
      cases hfound.1
    rw [nodeAt_eq, hnone]
    rfl
  have htokens : child ∈ part.tokens := by
    rw [tokens_of_isNode hnode]
    refine List.mem_flatMap.mpr ⟨child, hmem, ?_⟩
    rw [tokens_of_isNode_eq_false hchild]
    exact List.mem_singleton_self child
  have honly := filter_covers_eq part.tile_tokens htokens hcovers
  have hwithin := (tile_children hnode).within _ (List.mem_map_of_mem hmem)
  have hbounds := covers_iff.mp hcovers
  constructor
  · rw [tokenAt?, hat, ← List.head?_filter, honly]
    rfl
  · exact honly
  · rw [hat]
    exact parent?_of_mem_children hmem
  · rw [hat, nodes_of_isNode hnode]
    exact List.mem_cons_self
  · rw [hat]
    exact covers_iff.mpr
      ⟨Nat.le_trans hwithin.1 hbounds.1, Nat.lt_of_lt_of_le hbounds.2 hwithin.2⟩
  · intro node hnodes hcovers' hne
    rcases eq_or_mem_nodes_of_covers hnode hmem hcovers hnodes hcovers' with rfl | hnodes
    · exact absurd hat.symm hne
    · rw [nodes_of_isNode_eq_false hchild] at hnodes
      cases hnodes

/-- What a child node finds, if it covers the offset, its parent finds. -/
theorem Finds.of_child {token : Located} (hnode : part.isNode = true) (hmem : child ∈ part.children)
    (hchild : child.isNode = true) (hcovers : child.covers offset = true)
    (h : child.Finds offset token) : part.Finds offset token := by
  -- Children do not overlap, so the lookup goes down into this child.
  have hat : part.nodeAt offset = child.nodeAt offset := by
    have hsome : (part.children.find? fun child => child.isNode && child.covers offset).isSome
        = true := by
      rw [List.find?_isSome]
      exact ⟨child, hmem, by rw [hchild, hcovers, Bool.and_self]⟩
    obtain ⟨found, hfound⟩ := Option.isSome_iff_exists.mp hsome
    have hboth := List.find?_some hfound
    rw [Bool.and_eq_true] at hboth
    rw [nodeAt_eq, hfound, eq_of_covers_children hnode hmem hcovers
      (List.mem_of_find?_eq_some hfound) hboth.2]
    rfl
  have htoken : token ∈ child.tokens ∧ token.covers offset = true := by
    have hmem : token ∈ child.tokens.filter (·.covers offset) := by
      rw [h.only]
      exact List.mem_singleton_self token
    exact List.mem_filter.mp hmem
  have htokens : token ∈ part.tokens := by
    rw [tokens_of_isNode hnode]
    exact List.mem_flatMap.mpr ⟨child, hmem, htoken.1⟩
  constructor
  · rw [tokenAt?, hat]
    exact h.tokenAt
  · exact filter_covers_eq part.tile_tokens htokens htoken.2
  · rw [hat]
    exact h.parent
  · rw [hat, nodes_of_isNode hnode]
    exact List.mem_cons_of_mem part (List.mem_flatMap.mpr ⟨child, hmem, h.mem_nodes⟩)
  · rw [hat]
    exact h.covers
  · intro node hnodes hcovers' hne
    rw [hat] at hne ⊢
    rcases eq_or_mem_nodes_of_covers hnode hmem hcovers hnodes hcovers' with rfl | hnodes
    · -- The part itself is above the child.
      have hdepth := depth_of_mem_children hmem
      have hbelow := (within_of_mem_nodes h.mem_nodes).2.2
      omega
    · exact h.deepest node hnodes hcovers' hne

/-- In a node every offset that it covers is found. -/
theorem exists_finds (hnode : part.isNode = true) (hcovers : part.covers offset = true) :
    ∃ token, part.Finds offset token := by
  induction part using induction_on_children with
  | step part ih =>
    have hbounds := covers_iff.mp hcovers
    obtain ⟨child, hchild⟩ := exists_filter_covers (tile_children hnode) hbounds.1 hbounds.2
    have hmem : child ∈ part.children.filter (·.covers offset) := by
      rw [hchild]
      exact List.mem_singleton_self child
    obtain ⟨hmem, hcovers'⟩ := List.mem_filter.mp hmem
    cases hkind : child.isNode with
    | true =>
      obtain ⟨token, htoken⟩ := ih child hmem hkind hcovers'
      exact ⟨token, htoken.of_child hnode hmem hkind hcovers'⟩
    | false => exact ⟨child, .of_token hnode hmem hkind hcovers'⟩

/-- In a tree over any source, the tokens tile the tree; at every offset
the search finds the one token there and the node above it, the deepest
at the offset; and the first token and the last one of every node are the
ends of its tokens and of its range. -/
theorem ofTree_lookup (field : Option String) (kind : SyntaxKind) (children : List Tree)
    (source : Text) :
    let tree := Tree.node field kind children
    let root := ofTree tree source
    TextRange.Tile 0 (root.tokens.map range) tree.length ∧
      (∀ offset < tree.length, ∃ token, root.Finds offset token) ∧
      ∀ node ∈ root.nodes, node.Ends := by
  intro tree root
  have hstop : root.stop = tree.length := Nat.zero_add _
  refine ⟨?_, ?_, fun node _ => node.ends⟩
  · rw [← hstop]
    exact root.tile_tokens
  · intro offset hoffset
    exact exists_finds rfl (covers_iff.mpr ⟨Nat.zero_le _, hstop.symm ▸ hoffset⟩)

/-- Between two tokens stand a node without tokens and a token without
text; at the offset where all of these meet, the search finds the last of
them, and the root above it. -/
theorem ofTree_lookup_between :
    let name (text : Text) : Tree := .leaf none { kind := .token .identifier, text }
    let tree : Tree := .node none .root
      [.node none .userDefinedType [name "a"], .node none .error [], name "", name "b"]
    1 < tree.length ∧ ∃ token, (ofTree tree "ab").Finds 1 token ∧ token.text = "b" ∧
      token.parent?.map kind = some .root := by
  intro name tree
  have hlength : 1 < tree.length := by decide
  obtain ⟨-, hfinds, -⟩ := ofTree_lookup none .root
    [.node none .userDefinedType [name "a"], .node none .error [], name "", name "b"] "ab"
  obtain ⟨token, h⟩ := hfinds 1 hlength
  have htext : ((ofTree tree "ab").tokenAt? 1).map Located.text = some (Text.ofString "b") := by
    decide
  have hkind : ((ofTree tree "ab").nodeAt 1).kind = .root := by decide
  refine ⟨hlength, token, h, ?_, ?_⟩
  · rw [h.tokenAt] at htext
    exact Option.some.inj htext
  · rw [h.parent]
    exact congrArg some hkind

end Located

end MarkupSyntax
