import Mathlib
import MarkupSyntax.Proofs.Document.Domains

/-!
# `MarkupSyntax.Proofs.Document.Nesting`: how deep the nodes of a document are nested

The options of a parse limit how many elements and control constructs
among values stand inside one another, in every document
(`parse_limits_nesting`). Control constructs among elements or properties
are parsed without entering a level, so they come on top, and nothing is
reported (`exists_parse_nested_deeper`).
-/

set_option autoImplicit false

namespace MarkupSyntax

namespace SyntaxKind

/-- True for the nodes that are a level of nesting. -/
def isLevel (kind : SyntaxKind) : Bool := kind = element || kind.isControlOf .value

/-- What counts as a level in the grammar and what counts in the statement are
the same. -/
theorem level_eq (kind : SyntaxKind) : kind.level = if kind.isLevel then 1 else 0 := by
  cases kind with
  | control domain form => cases domain <;> cases form <;> rfl
  | _ => rfl

/-- So levels are counted along a list of kinds. -/
theorem sum_level (kinds : List SyntaxKind) : (kinds.map level).sum = kinds.countP isLevel := by
  induction kinds with
  | nil => rfl
  | cons kind rest ih =>
    rw [List.map_cons, List.sum_cons, ih, level_eq, List.countP_cons, Nat.add_comm]

end SyntaxKind

namespace Located

/-- The kinds on the way from a part up to the root. -/
def way (part : Located) : List SyntaxKind := part.kind :: part.above.map (·.tree.kind)

/-- The number of levels on the way down to a part, itself included. -/
def levels (part : Located) : Nat := (part.way.map SyntaxKind.level).sum

/-- The levels of nodes above. -/
def levelsAbove (above : List Ancestor) : Nat := (above.map (·.tree.kind.level)).sum

/-- The levels of a part are those above it and its own. -/
theorem levels_eq (part : Located) : part.levels = part.kind.level + levelsAbove part.above := by
  rw [levels, way, List.map_cons, List.sum_cons, List.map_map]
  rfl

mutual
/-- On the way to a node of a tree there are no more levels than those
above the tree and those down to its deepest part. -/
theorem levels_le_of_mem_walk {source : Text} : ∀ (tree : Tree) (above : List Ancestor)
    (start : Nat), ∀ part ∈ walk source above start tree, part.isNode = true →
      part.levels ≤ levelsAbove above + tree.outline.nesting
  | .leaf .., _, _, part, hmem, hnode => by
    rw [List.mem_singleton.mp hmem] at hnode
    cases hnode
  | .node field kind children, above, start, part, hmem, hnode => by
    have hnesting : (Tree.node field kind children).outline.nesting
        = kind.level + Outline.nestingList (Tree.outlines children) := rfl
    have hkind : (Tree.node field kind children).kind.level = kind.level := rfl
    rcases List.mem_cons.mp hmem with rfl | hmem
    · have hself : Located.levels ⟨source, .node field kind children, start, above⟩
          = kind.level + levelsAbove above := levels_eq _
      omega
    · have hle := levels_le_of_mem_walkList children _ start above 0 start part hmem hnode
      omega

/-- The same for the children of a node, which is a level or not. -/
theorem levels_le_of_mem_walkList {source : Text} : ∀ (trees : List Tree) (parent : Tree)
    (parentStart : Nat) (above : List Ancestor) (index start : Nat),
    ∀ part ∈ walkList source parent parentStart above index start trees, part.isNode = true →
      part.levels ≤ levelsAbove above + parent.kind.level
        + Outline.nestingList (Tree.outlines trees)
  | [], _, _, _, _, _, _, hmem, _ => nomatch hmem
  | tree :: rest, parent, parentStart, above, index, start, part, hmem, hnode => by
    have hlist : Outline.nestingList (Tree.outlines (tree :: rest))
        = max tree.outline.nesting (Outline.nestingList (Tree.outlines rest)) := rfl
    rcases List.mem_append.mp hmem with hmem | hmem
    · have hle := levels_le_of_mem_walk tree _ start part hmem hnode
      have habove : levelsAbove (⟨parent, parentStart, index⟩ :: above)
          = parent.kind.level + levelsAbove above := List.sum_cons
      omega
    · have hle := levels_le_of_mem_walkList rest parent parentStart above _ _ part hmem hnode
      omega
end

end Located

namespace Document

/-- In every document, whatever the source and the options and whatever is
reported: on the way from the root down to a node there are no more elements and
control constructs among values than the options allow. A negative bound allows
none. Control constructs among elements or properties are not counted, since
they enter no level. -/
theorem parse_limits_nesting (decoded : Decoded) (options : Options) (file : Text) :
    ∃ document, parse decoded options file = .ok document ∧ ∀ node ∈ document.root.nodes,
      node.way.countP (fun kind => kind = .element || kind.isControlOf .value)
        ≤ options.maxNestingDepth.toNat := by
  obtain ⟨document, hparse, hhoused, -⟩ := exists_parse_housed decoded options file
  refine ⟨document, hparse, fun node hnode => ?_⟩
  obtain ⟨hpart, hisNode⟩ := List.mem_filter.mp hnode
  have hle := Located.levels_le_of_mem_walk _ [] 0 node hpart hisNode
  have hnesting : (document.tree.withField none).outline.nesting
      ≤ options.maxNestingDepth.toNat := by
    rw [Tree.outline_withField, Outline.nesting_withField]
    exact hhoused.nesting
  have hnone : Located.levelsAbove [] = 0 := rfl
  have hlevels : node.levels = node.way.countP SyntaxKind.isLevel := SyntaxKind.sum_level _
  have hroot : document.root.tree = document.tree.withField none := rfl
  rw [hroot] at hle
  show node.way.countP SyntaxKind.isLevel ≤ _
  omega

/-- A control construct among elements is no level: with at most two levels, an
element stands in a control construct in an element, and nothing is reported. -/
theorem exists_parse_nested_deeper :
    ∃ document, parse (.ofText "<a>for i in x{<b/>}</a>") { maxNestingDepth := 2 } "f"
        = .ok document ∧ document.diagnostics = [] ∧ ∃ node ∈ document.root.nodes,
      2 < node.way.countP (fun kind => kind = .element || kind.isControl && !kind.isArm) := by
  have hparse : (parse (.ofText "<a>for i in x{<b/>}</a>") { maxNestingDepth := 2 } "f").toOption.any
      (fun document => document.diagnostics.isEmpty && document.root.nodes.any fun node =>
        2 < node.way.countP fun kind => kind = .element || kind.isControl && !kind.isArm)
      = true := by
    decide +kernel
  -- Nothing else is to be computed of the parse.
  generalize parse (.ofText "<a>for i in x{<b/>}</a>") { maxNestingDepth := 2 } "f" = result
    at hparse ⊢
  cases result with
  | error => cases hparse
  | ok document =>
    simp only [Except.toOption, Option.any_some, Bool.and_eq_true, List.any_eq_true,
      decide_eq_true_eq, List.isEmpty_iff] at hparse
    obtain ⟨hnone, node, hnode, hdeep⟩ := hparse
    exact ⟨document, rfl, hnone, node, hnode, hdeep⟩

end Document

end MarkupSyntax
