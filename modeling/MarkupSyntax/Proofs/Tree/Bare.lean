import MarkupSyntax.Proofs.Tree.Outline

/-!
# `MarkupSyntax.Proofs.Tree.Bare`: trees without trivia

A tree without its trivia is determined by its outline and the texts of
its tokens (`Tree.bare_eq_of_outline`). So what a parse says of outlines
and what the lexer says of texts say together which tree it is.
-/

set_option autoImplicit false

namespace MarkupSyntax

/-- The token without trivia. -/
def Leaf.bare (leaf : Leaf) : Leaf := { leaf with leading := [], trailing := [] }

namespace Tree

mutual
/-- The tree without trivia. -/
def bare : Tree → Tree
  | node field kind children => .node field kind (bareList children)
  | leaf field token => .leaf field token.bare

/-- Trees that follow one another, without trivia. -/
def bareList : List Tree → List Tree
  | [] => []
  | tree :: rest => tree.bare :: bareList rest
end

/-- Trivia is dropped tree by tree. -/
theorem bareList_eq_map (trees : List Tree) : bareList trees = trees.map bare := by
  induction trees with
  | nil => rfl
  | cons tree rest ih => rw [bareList, List.map_cons, ih]

/-- Trees one after another lose their trivia one by one. -/
theorem bareList_append (trees trees' : List Tree) :
    bareList (trees ++ trees') = bareList trees ++ bareList trees' := by
  simp only [bareList_eq_map, List.map_append]

/-- The field stays without trivia. -/
@[simp] theorem field_bare (tree : Tree) : tree.bare.field? = tree.field? := by
  cases tree <;> rfl

/-- The kind stays without trivia. -/
@[simp] theorem kind_bare (tree : Tree) : tree.bare.kind = tree.kind := by
  cases tree <;> rfl

/-- The children stay, each without its trivia. -/
theorem children_bare (tree : Tree) : tree.bare.children = tree.children.map bare := by
  cases tree with
  | node => exact bareList_eq_map _
  | leaf => rfl

/-- The field of a tree has no trivia. -/
@[simp] theorem bare_withField (tree : Tree) (field : Option String) :
    (tree.withField field).bare = tree.bare.withField field := by
  cases tree <;> rfl

mutual
/-- No token is lost with the trivia. -/
theorem leaves_bare : ∀ tree : Tree, tree.bare.leaves = tree.leaves.map Leaf.bare
  | .leaf .. => rfl
  | .node _ _ children => leavesList_bareList children

/-- The same for trees one after another. -/
theorem leavesList_bareList : ∀ trees : List Tree,
    leavesList (bareList trees) = (leavesList trees).map Leaf.bare
  | [] => rfl
  | tree :: rest => by
    rw [bareList, leavesList, leavesList, List.map_append, leaves_bare tree,
      leavesList_bareList rest]
end

mutual
/-- Trees of one outline have equally many tokens. -/
theorem length_leaves_of_outline : ∀ {tree tree' : Tree}, tree.outline = tree'.outline →
    tree.leaves.length = tree'.leaves.length
  | .leaf .., .leaf .., _ => rfl
  | .node .., .node .., h => length_leavesList_of_outlines (Outline.node.inj h).2.2

/-- The same for trees one after another. -/
theorem length_leavesList_of_outlines : ∀ {trees trees' : List Tree},
    outlines trees = outlines trees' → (leavesList trees).length = (leavesList trees').length
  | [], [], _ => rfl
  | tree :: rest, tree' :: rest', h => by
    obtain ⟨hfirst, hrest⟩ := List.cons.inj h
    rw [leavesList, leavesList, List.length_append, List.length_append,
      length_leaves_of_outline hfirst, length_leavesList_of_outlines hrest]
end

mutual
/-- A tree without trivia is determined by its outline and the texts of
its tokens. -/
theorem bare_eq_of_outline : ∀ {tree tree' : Tree}, tree.outline = tree'.outline →
    tree.leaves.map (·.text) = tree'.leaves.map (·.text) → tree.bare = tree'.bare
  | .leaf .., .leaf .., h, htexts => by
    obtain ⟨rfl, hkind⟩ := Outline.leaf.inj h
    have htext := (List.cons.inj htexts).1
    simp only [bare, Leaf.bare, hkind, htext]
  | .node .., .node .., h, htexts => by
    obtain ⟨rfl, rfl, hchildren⟩ := Outline.node.inj h
    rw [bare, bare, bareList_eq_of_outlines hchildren htexts]

/-- The same for trees one after another: the texts are split along the
outlines. -/
theorem bareList_eq_of_outlines : ∀ {trees trees' : List Tree},
    outlines trees = outlines trees' →
    (leavesList trees).map (·.text) = (leavesList trees').map (·.text) →
    bareList trees = bareList trees'
  | [], [], _, _ => rfl
  | tree :: rest, tree' :: rest', h, htexts => by
    obtain ⟨hfirst, hrest⟩ := List.cons.inj h
    rw [leavesList, leavesList, List.map_append, List.map_append] at htexts
    have hlength : (tree.leaves.map (·.text)).length = (tree'.leaves.map (·.text)).length := by
      rw [List.length_map, List.length_map, length_leaves_of_outline hfirst]
    obtain ⟨htexts, htexts'⟩ := List.append_inj htexts hlength
    rw [bareList, bareList, bare_eq_of_outline hfirst htexts,
      bareList_eq_of_outlines hrest htexts']
end

/-! ### Subtrees -/

mutual
/-- The tree and all trees inside it, in pre-order. -/
def subtrees : Tree → List Tree
  | node field kind children => .node field kind children :: subtreesList children
  | leaf field token => [.leaf field token]

/-- The same of trees that follow one another. -/
def subtreesList : List Tree → List Tree
  | [] => []
  | tree :: rest => tree.subtrees ++ subtreesList rest
end

/-- The subtrees of several trees are those of each. -/
theorem subtreesList_eq_flatMap (trees : List Tree) :
    subtreesList trees = trees.flatMap subtrees := by
  induction trees with
  | nil => rfl
  | cons tree rest ih => rw [subtreesList, List.flatMap_cons, ih]

mutual
/-- The subtrees of a tree without trivia are those of the tree. -/
theorem subtrees_bare : ∀ tree : Tree, tree.bare.subtrees = tree.subtrees.map bare
  | .leaf .. => rfl
  | .node _ _ children => congrArg (List.cons _) (subtreesList_bareList children)

/-- The same for trees one after another. -/
theorem subtreesList_bareList : ∀ trees : List Tree,
    subtreesList (bareList trees) = (subtreesList trees).map bare
  | [] => rfl
  | tree :: rest => by
    rw [bareList, subtreesList, subtreesList, List.map_append, subtrees_bare tree,
      subtreesList_bareList rest]
end

/-- The kinds of the tree and of all trees inside it. -/
def kinds (tree : Tree) : List SyntaxKind := tree.subtrees.map kind

/-- The kinds below a tree do not depend on its field. -/
@[simp] theorem kinds_withField (tree : Tree) (field : Option String) :
    (tree.withField field).kinds = tree.kinds := by
  cases tree <;> rfl

/-- A token has one kind. -/
@[simp] theorem kinds_leaf (field : Option String) (token : Leaf) :
    (leaf field token).kinds = [token.kind] := rfl

/-- The kinds of a node are its own and those of its parts. -/
@[simp] theorem kinds_node (field : Option String) (kind : SyntaxKind) (children : List Tree) :
    (node field kind children).kinds = kind :: children.flatMap kinds := by
  rw [kinds, subtrees, List.map_cons, subtreesList_eq_flatMap, List.map_flatMap]
  rfl

end Tree

/-! ### Parts of a located tree -/

namespace Located

/-- The tree of the part, without trivia. -/
def bare (part : Located) : Tree := part.tree.bare

/-- The kind of a part stays without trivia. -/
@[simp] theorem kind_bare (part : Located) : part.bare.kind = part.kind := Tree.kind_bare _

/-- So does its field. -/
@[simp] theorem field_bare (part : Located) : part.bare.field? = part.field? := Tree.field_bare _

/-- The children at their places, without trivia, are those of the tree. -/
theorem map_bare_childrenFrom (node : Located) (index start : Nat) (trees : List Tree) :
    (node.childrenFrom index start trees).map bare = trees.map Tree.bare := by
  induction trees generalizing index start with
  | nil => rfl
  | cons tree rest ih =>
    rw [childrenFrom, List.map_cons, List.map_cons, ih]
    rfl

/-- The children of a part without trivia. -/
theorem map_bare_children (part : Located) : part.children.map bare = part.bare.children := by
  rw [bare, Tree.children_bare]
  exact map_bare_childrenFrom part 0 part.start part.tree.children

/-- The first child in a field is the same one without trivia. -/
theorem map_bare_child? (part : Located) (field : String) :
    (part.child? field).map bare = part.bare.children.find? (·.field? = some field) := by
  rw [child?, ← map_bare_children, List.find?_map]
  congr 2
  funext child
  simp

/-- A child without trivia is a child without trivia. -/
theorem bare_mem_children {part child : Located} (h : child ∈ part.children) :
    child.bare ∈ part.bare.children := by
  rw [← map_bare_children]
  exact List.mem_map_of_mem h

mutual
/-- A walk meets the subtrees. -/
theorem map_bare_walk {source : Text} : ∀ (tree : Tree) (above : List Ancestor) (start : Nat),
    (walk source above start tree).map bare = tree.bare.subtrees
  | .leaf .., _, _ => rfl
  | .node _ _ children, above, start =>
    congrArg _ (map_bare_walkList children _ start above 0 start)

/-- The same for the children of a node. -/
theorem map_bare_walkList {source : Text} : ∀ (trees : List Tree) (parent : Tree)
    (parentStart : Nat) (above : List Ancestor) (index start : Nat),
    (walkList source parent parentStart above index start trees).map bare
      = Tree.subtreesList (Tree.bareList trees)
  | [], _, _, _, _, _ => rfl
  | tree :: rest, parent, parentStart, above, index, start => by
    rw [walkList, List.map_append, map_bare_walk tree, map_bare_walkList rest]
    rfl
end

/-- A node below a root is a subtree of it, trivia aside. -/
theorem bare_mem_subtrees {root node : Located} (h : node ∈ root.nodes) :
    node.bare ∈ root.bare.subtrees := by
  have hpart := (List.mem_filter.mp h).1
  rw [bare, bare, ← map_bare_walk root.tree root.above root.start]
  exact List.mem_map_of_mem hpart

/-- A name is a text without its trivia. -/
theorem nameText_eq_bare (part : Located) :
    part.nameText = part.bare.leaves.flatMap (·.text) := by
  rw [nameText, bare, Tree.leaves_bare, List.flatMap_map]
  rfl

end Located

end MarkupSyntax
