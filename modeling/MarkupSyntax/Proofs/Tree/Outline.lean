import MarkupSyntax.Proofs.Tree.Sprout
import MarkupSyntax.Tree.Located

/-!
# `MarkupSyntax.Proofs.Tree.Outline`: trees without their texts

The outline of a tree has its fields and kinds and nothing else. A
record tells the outline of the tree that it becomes before any text is
read, so a sprout has an outline too, and what is stated of outlines is
stated of both at once.
-/

set_option autoImplicit false

namespace MarkupSyntax

/-- The field and the kind of a part, and the outlines of the parts of a
node. -/
inductive Outline where
  | leaf (field : Option String) (kind : SyntaxKind)
  | node (field : Option String) (kind : SyntaxKind) (parts : List Outline)

namespace Outline

/-- The field that the part fills. -/
def field : Outline → Option String
  | leaf field _ => field
  | node field _ _ => field

/-- The kind of the part. -/
def kind : Outline → SyntaxKind
  | leaf _ kind => kind
  | node _ kind _ => kind

/-- The parts of a node, in order; a token has none. -/
def parts : Outline → List Outline
  | leaf .. => []
  | node _ _ parts => parts

/-- The first part that fills a field. -/
def child? (outline : Outline) (field : String) : Option Outline :=
  outline.parts.find? fun part => part.field = some field

/-- The outline in another field. -/
def withField (field : Option String) : Outline → Outline
  | leaf _ kind => leaf field kind
  | node _ kind parts => node field kind parts

/-- The field is the one that was set. -/
@[simp] theorem field_withField (outline : Outline) (field : Option String) :
    (outline.withField field).field = field := by
  cases outline <;> rfl

/-- The kind stays. -/
@[simp] theorem kind_withField (outline : Outline) (field : Option String) :
    (outline.withField field).kind = outline.kind := by
  cases outline <;> rfl

/-- The parts stay. -/
@[simp] theorem parts_withField (outline : Outline) (field : Option String) :
    (outline.withField field).parts = outline.parts := by
  cases outline <;> rfl

mutual
/-- The outline and those of everything below. -/
def all : Outline → List Outline
  | leaf field kind => [leaf field kind]
  | node field kind parts => node field kind parts :: allList parts

/-- The same for parts that follow one another. -/
def allList : List Outline → List Outline
  | [] => []
  | part :: rest => part.all ++ allList rest
end

/-- What is below an outline is below it in every field. -/
theorem mem_all {outline part : Outline} :
    part ∈ outline.all ↔ part = outline ∨ part ∈ allList outline.parts := by
  cases outline with
  | leaf => simp [all, parts, allList]
  | node => exact List.mem_cons

/-- The outlines of parts one after another. -/
theorem allList_append (parts parts' : List Outline) :
    allList (parts ++ parts') = allList parts ++ allList parts' := by
  induction parts with
  | nil => rfl
  | cons part rest ih => rw [List.cons_append, allList, allList, ih, List.append_assoc]

end Outline

namespace Sprout

mutual
/-- The outline of the sprout. -/
def outline : Sprout → Outline
  | token kind _ field => .leaf field kind
  | node kind field children => .node field kind (outlines children)
  | around first kind field rest => .node field kind (first.outline :: outlines rest)

/-- The outlines of sprouts that follow one another. -/
def outlines : List Sprout → List Outline
  | [] => []
  | sprout :: rest => sprout.outline :: outlines rest
end

/-- Sprouts one after another. -/
@[simp] theorem outlines_append (sprouts sprouts' : List Sprout) :
    outlines (sprouts ++ sprouts') = outlines sprouts ++ outlines sprouts' := by
  induction sprouts with
  | nil => rfl
  | cons sprout rest ih => rw [List.cons_append, outlines, outlines, ih, List.cons_append]

/-- The outline has the field of the sprout. -/
@[simp] theorem field_outline (sprout : Sprout) : sprout.outline.field = sprout.field := by
  cases sprout <;> rfl

/-- One outline is that of one sprout. -/
theorem exists_of_outlines_singleton {sprouts : List Sprout} {outline : Outline}
    (h : outlines sprouts = [outline]) :
    ∃ sprout, sprouts = [sprout] ∧ sprout.outline = outline := by
  cases sprouts with
  | nil => cases h
  | cons sprout rest =>
    cases rest with
    | nil => exact ⟨sprout, rfl, (List.cons.inj h).1⟩
    | cons => cases (List.cons.inj h).2

/-- The outline has the kind of the sprout. -/
@[simp] theorem kind_outline (sprout : Sprout) : sprout.outline.kind = sprout.kind := by
  cases sprout <;> rfl

/-- What has the outline of a node is one. -/
theorem isNode_of_outline {sprout : Sprout} {field : Option String} {kind : SyntaxKind}
    {parts : List Outline} (h : sprout.outline = .node field kind parts) : sprout.isNode = true := by
  cases sprout with
  | token => cases h
  | node => rfl
  | around => rfl

/-- A field is set in the outline, too. -/
@[simp] theorem outline_withField (sprout : Sprout) (field : Option String) :
    (sprout.withField field).outline = sprout.outline.withField field := by
  cases sprout <;> rfl

end Sprout

namespace Tree

mutual
/-- The outline of the tree. -/
def outline : Tree → Outline
  | node field kind children => .node field kind (outlines children)
  | leaf field token => .leaf field token.kind

/-- The outlines of trees that follow one another. -/
def outlines : List Tree → List Outline
  | [] => []
  | tree :: rest => tree.outline :: outlines rest
end

/-- The outlines of trees are taken one by one. -/
theorem outlines_eq_map (trees : List Tree) : outlines trees = trees.map outline := by
  induction trees with
  | nil => rfl
  | cons tree rest ih => rw [outlines, List.map_cons, ih]

/-- Trees one after another. -/
theorem outlines_append (trees trees' : List Tree) :
    outlines (trees ++ trees') = outlines trees ++ outlines trees' := by
  simp only [outlines_eq_map, List.map_append]

/-- The outline has the field of the tree. -/
@[simp] theorem field_outline (tree : Tree) : tree.outline.field = tree.field? := by
  cases tree <;> rfl

/-- The outline has the kind of the tree. -/
@[simp] theorem kind_outline (tree : Tree) : tree.outline.kind = tree.kind := by
  cases tree <;> rfl

/-- A field is set in the outline, too. -/
@[simp] theorem outline_withField (tree : Tree) (field : Option String) :
    (tree.withField field).outline = tree.outline.withField field := by
  cases tree <;> rfl

/-- The parts of the outline are the outlines of the children. -/
theorem parts_outline (tree : Tree) : tree.outline.parts = tree.children.map outline := by
  cases tree with
  | node => exact outlines_eq_map _
  | leaf => rfl

end Tree

namespace Located

/-- The outline of a part. -/
def outline (part : Located) : Outline := part.tree.outline

/-- The outline has the field of the part. -/
@[simp] theorem field_outline (part : Located) : part.outline.field = part.field? :=
  Tree.field_outline _

/-- The outline has the kind of the part. -/
@[simp] theorem kind_outline (part : Located) : part.outline.kind = part.kind :=
  Tree.kind_outline _

/-- What has the outline of a node is one. -/
theorem isNode_of_outline {part : Located} {field : Option String} {kind : SyntaxKind}
    {parts : List Outline} (h : part.outline = .node field kind parts) : part.isNode = true := by
  unfold outline at h
  unfold isNode leaf?
  cases htree : part.tree with
  | node => rfl
  | leaf =>
    rw [htree] at h
    cases h

/-- A part with the outline of a token is a token. -/
theorem isNode_eq_false_of_outline {part : Located} {field : Option String} {kind : SyntaxKind}
    (h : part.outline = .leaf field kind) : part.isNode = false := by
  unfold outline at h
  unfold isNode leaf?
  cases htree : part.tree with
  | leaf => rfl
  | node =>
    rw [htree] at h
    cases h

/-- The children at their places have the outlines of those of the tree. -/
theorem map_outline_childrenFrom (node : Located) (index start : Nat) (trees : List Tree) :
    (node.childrenFrom index start trees).map outline = trees.map Tree.outline := by
  induction trees generalizing index start with
  | nil => rfl
  | cons tree rest ih =>
    rw [childrenFrom, List.map_cons, List.map_cons, ih]
    rfl

/-- The children of a part are its parts. -/
theorem map_outline_children (part : Located) :
    part.children.map outline = part.outline.parts := by
  rw [outline, Tree.parts_outline]
  exact map_outline_childrenFrom part 0 part.start part.tree.children

/-- The child in a field is the part in it. -/
theorem map_outline_child? (part : Located) (field : String) :
    (part.child? field).map outline = part.outline.child? field := by
  rw [child?, Outline.child?, ← map_outline_children, List.find?_map]
  congr 2
  funext child
  simp

mutual
/-- A walk meets everything below a tree. -/
theorem map_outline_walk {source : Text} : ∀ (tree : Tree) (above : List Ancestor) (start : Nat),
    (walk source above start tree).map outline = tree.outline.all
  | .leaf .., _, _ => rfl
  | .node _ _ children, above, start =>
    congrArg _ (map_outline_walkList children _ start above 0 start)

/-- The same for the children of a node. -/
theorem map_outline_walkList {source : Text} : ∀ (trees : List Tree) (parent : Tree)
    (parentStart : Nat) (above : List Ancestor) (index start : Nat),
    (walkList source parent parentStart above index start trees).map outline
      = Outline.allList (Tree.outlines trees)
  | [], _, _, _, _, _ => rfl
  | tree :: rest, parent, parentStart, above, index, start => by
    rw [walkList, List.map_append, map_outline_walk tree, map_outline_walkList rest]
    rfl
end

/-- The outline of a node below a root is below the outline of the
root. -/
theorem outline_mem_all {root node : Located} (hmem : node ∈ root.nodes) :
    node.outline ∈ root.outline.all := by
  have hpart := (List.mem_filter.mp hmem).1
  rw [outline, ← map_outline_walk root.tree root.above root.start]
  exact List.mem_map_of_mem hpart

end Located

end MarkupSyntax
