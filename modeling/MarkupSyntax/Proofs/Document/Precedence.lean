import MarkupSyntax.Proofs.Document.Parse

/-!
# `MarkupSyntax.Proofs.Document.Precedence`: precedence in documents

In every document the operands of an operator bind as tightly as its
precedence asks, with one exception (`parse_respects_precedence`).
Behind an element, a control construct or a missing operand an
expression takes no further operator of its own level, and one that
follows is put around whatever ends there. So `a + <b/> * c` reads as
`(a + <b/>) * c`, without any diagnostic
(`exists_left_looser_than_operator`).
-/

set_option autoImplicit false

namespace MarkupSyntax

open Grammar

/-! ### Trees -/

namespace Tree

variable {text : Text} {sprout : Sprout}

/-- The outermost node of a tree ends with the token for the end of the
source. -/
theorem parts_outermost (hnode : sprout.isNode = true) (supply : Supply) :
    (outermost text sprout supply).outline.parts
      = sprout.outline.parts ++ [.leaf none (.token .eof)] := by
  have hparts : sprout.outline.parts = Sprout.outlines sprout.children := by
    cases sprout with
    | token => cases hnode
    | node => rfl
    | around => rfl
  rw [hparts]
  show outlines (_ ++ [_]) = _
  rw [outlines_append, Sprout.outlines_growList]
  rfl

/-- All nodes of a whole tree are what their kinds ask for. -/
theorem fits_of_mem_rooted (hnode : sprout.isNode = true) (hloose : sprout.kind.isLoose = true)
    (horderly : sprout.Orderly) (supply : Supply) :
    ∀ outline ∈ (outermost text sprout supply).rooted.outline.all, outline.Fits := by
  have hinside : ∀ outline ∈ Outline.allList (outermost text sprout supply).outline.parts,
      outline.Fits := by
    intro outline hmem
    rw [parts_outermost hnode, Outline.allList_append] at hmem
    rcases List.mem_append.mp hmem with hmem | hmem
    · exact horderly outline (Outline.mem_all.mpr (.inr hmem))
    · rw [List.mem_singleton.mp hmem]
      exact Outline.fits_of_isLoose rfl
  have hkind : (outermost text sprout supply).outline.kind = sprout.kind := rfl
  have hroot : ∀ parts, (Outline.node none .root parts).Fits := fun _ => Outline.fits_of_isLoose rfl
  generalize outermost text sprout supply = tree at hinside hkind
  intro outline hmem
  unfold rooted at hmem
  split at hmem
  · rcases Outline.mem_all.mp hmem with rfl | hmem
    · exact hroot _
    · exact hinside outline hmem
  · rcases Outline.mem_all.mp hmem with rfl | hmem
    · exact hroot _
    -- Below the root is the node in no field, with the same parts.
    · have hmem : outline ∈ (tree.withField none).outline.all ++ [] := hmem
      rw [List.append_nil, outline_withField] at hmem
      rcases Outline.mem_all.mp hmem with rfl | hmem
      · rw [Outline.fits_withField]
        exact Outline.fits_of_isLoose (hkind ▸ hloose)
      · rw [Outline.parts_withField] at hmem
        exact hinside outline hmem

/-- The outline of a whole tree, when the outermost node is no root
itself. -/
theorem outline_rooted_outermost {supply : Supply}
    (hnode : sprout.isNode = true) (hkind : sprout.kind ≠ .root) :
    (outermost text sprout supply).rooted.outline = .node none .root
      [.node none sprout.kind (sprout.outline.parts ++ [.leaf none (.token .eof)])] := by
  have hparts : (outermost text sprout supply).outline.parts = _ := parts_outermost hnode supply
  have hkind' : (outermost text sprout supply).outline.kind = sprout.kind := rfl
  rw [← hkind', ← hparts]
  have hrooted : (outermost text sprout supply).rooted
      = .node none .root [(outermost text sprout supply).withField none] := by
    unfold rooted
    split
    · rename_i hroot
      exact absurd (Tree.node.inj hroot).2.1 hkind
    · rfl
  rw [hrooted]
  rfl

/-- A root is in no field. -/
theorem withField_rooted (tree : Tree) : tree.rooted.withField none = tree.rooted := by
  unfold rooted
  split <;> rfl

end Tree

namespace Located

/-- How tightly the operator binds that an expression is put together
with. -/
def level? (part : Located) : Option Nat := part.outline.level?

/-- True for an expression whose last part is no operand: an element, a control
construct, or an error node for a missing operand. Such a part ends the loop
over operators at its own level. -/
def isCutOff (part : Located) : Bool := part.outline.isCutOff

variable {node : Located} {field : String}

/-- The child in a field, where the outline has one. -/
theorem exists_child?_of_outline {part : Outline} (h : node.outline.child? field = some part) :
    ∃ child, node.child? field = some child ∧ child.outline = part := by
  rwa [← map_outline_child?, Option.map_eq_some_iff] at h

/-- The child in the field of the first part. -/
theorem exists_child?_of_startsWith {property : Outline → Prop}
    (h : node.outline.StartsWith field property) :
    ∃ child, node.child? field = some child ∧ property child.outline := by
  obtain ⟨first, rest, hparts, hfield, hproperty⟩ := h
  have hchild : node.outline.child? field = some first := by
    simp [Outline.child?, hparts, hfield]
  obtain ⟨child, hfirst, rfl⟩ := exists_child?_of_outline hchild
  exact ⟨child, hfirst, hproperty⟩

/-- The module of a tree that is a root around it. -/
theorem exists_module_of_outline {root : Located} {parts : List Outline}
    (h : root.outline = .node none .root [.node none .moduleDefinition parts]) :
    ∃ module, root.module = .ok module ∧ module.node.outline = .node none .moduleDefinition parts := by
  have hkind : root.kind = .root := by
    rw [← kind_outline, h]
    rfl
  have hchildren := root.map_outline_children
  rw [h, Outline.parts, List.map_eq_singleton_iff] at hchildren
  obtain ⟨node, hchildren, hnode⟩ := hchildren
  have hnodeKind : node.kind = .moduleDefinition := by
    rw [← kind_outline, hnode]
    rfl
  refine ⟨⟨node⟩, ?_, hnode⟩
  simp [module, nodeOfKind?, childNodes, hkind, hchildren, isNode_of_outline hnode, hnodeKind]

/-- A binary expression that fits its kind has both operands and an operator.
The operand on the right is put together with a tighter operator, if with any.
What is known of the left one is `Leads`: unless it is cut off, its operator is
at least as tight. -/
theorem exists_operands (hkind : node.kind = .binaryExpression) (h : node.outline.Fits) :
    ∃ left right level, node.child? "left" = some left ∧ node.child? "right" = some right ∧
      node.level? = some level ∧ left.outline.Leads level ∧
      ∀ level' ∈ right.level?, level < level' := by
  rw [← kind_outline] at hkind
  unfold Outline.Fits at h
  rw [hkind] at h
  obtain ⟨left, operator, right, level, hparts, hleft, hoperator, hright, hlevel, hleads, htighter⟩ := h
  have hfirst : node.outline.child? "left" = some left := by
    simp [Outline.child?, hparts, hleft]
  have hlast : node.outline.child? "right" = some right := by
    simp [Outline.child?, hparts, hleft, hoperator, hright]
  obtain ⟨first, hfirst', rfl⟩ := exists_child?_of_outline hfirst
  obtain ⟨last, hlast', rfl⟩ := exists_child?_of_outline hlast
  exact ⟨first, last, level, hfirst', hlast', hlevel, hleads, htighter⟩

end Located

namespace Document

/-- The outline of the tree that a finished parse makes, from that of the
node by which the record grew. -/
theorem Finished.outline_treeOf {source file : Text} {options : Options} {final : Parser}
    {sprout sprout' : Sprout} {kind : SyntaxKind} {parts : List Outline}
    (h : Finished source options file final sprout)
    (hgrows : Grows (parser source options file) final [sprout'])
    (houtline : sprout'.outline = .node none kind parts) (hkind : kind ≠ .root) :
    (treeOf final sprout).outline
      = .node none .root [.node none kind (parts ++ [.leaf none (.token .eof)])] := by
  have hnode := Sprout.isNode_of_outline houtline
  have hsame : sprout'.kind = kind := by
    rw [← Sprout.kind_outline, houtline]
    rfl
  subst hsame
  rw [h.treeOf_eq hgrows.events hgrows.sound.1 hnode, treeOf,
    Tree.outline_rooted_outermost hnode hkind, houtline]
  rfl

/-- Every node of the tree is what its kind asks for. The grammar keeps this of
the record node by node, and the tree has the same outlines. -/
theorem Finished.fits {source file : Text} {options : Options} {final : Parser} {sprout : Sprout}
    (h : Finished source options file final sprout) {node : Located}
    (hmem : node ∈ (Located.ofTree (treeOf final sprout) final.text).nodes) : node.outline.Fits := by
  have hall := Located.outline_mem_all hmem
  have htree : (Located.ofTree (treeOf final sprout) final.text).outline
      = (treeOf final sprout).outline := congrArg Tree.outline (Tree.withField_rooted _)
  have hloose : sprout.kind.isLoose = true := by
    rw [h.kind]
    rfl
  exact Tree.fits_of_mem_rooted h.isNode hloose h.orderly _ _ (htree ▸ hall)

/-- In every document, whatever the source and the options, errors or not, the
clauses say:

- the right operand of a binary operator is put together with an operator that
  binds tighter, if with any, and is no conditional;
- the left operand is with one that binds at least as tightly, and is no
  conditional, unless it is cut off;
- the condition of a conditional is no conditional, unless it is cut off;
- operands of a minus, callees and targets are put together with no operator.

In each case the operand is there, so the clauses do not hold for lack of one.
The exception is where the loop over operators stops early
(`Located.isCutOff`). -/
theorem parse_respects_precedence (decoded : Decoded) (options : Options) (file : Text) :
    ∃ document, parse decoded options file = .ok document ∧ ∀ node ∈ document.root.nodes,
      (node.kind = .binaryExpression → ∃ left right level,
        node.child? "left" = some left ∧ node.child? "right" = some right ∧
        node.level? = some level ∧
        (right.kind ≠ .conditionalExpression ∧ ∀ level' ∈ right.level?, level < level') ∧
        (left.isCutOff = false →
          left.kind ≠ .conditionalExpression ∧ ∀ level' ∈ left.level?, level ≤ level')) ∧
      (node.kind = .conditionalExpression → ∃ condition,
        node.child? "condition" = some condition ∧
        (condition.isCutOff = false → condition.kind ≠ .conditionalExpression)) ∧
      (node.kind = .prefixUnaryExpression → ∃ operand,
        node.child? "operand" = some operand ∧ operand.level? = none) ∧
      (node.kind = .callExpression → ∃ callee,
        node.child? "callee" = some callee ∧ callee.level? = none) ∧
      (node.kind = .memberAccessExpression → ∃ target,
        node.child? "target" = some target ∧ target.level? = none) := by
  obtain ⟨final, sprout, h⟩ := exists_finished decoded.text options file
  refine ⟨_, h.parse_eq, fun node hmem => ?_⟩
  -- What the grammar keeps is `Outline.Fits` of every node. The five parts below read it for the
  -- kind of node at hand.
  have hfits := h.fits hmem
  refine ⟨fun hkind => ?_, fun hkind => ?_, fun hkind => ?_, fun hkind => ?_, fun hkind => ?_⟩
  · obtain ⟨left, right, level, hleft, hright, hlevel, hleads, htighter⟩ :=
      Located.exists_operands hkind hfits
    rw [← Located.kind_outline] at hkind
    have hlt := Outline.lt_of_level?_binary hkind hlevel
    refine ⟨left, right, level, hleft, hright, hlevel, ⟨fun hconditional => ?_, htighter⟩,
      fun hwhole => ⟨?_, fun level' hlevel' => ?_⟩⟩
    · rw [← Located.kind_outline] at hconditional
      -- A conditional expression has the lowest level, and the right operand must have a higher
      -- one than the operator.
      have := htighter _ (Outline.level?_conditional hconditional)
      omega
    · rw [← Located.kind_outline]
      exact hleads.kind_ne hwhole
    · rcases hleads with hcut | hle
      · cases hcut.symm.trans hwhole
      · exact (hle level' hlevel').1
  all_goals
    rw [← Located.kind_outline] at hkind
    unfold Outline.Fits at hfits
    rw [hkind] at hfits
  · obtain ⟨condition, hcondition, hleads⟩ := Located.exists_child?_of_startsWith hfits
    refine ⟨condition, hcondition, fun hwhole => ?_⟩
    rw [← Located.kind_outline]
    exact Outline.Leads.kind_ne hleads hwhole
  · obtain ⟨operator, operand, hparts, hoperator, hoperand, hnone⟩ := hfits
    have hchild : node.outline.child? "operand" = some operand := by
      simp [Outline.child?, hparts, hoperator, hoperand]
    obtain ⟨last, hlast, rfl⟩ := Located.exists_child?_of_outline hchild
    exact ⟨last, hlast, hnone⟩
  · exact Located.exists_child?_of_startsWith hfits
  · exact Located.exists_child?_of_startsWith hfits

/-- Behind an element any operator may follow: without a diagnostic a product
has a sum as its left operand, although it binds tighter. -/
theorem exists_left_looser_than_operator :
    ∃ document, parse (.ofText "{a+<b/>*c}") {} "f" = .ok document ∧ document.diagnostics = [] ∧
      ∃ node ∈ document.root.nodes, ∃ left ∈ node.child? "left",
        node.kind = .binaryExpression ∧ node.level? = some 120 ∧
        left.kind = .binaryExpression ∧ left.level? = some 110 := by
  have hparse : (parse (.ofText "{a+<b/>*c}") {} "f").toOption.any (fun document =>
      document.diagnostics.isEmpty && document.root.nodes.any fun node =>
        (node.child? "left").any fun left =>
          node.kind = .binaryExpression && node.level? = some 120 &&
          left.kind = .binaryExpression && left.level? = some 110) = true := by
    decide +kernel
  -- Nothing else is to be computed of the parse.
  generalize parse (.ofText "{a+<b/>*c}") {} "f" = result at hparse ⊢
  cases result with
  | error => cases hparse
  | ok document =>
    simp only [Except.toOption, Option.any_some, Option.any_eq_true, Bool.and_eq_true,
      List.any_eq_true, decide_eq_true_eq, List.isEmpty_iff, and_assoc] at hparse
    obtain ⟨hnone, node, hnode, left, hleft, hkinds⟩ := hparse
    exact ⟨document, rfl, hnone, node, hnode, left, hleft, hkinds⟩

end Document

end MarkupSyntax
