import MarkupSyntax.Proofs.Diagnostic.Merge
import MarkupSyntax.Proofs.Document.Parse

/-!
# `MarkupSyntax.Proofs.Document.Clean`: documents without diagnostics

A document without diagnostics is grammatical (`parse_clean`): every node
has the children that its production asks for, and closing tags repeat
the names of their opening tags if the options ask for that.

Errors may be counted and not recorded, since an error at the offset of
the one before counts as the same. That hides no defect: there is a
diagnostic for the first error of a parse (`Moves.shown`), so a parse
without diagnostics counted none, and a parse that counted none obeys
the grammar.
-/

set_option autoImplicit false

namespace MarkupSyntax

open Grammar

/-! ### Productions in a walk -/

namespace Located

variable {rule : SyntaxKind → Language Role}

/-- The role of the part. -/
def role (part : Located) : Role := (part.field?, part.kind)

/-- The children of a node have the roles of the trees that they are. -/
theorem map_role_childrenFrom (node : Located) (index start : Nat) (trees : List Tree) :
    (node.childrenFrom index start trees).map role = trees.map Tree.role := by
  induction trees generalizing index start with
  | nil => rfl
  | cons tree rest ih =>
    rw [childrenFrom, List.map_cons, List.map_cons, ih]
    rfl

/-- The children of a part at their places have the roles of the children
of its tree. -/
theorem map_role_children (part : Located) :
    part.children.map role = part.tree.children.map Tree.role :=
  map_role_childrenFrom part 0 part.start part.tree.children

mutual
/-- What is below a tree that obeys a rule obeys it. -/
theorem obeys_of_mem_walk {source : Text} : ∀ (tree : Tree) (above : List Ancestor) (start : Nat),
    tree.Obeys rule → ∀ part ∈ walk source above start tree, part.tree.Obeys rule
  | .leaf field token, above, start, h => by
    intro part hmem
    rw [List.mem_singleton.mp hmem]
    exact h
  | .node field kind children, above, start, h => by
    intro part hmem
    rcases List.mem_cons.mp hmem with rfl | hmem
    · exact h
    · exact obeys_of_mem_walkList children _ start above 0 start h.2 part hmem

/-- What the trees obey, every node below them obeys, by induction on the walk
through the trees. -/
theorem obeys_of_mem_walkList {source : Text} : ∀ (trees : List Tree) (parent : Tree)
    (parentStart : Nat) (above : List Ancestor) (index start : Nat), Tree.ObeysList rule trees →
    ∀ part ∈ walkList source parent parentStart above index start trees, part.tree.Obeys rule
  | [], _, _, _, _, _, _ => by
    intro part hmem
    cases hmem
  | tree :: rest, parent, parentStart, above, index, start, h => by
    intro part hmem
    rcases List.mem_append.mp hmem with hmem | hmem
    · exact obeys_of_mem_walk tree _ start h.1 part hmem
    · exact obeys_of_mem_walkList rest parent parentStart above _ _ h.2 part hmem
end

/-- The children of every node below a tree that obeys a rule spell a word
of the rule. -/
theorem map_role_children_mem {root node : Located} (h : root.tree.Obeys rule)
    (hmem : node ∈ root.nodes) : node.children.map role ∈ rule node.kind := by
  obtain ⟨hpart, hnode⟩ := List.mem_filter.mp hmem
  have hobeys := obeys_of_mem_walk root.tree root.above root.start h node hpart
  rw [map_role_children]
  unfold kind
  unfold isNode leaf? at hnode
  cases htree : node.tree with
  | leaf field token =>
    rw [htree] at hnode
    cases hnode
  | node field kind children =>
    rw [htree] at hobeys
    exact hobeys.1

end Located

/-! ### Closing tags -/

/-- Without a report, an element with two names has the same name
twice. -/
theorem Checks.nameText_eq {severity : Severity} {file : Text}
    {element name closeName : Located} (h : tagMismatch? severity file element = none)
    (hname : element.child? "name" = some name)
    (hclose : element.child? "close_name" = some closeName) :
    name.nameText = closeName.nameText := by
  by_cases heq : name.nameText = closeName.nameText
  · exact heq
  · -- Two different names are reported.
    exfalso
    unfold tagMismatch? at h
    rw [hname, hclose] at h
    simp only [Option.bind_eq_bind, Option.bind_some, if_neg heq] at h
    cases h

/-- Without reports, elements below a root have matching closing tags, if
the options ask to report others. -/
theorem Located.nameText_eq {root element name closeName : Located} {options : Options}
    {file : Text} (h : root.check options file = []) (hreports : options.reportTagMismatch = true)
    (hmem : element ∈ root.nodes) (hkind : element.kind = .element)
    (hname : element.child? "name" = some name)
    (hclose : element.child? "close_name" = some closeName) :
    name.nameText = closeName.nameText := by
  unfold check at h
  have htags := (List.append_eq_nil_iff.mp h).1
  rw [if_pos hreports] at htags
  have hnone := List.filterMap_eq_nil_iff.mp htags element
    (List.mem_filter.mpr ⟨hmem, decide_eq_true hkind⟩)
  exact Checks.nameText_eq hnone hname hclose

/-! ### Documents -/

namespace Document

namespace Finished

variable {source file : Text} {options : Options} {final : Parser} {sprout : Sprout}

/-- A parse without diagnostics counted no error. -/
theorem errorCount_eq_zero (h : Finished source options file final sprout)
    (hnone : final.diagnostics.toList = []) : final.errorCount = 0 := by
  rcases Nat.eq_zero_or_pos final.errorCount with hzero | hpos
  · exact hzero
  · exact absurd (Array.toList_inj.mp hnone) (h.moves.shown hpos)

/-- So its tree is grammatical. -/
theorem obeys (h : Finished source options file final sprout)
    (hnone : final.diagnostics.toList = []) : (treeOf final sprout).Obeys production := by
  have hobeys := h.clean (h.errorCount_eq_zero hnone)
  have hmodule : production sprout.kind = ⊤ := by
    rw [h.kind]
    rfl
  exact Tree.obeys_rooted h.isNode hobeys hmodule rfl _

end Finished

/-- A document without diagnostics is grammatical, whatever the source and
the options are. No node of it is an error node, and the children of every
node spell a word of its production: a production is a language of roles,
that is of fields and kinds, so a required child stands in each of its words
(`Grammar.production`). If the options ask for a report on closing tags, the
two names of every element that has two are the same.

It is enough to ask for no diagnostics, although an error at the offset of
the one before is counted and not recorded: the first error of a parse always
is recorded (`Moves.shown`). -/
theorem parse_clean (decoded : Decoded) (options : Options) (file : Text) :
    ∃ document, parse decoded options file = .ok document ∧
      (document.diagnostics = [] →
        (∀ node ∈ document.root.nodes,
          node.kind ≠ .error ∧ node.children.map Located.role ∈ production node.kind) ∧
        (options.reportTagMismatch = true →
          ∀ element ∈ document.root.nodes, element.kind = .element →
            ∀ name ∈ element.child? "name", ∀ closeName ∈ element.child? "close_name",
              name.nameText = closeName.nameText)) := by
  obtain ⟨final, sprout, h⟩ := exists_finished decoded.text options file
  refine ⟨_, h.parse_eq, fun hnone => ?_⟩
  have hgroups := Diagnostic.merge_eq_nil_iff.mp hnone
  have hparser : final.diagnostics.toList = [] := hgroups _ (by simp)
  have hchecks : (Located.ofTree (treeOf final sprout) final.text).check final.options
      final.file = [] := hgroups _ (by simp)
  have hobeys := (h.obeys hparser).withField none
  have hoptions : final.options = options := h.moves.options
  constructor
  · intro node hmem
    have hword := Located.map_role_children_mem hobeys hmem
    constructor
    · -- No word is in the production of an error node.
      intro herror
      rw [herror] at hword
      exact hword
    · exact hword
  · intro hreports element hmem hkind name hname closeName hclose
    rw [← hoptions] at hreports
    exact Located.nameText_eq hchecks hreports hmem hkind hname hclose

/-- A document with an enumeration, a value with an `if` in braces, and an
element with a property and some text. Nothing is reported, so each of its
nodes, which are listed in source order, has the children that it needs. -/
theorem parse_clean_several_productions :
    let source := Text.ofString
      "enum e = A | B\nlet v = \x7bif b \x7b1 + c\x7d else \x7bf(2)\x7d\x7d\n<p x=1>t</p>"
    let kinds : List SyntaxKind :=
      [.root, .moduleDefinition,
        .enumDefinition, .enumMemberList, .enumMember, .enumMember,
        .valueDefinition, .interpolationExpression, .control .value .ifSimple,
        .identifierExpression, .binaryExpression, .intLiteral, .identifierExpression,
        .callExpression, .identifierExpression, .argumentList, .intLiteral,
        .element, .qualifiedMarkupName, .propertyList, .propertyValue, .qualifiedMarkupName,
        .intLiteral, .mixedContent, .textRun, .qualifiedMarkupName]
    ∃ document, parse (.ofText source) {} "f" = .ok document ∧ document.diagnostics = [] ∧
      document.root.nodes.map (·.kind) = kinds ∧
      (∀ node ∈ document.root.nodes,
        node.kind ≠ .error ∧ node.children.map Located.role ∈ production node.kind) ∧
      ∀ element ∈ document.root.nodes, element.kind = .element →
        ∀ name ∈ element.child? "name", ∀ closeName ∈ element.child? "close_name",
          name.nameText = closeName.nameText := by
  intro source kinds
  obtain ⟨document, hparse, hclean⟩ := parse_clean (.ofText source) {} "f"
  have hvalue : (parse (.ofText source) {} "f").toOption.map
      (fun document => (document.diagnostics, document.root.nodes.map (·.kind)))
        = some ([], kinds) := by
    decide +kernel
  rw [hparse] at hvalue
  obtain ⟨hnone, hkinds⟩ := Prod.mk.inj (Option.some.inj hvalue)
  obtain ⟨hwords, htags⟩ := hclean hnone
  exact ⟨document, hparse, hnone, hkinds, hwords, htags rfl⟩

end Document

end MarkupSyntax
