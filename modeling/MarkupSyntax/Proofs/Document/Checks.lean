import MarkupSyntax.Document.Checks
import MarkupSyntax.Proofs.Tree.Bare

/-!
# `MarkupSyntax.Proofs.Document.Checks`: trees that pass the checks

The checks on a finished tree have nothing to report where every closing
tag repeats the name of its opening tag (`Tree.Closed`) and one item of
the module defines `root` at most (`Located.check_eq_nil`). Both are read
off the tree without its trivia. The second check reports something if and
only if there are two such items and they are not all elements
(`Checks.roots_ne_nil_iff`).
-/

set_option autoImplicit false

namespace MarkupSyntax

/-! ### Closed elements -/

namespace Tree

/-- The name that the tree spells. -/
def name (tree : Tree) : Text := tree.leaves.flatMap (·.text)

/-- A name has no trivia in its own text, so it is the same without. -/
theorem name_bare (tree : Tree) : tree.bare.name = tree.name := by
  rw [name, leaves_bare, List.flatMap_map]
  rfl

/-- In every element of the tree the closing tag repeats the name of the opening
tag. An element without one of the two names is closed in this sense. -/
def Closed (tree : Tree) : Prop :=
  ∀ part ∈ tree.subtrees, part.kind = .element → ∀ opened ∈ part.children, ∀ closed ∈ part.children,
    opened.field? = some "name" → closed.field? = some "close_name" → opened.name = closed.name

variable {field : Option String} {kind : SyntaxKind} {trees : List Tree}

/-- A token has no element in it. -/
theorem closed_leaf (field : Option String) (token : Leaf) : (leaf field token).Closed := by
  intro part hmem _ opened hopened
  rw [List.mem_singleton.mp hmem] at hopened
  cases hopened

/-- A node is closed if its parts are, and if it repeats its own name in case it
is an element. -/
theorem closed_node
    (h : kind = .element → ∀ opened ∈ trees, ∀ closed ∈ trees, opened.field? = some "name" →
      closed.field? = some "close_name" → opened.name = closed.name)
    (hparts : ∀ tree ∈ trees, tree.Closed) : (node field kind trees).Closed := by
  intro part hmem
  rw [subtrees, subtreesList_eq_flatMap] at hmem
  rcases List.mem_cons.mp hmem with rfl | hmem
  · exact h
  · obtain ⟨tree, htree, hmem⟩ := List.mem_flatMap.mp hmem
    exact hparts tree htree part hmem

/-- An element whose tags have one name. -/
theorem closed_element (text : Text) (hparts : ∀ tree ∈ trees, tree.Closed)
    (h : ∀ tree ∈ trees, tree.field? = some "name" ∨ tree.field? = some "close_name" →
      tree.name = text) : (node field .element trees).Closed :=
  closed_node (fun _ opened hopened closed hclosed hname hclose =>
    (h opened hopened (.inl hname)).trans (h closed hclosed (.inr hclose)).symm) hparts

/-- A tree without elements has nothing to close. -/
theorem closed_of_notMem_kinds {tree : Tree} (h : SyntaxKind.element ∉ tree.kinds) : tree.Closed :=
  fun _ hmem hkind => absurd (hkind ▸ List.mem_map_of_mem hmem) h

/-- Trivia take no part in names, so a tree stays closed without them. -/
theorem Closed.bare {tree : Tree} (h : tree.Closed) : tree.bare.Closed := by
  intro part hmem hkind opened hopened closed hclosed hname hclose
  rw [subtrees_bare] at hmem
  obtain ⟨part, hpart, rfl⟩ := List.mem_map.mp hmem
  rw [children_bare] at hopened hclosed
  obtain ⟨opened', hopened', rfl⟩ := List.mem_map.mp hopened
  obtain ⟨closed', hclosed', rfl⟩ := List.mem_map.mp hclosed
  rw [name_bare, name_bare]
  rw [kind_bare] at hkind
  rw [field_bare] at hname hclose
  exact h part hpart hkind opened' hopened' closed' hclosed' hname hclose

end Tree

namespace Located

/-- The child in a field is found among the children of the tree without trivia,
too. -/
theorem bare_of_child? {part child : Located} {field : String}
    (h : part.child? field = some child) :
    child.bare ∈ part.bare.children ∧ child.bare.field? = some field := by
  have hfield := List.find?_some h
  refine ⟨bare_mem_children (List.mem_of_find?_eq_some h), ?_⟩
  rw [field_bare]
  exact of_decide_eq_true hfield

/-- Elements whose tags agree are not reported. The hypothesis is on the tree
without trivia, which is what is known of a parse. -/
theorem tags_eq_nil {root : Located} (h : root.bare.Closed) (severity : Severity) (file : Text) :
    Checks.tags root severity file = [] := by
  refine List.filterMap_eq_nil_iff.mpr fun element hmem => ?_
  obtain ⟨hnode, hkind⟩ := List.mem_filter.mp hmem
  unfold Checks.tagMismatch?
  cases hopened : element.child? "name" with
  | none => rfl
  | some opened =>
    cases hclosed : element.child? "close_name" with
    | none => rfl
    | some closed =>
      obtain ⟨hopened, hname⟩ := bare_of_child? hopened
      obtain ⟨hclosed, hclose⟩ := bare_of_child? hclosed
      have hsame := h element.bare (bare_mem_subtrees hnode)
        ((kind_bare element).trans (of_decide_eq_true hkind)) _ hopened _ hclosed hname hclose
      have hnames : opened.nameText = closed.nameText := by
        rw [opened.nameText_eq_bare, closed.nameText_eq_bare]
        exact hsame
      exact if_pos hnames

end Located

/-! ### Definitions of `root` -/

namespace Tree

/-- The item of a module defines its `root`: as an element, or by `let`. -/
def definesRoot (tree : Tree) : Bool :=
  tree.kind = .element ||
    (tree.kind = .functionDefinition || tree.kind = .valueDefinition) &&
      (tree.children.find? (·.field? = some "name")).any (·.name = Checks.rootName)

/-- The name and the kind of an item do not depend on trivia. -/
@[simp] theorem definesRoot_bare (tree : Tree) : tree.bare.definesRoot = tree.definesRoot := by
  have hname : tree.bare.children.find? (·.field? = some "name")
      = (tree.children.find? (·.field? = some "name")).map Tree.bare := by
    rw [children_bare, List.find?_map]
    congr 2
    funext part
    simp
  rw [definesRoot, definesRoot, kind_bare, hname]
  cases tree.children.find? (·.field? = some "name") with
  | none => rfl
  | some name => rw [Option.map_some, Option.any_some, Option.any_some, name_bare]

end Tree

/-- An item of a module that defines its `root`. -/
def Located.definesRoot (item : Located) : Bool := item.tree.definesRoot

/-- The same at a place of a document. -/
theorem Located.definesRoot_bare (item : Located) : item.bare.definesRoot = item.definesRoot :=
  Tree.definesRoot_bare _

namespace Checks

/-- The check takes an item for a definition of `root` by `let` if it defines
`root` and is no element. This is the step from the check, which collects
ranges, to the count. -/
theorem isSome_explicitRoot (item : Located) :
    (if item.kind = .functionDefinition || item.kind = .valueDefinition then
      (item.child? "name").bind fun name =>
        if name.nameText = rootName then some name.trimmedRange else none
      else none).isSome = (item.definesRoot && item.kind ≠ .element) := by
  rw [← Located.definesRoot_bare, Tree.definesRoot, ← Located.map_bare_child?, Located.kind_bare]
  by_cases hkind : (item.kind = .functionDefinition || item.kind = .valueDefinition) = true
  · have hother : item.kind ≠ .element := by
      intro helement
      rw [helement] at hkind
      cases hkind
    cases item.child? "name" with
    | none => simp [hkind, hother]
    | some name =>
      by_cases htext : name.nameText = rootName
      · have htext' : name.bare.name = rootName := (Located.nameText_eq_bare name).symm.trans htext
        simp [hkind, hother, htext, htext']
      · have htext' : name.bare.name ≠ rootName := fun h =>
          htext ((Located.nameText_eq_bare name).trans h)
        simp [hkind, htext, htext']
  · by_cases helement : item.kind = .element
    · simp [helement]
    · simp [hkind, helement]

/-- The elements of a module and its definitions of `root` by `let` are the
items that define `root`, each counted once: no item is both. -/
theorem length_roots (module : Located) :
    (module.childNodes.filter fun node => node.kind = .element).length + (explicitRoots module).length
      = module.childNodes.countP Located.definesRoot := by
  rw [List.countP_eq_countP_filter_add _ _ fun item => item.kind = .element, explicitRoots,
    List.length_filterMap_eq_countP, ← List.countP_eq_length_filter, List.countP_filter,
    List.countP_filter]
  congr 1
  · refine List.countP_congr fun item _ => ?_
    rw [← Located.definesRoot_bare, Tree.definesRoot, Located.kind_bare]
    by_cases helement : item.kind = .element <;> simp [helement]
  · refine List.countP_congr fun item _ => ?_
    rw [isSome_explicitRoot]
    simp

/-- There is a definition by `let` if and only if some item defines `root` and
is no element. -/
theorem explicitRoots_ne_nil_iff {module : Located} : explicitRoots module ≠ [] ↔
    ∃ item ∈ module.childNodes, item.definesRoot = true ∧ item.kind ≠ .element := by
  rw [Ne, explicitRoots, List.filterMap_eq_nil_iff]
  simp only [← Option.isNone_iff_eq_none, ← Option.not_isSome, isSome_explicitRoot]
  simp

/-- The check reports something if and only if `root` is defined more than once,
not by elements alone. That elements alone go unreported is due to the check,
which keeps only the last of them and compares it with the definitions by `let`. -/
theorem roots_ne_nil_iff {module : Located} {file : Text} :
    roots module file ≠ [] ↔ 1 < module.childNodes.countP Located.definesRoot ∧
      ∃ item ∈ module.childNodes, item.definesRoot = true ∧ item.kind ≠ .element := by
  -- With no definition by `let` the check has nothing to compare; with one, a second of either
  -- kind is reported.
  rw [← explicitRoots_ne_nil_iff, ← length_roots]
  unfold roots
  cases hroots : explicitRoots module with
  | nil => simp
  | cons first rest =>
    have hsecond : rest.head? = none ↔ rest.length = 0 := by
      rw [List.head?_eq_none_iff, List.length_eq_zero_iff]
    have helement : implicitRoot? module = none ↔
        (module.childNodes.filter fun node => node.kind = .element).length = 0 := by
      rw [implicitRoot?, Option.map_eq_none_iff, List.getLast?_eq_none_iff,
        List.length_eq_zero_iff]
    simp only [ne_eq, List.append_eq_nil_iff, Option.toList_eq_nil_iff, Option.map_eq_none_iff,
      hsecond, helement, List.length_cons, reduceCtorEq, not_false_eq_true, and_true]
    omega

/-- One item that defines `root` is none too many. -/
theorem roots_eq_nil {module : Located} {file : Text}
    (single : module.bare.children.countP Tree.definesRoot ≤ 1) : roots module file = [] := by
  have hle : module.childNodes.countP Located.definesRoot
      ≤ module.bare.children.countP Tree.definesRoot := by
    rw [← Located.map_bare_children, List.countP_map]
    exact (List.filter_sublist.countP_le).trans
      (List.countP_mono_left fun item _ h => (Located.definesRoot_bare item).trans h)
  by_contra hroots
  exact absurd (roots_ne_nil_iff.mp hroots).1 (by omega)

end Checks

/-- The checks have nothing to report where the tags agree and `root` is
not defined too often. -/
theorem Located.check_eq_nil {root : Located} {options : Options} {file : Text}
    (hclosed : root.bare.Closed)
    (single : options.reportDuplicateRoot = true → ∀ module ∈ root.nodeOfKind? .moduleDefinition,
      module.bare.children.countP Tree.definesRoot ≤ 1) : root.check options file = [] := by
  have htags := tags_eq_nil hclosed options.tagMismatchSeverity file
  rw [check, htags]
  by_cases hreport : options.reportDuplicateRoot = true
  · cases hmodule : root.nodeOfKind? .moduleDefinition with
    | none => simp
    | some module => simp [Checks.roots_eq_nil (single hreport module hmodule)]
  · simp [hreport]

end MarkupSyntax
