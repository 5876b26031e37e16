import MarkupSyntax.Proofs.Document.Mirror
import MarkupSyntax.Proofs.Token.TextTokens

/-!
# `MarkupSyntax.Proofs.Document.Siblings`: elements next to each other

An element should be read as it is by itself, whatever other elements
stand next to it (`Document.HasSiblings`). It is not, where the body of
the one is found at the place of the body of the other
(`Document.exists_siblings_ne`): what is remembered of the first is then
taken for the second.

This needs white space at the start of a body. Elements that are written
without any next to their tags are read each as by itself, whatever text
is in them (`Document.parse_siblings`): each of them is read as it is
meant, and what is meant has one tree
(`Markup.bare_eq_of_written`).
-/

set_option autoImplicit false

namespace MarkupSyntax

open Grammar

/-! ### One tree for each element -/

namespace Markup

variable {items : List Markup}

mutual
/-- What is read back as an item has one tree, but for trivia. -/
theorem bare_eq_of_written : ∀ (item : Markup) {pieces pieces' : List Piece} {tree tree' : Tree},
    item.WellFormed → item.Written pieces tree → item.Written pieces' tree' → tree.bare = tree'.bare
  | text t, pieces, pieces', tree, tree', hreadable, ⟨⟨_, hreads⟩, htree⟩,
      ⟨⟨_, hreads'⟩, htree'⟩ => by
    rw [htree, htree', hreads.lexed_eq hreads' hreadable.last hreadable.plain]
  | interpolation name, pieces, pieces', tree, tree', _, ⟨_, _, htree⟩, ⟨_, _, htree'⟩ => by
    rw [htree, htree']
    rfl
  | element name body, pieces, pieces', tree, tree', hwell, ⟨_, _, trees, hbody, _, htree⟩,
      ⟨_, _, trees', hbody', _, htree'⟩ => by
    have hsame : trees.map Tree.bare = trees'.map Tree.bare :=
      map_bare_eq_of_written body hwell hbody hbody'
    rw [htree, htree']
    simp [elementTree, Tree.bare, Tree.bareList_eq_map, hsame]

/-- Two writings of the same items have the same trees but for trivia, by
induction on the items: what was written around them plays no part. -/
theorem map_bare_eq_of_written : ∀ (items : List Markup) {pieces pieces' : List Piece}
    {trees trees' : List Tree}, AllWellFormed items → AllWritten items pieces trees →
      AllWritten items pieces' trees' → trees.map Tree.bare = trees'.map Tree.bare
  | [], _, _, _, _, _, ⟨_, htrees⟩, ⟨_, htrees'⟩ => by rw [htrees, htrees']
  | item :: rest, _, _, _, _, ⟨hitem, _, hrest⟩, ⟨_, _, _, _, hfirst, hothers, _, htrees⟩,
      ⟨_, _, _, _, hfirst', hothers', _, htrees'⟩ => by
    rw [htrees, htrees', List.map_cons, List.map_cons, bare_eq_of_written item hitem hfirst hfirst',
      map_bare_eq_of_written rest hrest hothers hothers']
end

/-- An element is no text. -/
theorem isText_of_isElement {item : Markup} (h : item.isElement = true) : item.isText = false := by
  cases item with
  | element => rfl
  | text | interpolation => cases h

/-- Elements can follow one another. -/
theorem allWellFormed_of_elements (h : ∀ item ∈ items, item.isElement = true ∧ item.WellFormed) :
    AllWellFormed items := by
  induction items with
  | nil => trivial
  | cons item items ih =>
    rw [List.forall_mem_cons] at h
    obtain ⟨⟨helement, hwell⟩, hothers⟩ := h
    refine ⟨hwell, fun htext => ?_, ih hothers⟩
    rw [isText_of_isElement helement] at htext
    cases htext

/-- Elements alone are a sequence. -/
theorem contentKind_of_elements (hne : items ≠ [])
    (h : ∀ item ∈ items, item.isElement = true ∧ item.WellFormed) :
    contentKind items = .elementsExpression := by
  have hnone : items.any isText = false := by
    rw [List.any_eq_false]
    intro item hmem
    rw [isText_of_isElement (h item hmem).1]
    exact Bool.false_ne_true
  have hsome : items.any isElement = true := by
    obtain ⟨item, hmem⟩ := List.exists_mem_of_ne_nil items hne
    exact List.any_eq_true.mpr ⟨item, hmem, (h item hmem).1⟩
  rw [contentKind, isSequence, hnone, hsome]
  rfl

/-- An item is not longer than the items. -/
theorem length_render_le {item : Markup} (h : item ∈ items) :
    item.render.length ≤ (renderAll items).length := by
  induction items with
  | nil => cases h
  | cons first items ih =>
    rw [renderAll, List.length_append]
    rcases List.mem_cons.mp h with rfl | h
    · omega
    · have := ih h
      omega

end Markup

/-! ### Documents -/

namespace Document

/-- The kind of the body of the element that a document is, and the parts
of this body, without trivia. -/
def bodyParts? (document : Document) : Option (SyntaxKind × List Tree) := do
  let module ← document.root.module.toOption
  let element ← module.element?
  let content ← element.node.child? "content"
  return (content.kind, content.children.map Located.bare)

/-- Nothing is reported, and the body of the element is a sequence of
these elements, each of them as it is by itself. -/
structure HasSiblings (document : Document) (alone : List Located) : Prop where
  diagnostics : document.diagnostics = []
  parts : document.bodyParts? = some (.elementsExpression, alone.map (·.bare.withField none))

/-- The source is one element from its start to its end. -/
structure IsWhole (document : Document) (source : Text) (element : Located) : Prop extends
    document.IsElement element where
  range : element.range = .ofLength 0 source.length

/-- Where this is computed, the source is one element that passes the
check. -/
theorem exists_isWhole_of_any {document : Document} {source : Text} {check : Located → Bool}
    (h : (document.diagnostics.isEmpty && document.root.module.toOption.any fun module =>
      module.element?.isSome && module.node.childNodes.length = 1 &&
        module.node.childNodes.all fun element =>
          element.range = .ofLength 0 source.length && check element) = true) :
    ∃ element, document.IsWhole source element ∧ check element = true := by
  rw [Bool.and_eq_true, List.isEmpty_iff] at h
  obtain ⟨hnone, hmodule⟩ := h
  cases hok : document.root.module with
  | error fault =>
    rw [hok] at hmodule
    cases hmodule
  | ok module =>
    rw [hok] at hmodule
    simp only [Except.toOption, Option.any_some, Bool.and_eq_true, decide_eq_true_eq,
      List.all_eq_true] at hmodule
    obtain ⟨⟨hsome, hlength⟩, hall⟩ := hmodule
    obtain ⟨element, honly⟩ := List.length_eq_one_iff.mp hlength
    obtain ⟨hrange, hcheck⟩ := hall element (honly ▸ List.mem_singleton_self element)
    refine ⟨element, ⟨⟨hnone, module, hok, honly, ?_⟩, hrange⟩, hcheck⟩
    -- The element in the field is a node of the module, and there is one.
    obtain ⟨⟨node⟩, hnode⟩ := Option.isSome_iff_exists.mp hsome
    have hmem : node ∈ module.node.childNodes := by
      simp only [Module.element?, Located.nodeIn?, Option.map_eq_some_iff,
        Option.filter_eq_some_iff, Element.mk.injEq] at hnode
      obtain ⟨_, ⟨hchild, hisNode⟩, rfl⟩ := hnode
      exact List.mem_filter.mpr ⟨List.mem_of_find?_eq_some hchild, hisNode⟩
    rw [honly, List.mem_singleton] at hmem
    rw [hnode, hmem]

/-- Next to `<p>//</p>` the body of `q` is read as mixed. By itself the
comment in `p` reaches to the end of the source. Here it ends in `q`, in
front of the first token of `q`'s body, and the body of `p` is remembered
as mixed at the place of that token. -/
theorem exists_siblings_ne :
    ∃ (first second : Text) (document firstAlone secondAlone : Document) (p q : Located),
      parse (.ofText first) {} "f" = .ok firstAlone ∧ firstAlone.IsWhole first p ∧
      parse (.ofText second) {} "f" = .ok secondAlone ∧ secondAlone.IsWhole second q ∧
      parse (.ofText (Text.ofString "<r>" ++ (first ++ (second ++ Text.ofString "</r>")))) {} "f"
        = .ok document ∧
      ((first ++ second).length + 7 : Int) < ({} : Options).maxNestingDepth ∧
      ¬document.HasSiblings [p, q] := by
  have hfirst : (parse (.ofText "<p>//</p>") {} "f").toOption.any (fun document =>
      document.diagnostics.isEmpty && document.root.module.toOption.any fun module =>
        module.element?.isSome && module.node.childNodes.length = 1 &&
          module.node.childNodes.all fun element =>
            element.range = .ofLength 0 (Text.ofString "<p>//</p>").length && true) = true := by
    decide +kernel
  have hsecond : (parse (.ofText "<q>\n<x/></q>") {} "f").toOption.any (fun document =>
      document.diagnostics.isEmpty && document.root.module.toOption.any fun module =>
        module.element?.isSome && module.node.childNodes.length = 1 &&
          module.node.childNodes.all fun element =>
            element.range = .ofLength 0 (Text.ofString "<q>\n<x/></q>").length &&
              element.bare.kinds.contains .elementsExpression) = true := by
    decide +kernel
  have hboth : (parse (.ofText "<r><p>//</p><q>\n<x/></q></r>") {} "f").toOption.any
      (fun document => document.bodyParts?.all fun body =>
        body.2.all fun part => !part.kinds.contains .elementsExpression) = true := by
    decide +kernel
  obtain ⟨firstAlone, hparse, hchecked⟩ := exists_ok_of_any hfirst
  obtain ⟨secondAlone, hparse', hchecked'⟩ := exists_ok_of_any hsecond
  obtain ⟨document, hparse'', hchecked''⟩ := exists_ok_of_any hboth
  obtain ⟨p, hp, -⟩ := @exists_isWhole_of_any _ _ (fun _ => true) hchecked
  obtain ⟨q, hq, hkinds⟩ := exists_isWhole_of_any hchecked'
  refine ⟨"<p>//</p>", "<q>\n<x/></q>", document, firstAlone, secondAlone, p, q, hparse, hp,
    hparse', hq, hparse'', by decide, fun h => ?_⟩
  -- By itself `q` has a sequence in it, and its part of the document has none.
  rw [h.parts] at hchecked''
  simp only [Option.all_some, List.map_cons, List.all_cons, Tree.kinds_withField, hkinds]
    at hchecked''
  simp at hchecked''

/-- The body of an element that was read. -/
theorem bodyParts?_eq {document : Document} {element : Located} {name : TagName}
    {body : List Markup} {context : LexContext} {inner : List Piece} {trees : List Tree}
    (helement : document.IsElement element) (hbody : Markup.AllWritten body inner trees)
    (h : Located.Spans [element] [(Markup.elementTree name body trees).withField (some "element")]
      ((name.openingTokens context).map Lexed.piece ++
        (inner ++ name.closingTokens.map Lexed.piece))) :
    document.bodyParts? = some (Markup.contentKind body, trees.map Tree.bare) := by
  have hpass := Markup.allPass_of_written body hbody
  have hchildren : Located.Spans element.children (name.openingTrees ++
      Tree.node (some "content") (Markup.contentKind body) trees :: name.closingTrees) _ :=
    Located.Spans.children h
  obtain ⟨content, hcontent, hspans⟩ := hchildren.exists_child? "content"
    (TagName.Tags.opening name context).fields rfl rfl
    (hpass.node (some "content") (Markup.contentKind_ne_element body)).length_leaves
  obtain ⟨module, hmodule, -, hfirst⟩ := helement.only
  have hkind : content.kind = Markup.contentKind body := hspans.kind_eq
  rw [bodyParts?, hmodule]
  simp [Except.toOption, hfirst, hcontent, hkind, hspans.children.bare]

/-- The item is this element, when it is all of a source. -/
def ReadsAlone (options : Options) (file : Text) (item : Markup) (element : Located) : Prop :=
  ∃ document, parse (.ofText item.render) options file = .ok document ∧ document.IsElement element

/-- An element that is read somewhere is read so when it is all of a
source. -/
theorem exists_readsAlone {item : Markup} {pieces : List Piece} {tree : Tree}
    (hitem : item.isElement = true) (wellFormed : item.WellFormed) (options : Options) (file : Text)
    (deepEnough : (item.render.length : Int) ≤ options.maxNestingDepth)
    (hwritten : item.Written pieces tree) :
    ∃ element, ReadsAlone options file item element ∧ tree.bare = element.bare.withField none := by
  cases item with
  | text | interpolation => cases hitem
  | element name body =>
    obtain ⟨document, element, context, inner, trees, hparse, helement, hbody, hspans⟩ :=
      exists_parse_of_markup name body wellFormed options file deepEnough
    have halone : (Markup.element name body).Written _ (Markup.elementTree name body trees) :=
      ⟨context, inner, trees, hbody, rfl, rfl⟩
    have hbare : element.bare
        = ((Markup.elementTree name body trees).withField (some "element")).bare :=
      (List.cons.inj hspans.bare).1
    refine ⟨element, ⟨document, hparse, helement⟩, ?_⟩
    rw [hbare, ← Tree.bare_withField]
    exact Markup.bare_eq_of_written _ wellFormed hwritten halone

/-- The same of elements that follow one another. -/
theorem exists_allReadAlone {items : List Markup} {pieces : List Piece} {trees : List Tree}
    (wellFormed : ∀ item ∈ items, item.isElement = true ∧ item.WellFormed) (options : Options)
    (file : Text)
    (deepEnough : ∀ item ∈ items, (item.render.length : Int) ≤ options.maxNestingDepth)
    (h : Markup.AllWritten items pieces trees) :
    ∃ alone, List.Forall₂ (ReadsAlone options file) items alone ∧
      trees.map Tree.bare = alone.map (·.bare.withField none) := by
  induction items generalizing pieces trees with
  | nil =>
    obtain ⟨-, rfl⟩ := h
    exact ⟨[], .nil, rfl⟩
  | cons item items ih =>
    obtain ⟨front, tree, back, others, hfirst, hothers, -, rfl⟩ := h
    rw [List.forall_mem_cons] at wellFormed deepEnough
    obtain ⟨element, halone, hsame⟩ :=
      exists_readsAlone wellFormed.1.1 wellFormed.1.2 options file deepEnough.1 hfirst
    obtain ⟨alone, hall, hsames⟩ := ih wellFormed.2 deepEnough.2 hothers
    exact ⟨element :: alone, .cons halone hall, by rw [List.map_cons, List.map_cons, hsame, hsames]⟩

/-- Elements next to each other are read as each of them by itself: nothing is
reported, and the body around them is a sequence of the same trees. The elements
have names without properties, no white space next to their tags, and bodies of
texts, names in braces and further elements, to any depth.

White space is where this fails (`exists_siblings_ne`): with none, each body
begins where its first token does, so no two bodies share a place in the
memo. -/
theorem parse_siblings (outer : TagName) (items : List Markup) (nonempty : items ≠ [])
    (wellFormed : ∀ item ∈ items, item.isElement = true ∧ item.WellFormed) (options : Options)
    (file : Text)
    (deepEnough : ((Markup.element outer items).render.length : Int) ≤ options.maxNestingDepth) :
    ∃ document alone,
      parse (.ofText (outer.opening ++ (Markup.renderAll items ++ outer.closing))) options file
        = .ok document ∧
      List.Forall₂ (ReadsAlone options file) items alone ∧ document.HasSiblings alone := by
  obtain ⟨document, element, context, inner, trees, hparse, helement, hbody, hspans⟩ :=
    exists_parse_of_markup outer items (Markup.allWellFormed_of_elements wellFormed) options file
      deepEnough
  have hdeep : ∀ item ∈ items, (item.render.length : Int) ≤ options.maxNestingDepth := by
    intro item hmem
    have hitem := Markup.length_render_le hmem
    rw [Markup.render, List.length_append, List.length_append] at deepEnough
    omega
  obtain ⟨alone, hall, hsame⟩ := exists_allReadAlone wellFormed options file hdeep hbody
  have hparts := bodyParts?_eq helement hbody hspans
  rw [Markup.contentKind_of_elements nonempty wellFormed, hsame] at hparts
  exact ⟨document, alone, hparse, hall, helement.diagnostics, hparts⟩

/-- Text that looks like a comment next to a sequence of elements. -/
theorem parse_siblings_like_comment :
    let outer : TagName := ⟨"r", .identifier, ⟨rfl, rfl, rfl⟩, by decide⟩
    let name : TagName := ⟨"p", .identifier, ⟨rfl, rfl, rfl⟩, by decide⟩
    let items : List Markup := [.element name [.text "// if \""], .element name [.element name []]]
    items ≠ [] ∧ (∀ item ∈ items, item.isElement = true ∧ item.WellFormed) ∧
      ((Markup.element outer items).render.length : Int) ≤ ({} : Options).maxNestingDepth ∧
      outer.opening ++ (Markup.renderAll items ++ outer.closing)
        = Text.ofString "<r><p>// if \"</p><p><p></p></p></r>" ∧
      ∃ document alone, parse (.ofText "<r><p>// if \"</p><p><p></p></p></r>") {} "f" = .ok document ∧
        List.Forall₂ (ReadsAlone {} "f") items alone ∧ document.HasSiblings alone := by
  intro outer name items
  have readable : Text.Readable "// if \"" :=
    ⟨by decide, by decide, by decide, by decide, by decide⟩
  have wellFormed : ∀ item ∈ items, item.isElement = true ∧ item.WellFormed := by
    simp [items, Markup.isElement, Markup.WellFormed, Markup.AllWellFormed, readable]
  have deepEnough : ((Markup.element outer items).render.length : Int)
      ≤ ({} : Options).maxNestingDepth := by decide
  have hparse := parse_siblings outer items (List.cons_ne_nil _ _) wellFormed {} "f" deepEnough
  have htext : outer.opening ++ (Markup.renderAll items ++ outer.closing)
      = Text.ofString "<r><p>// if \"</p><p><p></p></p></r>" := by decide
  rw [htext] at hparse
  exact ⟨List.cons_ne_nil _ _, wellFormed, deepEnough, htext, hparse⟩

end Document

end MarkupSyntax
