import MarkupSyntax.Proofs.Document.Roundtrip
import MarkupSyntax.Proofs.Grammar.Tagged
import MarkupSyntax.Proofs.Tree.Spans

/-!
# `MarkupSyntax.Proofs.Document.Element`: documents that are one element

A source that is one element is a module with that element alone. Where
the parse of the element is known, so is the document
(`Document.exists_parse_of_element`): it is the element's, nothing is
reported, and each part of it holds the pieces of the source that the
parse made it of (`Located.Spans`). The checks on the tree have nothing
to report either, if every closing tag repeats its name (`Tree.Closed`).
-/

set_option autoImplicit false

namespace MarkupSyntax

/-! ### Tags -/

/-- The text of a name in a tree. -/
theorem MarkupName.name_tree (name : MarkupName) (field : String) :
    (name.tree field).name = name.text := by
  rw [Tree.name, List.flatMap_def, texts_tree, ← List.flatMap_def, flatMap_text_tokens]

/-- There is no element in a name. -/
theorem MarkupName.element_notMem_kinds (name : MarkupName) (field : String) :
    SyntaxKind.element ∉ (name.tree field).kinds := by
  simp [tree, Lexed.leaf, List.flatMap_map]

/-- So the tree of a name has nothing to close. -/
theorem MarkupName.closed_tree (name : MarkupName) (field : String) : (name.tree field).Closed :=
  Tree.closed_of_notMem_kinds (name.element_notMem_kinds field)

namespace TagName

variable {name : TagName} {trees : List Tree} {tokens : List Lexed}

/-- The trees are the parts of a tag of this name, with these tokens. The fields
are what a document asks of an element around its body: nothing in the tag is
left open, its names are the same, and no part of it is taken for the body. -/
structure Tags (name : TagName) (trees : List Tree) (tokens : List Lexed) : Prop where
  closed : ∀ tree ∈ trees, tree.Closed
  names : ∀ tree ∈ trees, tree.field? = some "name" ∨ tree.field? = some "close_name" →
    tree.name = name.text
  fields : ∀ tree ∈ trees, tree.field? ≠ some "content"
  texts : (Tree.leavesList trees).map (·.text) = tokens.map (·.text)

namespace Tags

variable {trees' : List Tree} {tokens' : List Lexed}

/-- Parts of a tag one after another. -/
theorem append (h : Tags name trees tokens) (h' : Tags name trees' tokens') :
    Tags name (trees ++ trees') (tokens ++ tokens') where
  closed := List.forall_mem_append.mpr ⟨h.closed, h'.closed⟩
  names := List.forall_mem_append.mpr ⟨h.names, h'.names⟩
  fields := List.forall_mem_append.mpr ⟨h.fields, h'.fields⟩
  texts := by rw [Tree.leavesList_append, List.map_append, List.map_append, h.texts, h'.texts]

/-- A token of the tag that is not its name. -/
theorem token (name : TagName) (token : Lexed) {field : Option String}
    (hfield : field ∉ [some "name", some "close_name", some "content"]) :
    Tags name [token.leaf field] [token] where
  closed := List.forall_mem_singleton.mpr (Tree.closed_leaf _ _)
  names := List.forall_mem_singleton.mpr fun h => by
    rcases h with h | h <;> exact absurd (by rw [show field = _ from h]; decide) hfield
  fields := List.forall_mem_singleton.mpr fun h =>
    absurd (by rw [show field = _ from h]; decide) hfield
  texts := rfl

/-- A mark of the tag, which is in no field. -/
theorem mark (name : TagName) (lexed : Lexed) : Tags name [lexed.leaf none] [lexed] :=
  token name lexed (by decide)

/-- The name of the tag. -/
theorem ofName (name : TagName) {field : String} (hfield : field ≠ "content") :
    Tags name [name.tree field] [name.lexed] where
  closed := by
    refine List.forall_mem_singleton.mpr (Tree.closed_node (fun h => nomatch h) ?_)
    exact List.forall_mem_singleton.mpr (Tree.closed_leaf _ _)
  names := List.forall_mem_singleton.mpr fun _ => List.append_nil _
  fields := List.forall_mem_singleton.mpr fun h => hfield (Option.some.inj h)
  texts := rfl

/-- The opening tag of an element. -/
theorem opening (name : TagName) (context : LexContext) :
    Tags name name.openingTrees (name.openingTokens context) :=
  ((mark name (.lessThan context)).append (ofName name (by decide))).append (mark name .greaterThan)

/-- The closing tag of an element. -/
theorem closing (name : TagName) : Tags name name.closingTrees name.closingTokens :=
  (((mark name (.lessThan .normal)).append (mark name .slash)).append
    (ofName name (by decide))).append (mark name .greaterThan)

/-- The opening tag of an embedded element, with the type of its text. -/
theorem embed (name : TagName) (type : Option TextType) (context : LexContext) :
    Tags name (name.embedTrees type) (name.embedTokens type context ++ [.greaterThan]) := by
  have hstart : Tags name [(Lexed.lessThan .normal).leaf none, name.tree "name",
      Lexed.colon.leaf none] [.lessThan context, name.lexed, .colon] :=
    ((mark name (.lessThan context)).append (ofName name (by decide))).append (mark name .colon)
  have htype : Tags name ((TextType.tokens type).map (·.leaf (some "text_type")))
      (TextType.tokens type) := by
    cases type with
    | none => exact ⟨fun _ h => (nomatch h), fun _ h => (nomatch h), fun _ h => (nomatch h), rfl⟩
    | some type => exact token name type.lexed (by decide)
  exact hstart.append (htype.append (mark name .greaterThan))

/-- An element between its tags. -/
theorem element {content : Tree} {pieces : List Lexed} (h : Tags name trees tokens)
    (field : Option String) (hclosed : content.Closed) (hfield : content.field? = some "content")
    (htexts : content.leaves.map (·.text) = pieces.map (·.text)) :
    (Tree.node field .element (trees ++ content :: name.closingTrees)).Closed ∧
      (Tree.leavesList (trees ++ content :: name.closingTrees)).map (·.text)
        = (tokens ++ (pieces ++ name.closingTokens)).map (·.text) := by
  have hnames : ∀ tree ∈ [content], tree.field? = some "name" ∨ tree.field? = some "close_name" →
      tree.name = name.text := by
    refine List.forall_mem_singleton.mpr fun h => ?_
    rw [hfield] at h
    exact absurd h (by decide)
  have hclosing := closing name
  refine ⟨Tree.closed_element name.text ?_ ?_, ?_⟩
  · exact List.forall_mem_append.mpr ⟨h.closed, List.forall_mem_cons.mpr ⟨hclosed, hclosing.closed⟩⟩
  · exact List.forall_mem_append.mpr ⟨h.names,
      List.forall_mem_cons.mpr ⟨hnames content (List.mem_singleton_self _), hclosing.names⟩⟩
  · rw [Tree.leavesList_append, Tree.leavesList, List.map_append, List.map_append, List.map_append,
      List.map_append, h.texts, htexts, hclosing.texts]

end Tags

end TagName

namespace Located

variable {part : Located} {trees : List Tree} {pieces : List Piece}

/-- A name in a field is that of the tree in this field. -/
theorem Spans.nameIn?_eq (h : Spans part.children trees pieces) (field : String) :
    part.nameIn? field = (trees.find? fun tree => tree.field? = some field).map Tree.name := by
  have hbare := h.bare
  clear h
  unfold nameIn? child?
  generalize part.children = parts at hbare
  induction parts generalizing trees with
  | nil =>
    rw [List.map_nil] at hbare
    rw [List.map_eq_nil_iff.mp hbare.symm]
    rfl
  | cons child others ih =>
    cases trees with
    | nil => cases hbare
    | cons tree trees =>
      obtain ⟨hfirst, hothers⟩ := List.cons.inj hbare
      have hfield : child.field? = tree.field? := by
        rw [← field_bare, hfirst, Tree.field_bare]
      have hname : child.nameText = tree.name := by
        rw [nameText_eq_bare, ← Tree.name_bare, ← hfirst]
        rfl
      rw [List.find?_cons, List.find?_cons, hfield]
      by_cases hfound : tree.field? = some field
      · rw [decide_eq_true hfound]
        exact congrArg some hname
      · rw [decide_eq_false hfound]
        exact ih hothers

end Located

/-- The body of an element is found behind its opening tag. -/
theorem Located.Spans.content?_eq {element content : Located} {front others : List Located}
    {name : TagName} {trees : List Tree} {tokens : List Lexed} {kind : SyntaxKind}
    {children : List Tree} {pieces pieces' : List Piece} (h : Spans front trees pieces)
    (hchildren : element.children = front ++ content :: others) (htags : name.Tags trees tokens)
    (hcontent : Spans [content] [.node (some "content") kind children] pieces')
    (hkind : kind ∈ [SyntaxKind.elementsExpression, .mixedContent, .textContent, .embedContent]) :
    (⟨element⟩ : Element).content? = some (.content ⟨content⟩) := by
  have hfront := h.find?_field_eq_none htags.fields
  have hfield : content.field? = some "content" := hcontent.field_eq
  have hfound : element.child? "content" = some content := by
    rw [Located.child?, hchildren, List.find?_append, hfront, List.find?_cons, hfield]
    rfl
  have hcontentKind : content.kind = kind := hcontent.kind_eq
  unfold Element.content? Located.fieldView?
  rw [hfound]
  show content.nodeView? = _
  unfold Located.nodeView? Located.view?
  rw [hcontent.isNode_eq_true, hcontentKind]
  simp only [List.mem_cons, List.not_mem_nil, or_false] at hkind
  rcases hkind with hkind | hkind | hkind | hkind <;> rw [hkind] <;> rfl

/-! ### The module around an element -/

namespace Grammar

open Parse

variable {p : Parser} {source rest : Text} {name : TagName} {written : List Piece → Tree → Prop}

/-- The parser of an element, as the rules call it, is that of `element` with
enough fuel. -/
theorem yields_descent_element {field : Option String} {post : Completed → Parser → Prop}
    (h : Yields (element (descentTo (4 * p.text.length + 7)) field) p post) :
    Yields (descent (.element field)) p fun answer q => ∃ node, answer = some node ∧ post node q := by
  refine .get ?_
  show Yields (step (descentTo (4 * p.text.length + 7)) (.element field)) p _
  unfold step
  refine h.bind ?_
  intro node q hq
  exact .pure ⟨node, rfl, hq⟩

/-- An element is an item of a module. -/
theorem yields_moduleItem_element {post : Parser → Completed → Parser → Prop}
    (h : p.Faces [] (CodePoint.ofChar '<' :: (name.text ++ rest))) (hcontext : p.context = .normal)
    (helement : ∀ q, Covers p [] .normal q → q.memo = p.memo →
      Yields (element (descentTo (4 * p.text.length + 7)) (some "element")) q (post q)) :
    Yields (moduleItem descent) p fun answer r => ∃ q node, answer = some node ∧
      Records p [] [] .normal q ∧ post q node r := by
  have hkind : p.kind = .lessThan := (faces_start hcontext (.inl rfl) h).2
  unfold moduleItem
  refine .get ?_
  rw [hkind]
  refine (yields_nthIs_slash_start hcontext (.inl rfl) h).bind ?_
  rintro _ q ⟨rfl, hq, hmemo⟩
  have htext : q.text = p.text := hq.text h.live
  have helement := helement q hq.toCovers hmemo
  rw [← htext] at helement
  refine .ite_false Bool.false_ne_true ((yields_descent_element helement).mono ?_)
  rintro _ r ⟨node, rfl, hr⟩
  exact ⟨q, node, rfl, hq, hr⟩

/-- A source that is one element is a module with that element alone. -/
theorem yields_module_element (h : p.Faces [] source) (hcontext : p.context = .normal)
    (hsource : source = CodePoint.ofChar '<' :: (name.text ++ rest))
    (helement : ∀ q, Covers p [] .normal q → q.memo = p.memo →
      Yields (element (descentTo (4 * p.text.length + 7)) (some "element")) q fun node r =>
        ∃ pieces tree, written pieces tree ∧ Consists source pieces [] ∧
          Shapes q (pieces.map (·.lexed)) tree node .normal r) :
    Yields (module descent) p fun node q => ∃ pieces tree, written pieces tree ∧
      Consists source pieces [] ∧
        Shapes p (pieces.map (·.lexed)) (.node none .moduleDefinition [tree]) node .normal q := by
  have hkind : p.kind = .lessThan := (faces_start hcontext (.inl rfl) (hsource ▸ h)).2
  refine (yields_module_single (fun _ => True)
    (fun tokens tree => ∃ pieces, tokens = pieces.map (·.lexed) ∧ written pieces tree ∧
      Consists source pieces []) h hcontext (by rw [hkind]; decide) fun q hq _ hmemo => ?_).mono ?_
  · have htext : q.text = p.text := hq.text h.live
    rw [← htext] at helement
    refine (yields_moduleItem_element (hsource ▸ h.same hq) hq.context fun r hr hmemo' =>
      helement r (hq.trans hr) (hmemo'.trans hmemo)).mono ?_
    rintro _ s ⟨r, node, rfl, hr, pieces, tree, hwritten, hconsists, hs⟩
    exact ⟨rfl, trivial, _, tree, ⟨pieces, rfl, hwritten, hconsists⟩, hconsists.lexes,
      hr.trans hs.records⟩
  · rintro node q ⟨-, _, tree, ⟨pieces, rfl, hwritten, hconsists⟩, -, hq⟩
    exact ⟨pieces, tree, hwritten, hconsists, hq⟩

end Grammar

/-! ### Documents -/

/-- The document has no diagnostic, and its module is this element
alone. -/
structure Document.IsElement (document : Document) (element : Located) : Prop where
  diagnostics : document.diagnostics = []
  only : ∃ module, document.root.module = .ok module ∧ module.node.childNodes = [element] ∧
    module.element? = some ⟨element⟩

namespace Document

open Parse

variable {source file : Text} {options : Options} {written : List Piece → Tree → Prop}

/-- The document of a source whose pieces are known, and what its module is made
of: the items and the end of the source. The tree is known up to trivia, each
part of it holds its pieces, and nothing is reported if the checks have nothing
to report. -/
theorem exists_parse_of_pieces {pieces : List Piece} {items : List Tree}
    (hconsists : Consists source pieces [])
    (htexts : (Tree.leavesList items).map (·.text) = pieces.map (·.lexed.text))
    (hrun : Yields (Grammar.module Grammar.descent) (parser source options file) fun node q =>
      ∃ context, Shapes (parser source options file) (pieces.map (·.lexed))
        (.node none .moduleDefinition items) node context q) :
    ∃ document module last, parse (.ofText source) options file = .ok document ∧
      document.tree.bare = (wholeTree items).bare ∧ document.root.module = .ok module ∧
      Located.Spans module.node.children (items ++ [endLeaf]) (pieces ++ [⟨[], ⟨last, .eof, []⟩⟩]) ∧
      (document.root.check options file = [] → document.diagnostics = []) := by
  have hleaves : (Tree.leavesList items).map (·.text) = (pieces.map (·.lexed)).map (·.text) := by
    rw [htexts, List.map_map]
    rfl
  obtain ⟨document, hparse, hbare, ⟨last, hshows⟩, hchecked⟩ :=
    exists_parse_of_shapes hconsists.lexes hleaves hrun
  -- The end of the source is a piece, too.
  have hroot : Located.Spans [document.root] [wholeTree items]
      (pieces ++ [⟨[], ⟨last, .eof, []⟩⟩]) := by
    refine ⟨?_, .ofSource source file, [], [], [], Nat.zero_le _,
      hconsists.append (.cons .eof (.nil [])), ?_⟩
    · rw [List.map_singleton, List.map_singleton, ← hbare]
      show [(document.tree.withField none).bare] = _
      rw [Tree.bare_withField, hbare]
      rfl
    · rw [List.flatMap_singleton, List.append_nil, List.append_nil, List.map_append]
      rwa [List.map_map] at hshows
  obtain ⟨module, hmodule⟩ := hroot.children.exists_eq_singleton
  have hspans := hroot.children
  rw [hmodule] at hspans
  have hmoduleKind : module.kind = .moduleDefinition := hspans.kind_eq
  have honly : document.root.nodeOfKind? .moduleDefinition = some module := by
    simp [Located.nodeOfKind?, Located.childNodes, hmodule, hspans.isNode_eq_true, hmoduleKind]
  have hrootKind : document.root.kind = .root := hroot.kind_eq
  refine ⟨document, ⟨module⟩, last, hparse, hbare, ?_, hspans.children, hchecked⟩
  simp [Located.module, hrootKind, honly]

/-- The document of a source that is one element. The hypotheses say what the
parse does (`hrun`), and what is asked of the tree so that the checks have
nothing to report (`hwritten`); the predicate `written` is what the caller knows
of pieces and tree. -/
theorem exists_parse_of_element
    (hrun : Yields (Grammar.module Grammar.descent) (parser source options file) fun node q =>
      ∃ pieces tree, written pieces tree ∧ Consists source pieces [] ∧
        Shapes (parser source options file) (pieces.map (·.lexed))
          (.node none .moduleDefinition [tree]) node .normal q)
    (hwritten : ∀ pieces tree, written pieces tree → tree.Closed ∧
      tree.leaves.map (·.text) = pieces.map (·.lexed.text) ∧
      ∃ trees, tree = .node (some "element") .element trees) :
    ∃ document element pieces tree, parse (.ofText source) options file = .ok document ∧
      document.IsElement element ∧ written pieces tree ∧ Located.Spans [element] [tree] pieces := by
  obtain ⟨node, q, hok, pieces, tree, hknown, hconsists, hshapes⟩ := hrun.exists_ok
  obtain ⟨hclosed, htexts, trees, htree⟩ := hwritten pieces tree hknown
  have hleaves : (Tree.leavesList [tree]).map (·.text) = pieces.map (·.lexed.text) := by
    rw [Tree.leavesList, Tree.leavesList, List.append_nil, htexts]
  obtain ⟨document, module, last, hparse, hbare, hmodule, hspans, hchecked⟩ :=
    exists_parse_of_pieces hconsists hleaves (.of_ok hok ⟨.normal, hshapes⟩)
  obtain ⟨element, others, hchildren, helement, hothers⟩ :=
    @Located.Spans.cons _ [endLeaf] _ _ _ hspans (by
      have hlength := congrArg List.length htexts
      rwa [List.length_map, List.length_map] at hlength)
  obtain ⟨last, rfl⟩ := hothers.exists_eq_singleton
  rw [htree] at helement
  have hnodes : module.node.childNodes = [element] := by
    simp [Located.childNodes, hchildren, helement.isNode_eq_true, hothers.isNode_eq_false]
  refine ⟨document, element, pieces, tree, hparse, ⟨hchecked ?_, module, hmodule, hnodes, ?_⟩, hknown,
    htree ▸ helement⟩
  · exact check_eq_nil_of_items hbare (List.forall_mem_singleton.mpr hclosed) fun _ =>
      List.countP_le_length
  · have hfield : element.field? = some "element" := helement.field_eq
    simp [Module.element?, Located.nodeIn?, Located.child?, hchildren, helement.isNode_eq_true, hfield]

end Document

end MarkupSyntax
