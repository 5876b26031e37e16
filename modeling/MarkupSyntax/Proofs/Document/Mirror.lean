import MarkupSyntax.Proofs.Document.Element
import MarkupSyntax.Proofs.Grammar.Bodies

/-!
# `MarkupSyntax.Proofs.Document.Mirror`: documents that mirror an element

An element whose body holds elements, texts and names in braces is read
back as it is meant: the views of the document have its names and its
items in order, and each text stands for itself (`Markup.Mirrors`).
-/

set_option autoImplicit false

namespace MarkupSyntax

open Grammar Parse

namespace Markup

mutual
/-- The part of a document is the item: its view is of the right class, and
reads as what was written. For an element this is asked of its body, too, in
order and with nothing else in it. -/
def Mirrors : Markup → Located → Prop
  | text t, part =>
    part.nodeView? = some (.textRun ⟨part⟩) ∧ part.kind = .textRun ∧
      (⟨part⟩ : TextRun).read = .ok t
  | interpolation name, part =>
    part.nodeView? = some (.interpolation ⟨part⟩) ∧ part.kind = .interpolationExpression ∧
      ∃ value, (⟨part⟩ : Interpolation).value? = some (.identifier ⟨value⟩) ∧
        (⟨value⟩ : Identifier).name? = some name.text
  | element name body, part =>
    part.nodeView? = some (.element ⟨part⟩) ∧ (⟨part⟩ : Element).name? = some name.text ∧
      (⟨part⟩ : Element).closeName? = some name.text ∧
        ∃ content, (⟨part⟩ : Element).content? = some (.content ⟨content⟩) ∧
          content.kind = contentKind body ∧ AllMirrored body content.children

/-- The parts are the items, in order, and nothing else. -/
def AllMirrored : List Markup → List Located → Prop
  | [], parts => parts = []
  | item :: rest, parts =>
    ∃ part others, parts = part :: others ∧ item.Mirrors part ∧ AllMirrored rest others
end

/-! ### Trees that are read back -/

/-- A tree passes the checks on tags, and its leaves are the pieces. -/
structure Passes (tree : Tree) (pieces : List Piece) : Prop where
  closed : tree.Closed
  texts : tree.leaves.map (·.text) = pieces.map (·.lexed.text)

/-- The same of trees that follow one another. -/
structure AllPass (trees : List Tree) (pieces : List Piece) : Prop where
  closed : ∀ tree ∈ trees, tree.Closed
  texts : (Tree.leavesList trees).map (·.text) = pieces.map (·.lexed.text)

/-- As many pieces as leaves, so the pieces of a body can be told from those of
the tags. -/
theorem Passes.length_leaves {tree : Tree} {pieces : List Piece} (h : Passes tree pieces) :
    tree.leaves.length = pieces.length := by
  have hlength := congrArg List.length h.texts
  rwa [List.length_map, List.length_map] at hlength

/-- A node of other kinds than an element asks nothing of its own. -/
theorem AllPass.node {trees : List Tree} {pieces : List Piece} (h : AllPass trees pieces)
    (field : Option String) {kind : SyntaxKind} (hkind : kind ≠ .element) :
    Passes (.node field kind trees) pieces :=
  ⟨Tree.closed_node (fun helement => absurd helement hkind) h.closed, h.texts⟩

/-- The body of an element is none itself. -/
theorem contentKind_ne_element (body : List Markup) : contentKind body ≠ .element := by
  unfold contentKind
  split <;> exact SyntaxKind.noConfusion

/-- The pieces of a name in braces are its leaves. -/
theorem passes_interpolation (name : Word .identifier) (context : LexContext) :
    Passes (interpolationTree name context)
      ((interpolationTokens name context).map Lexed.piece) := by
  refine ⟨Tree.closed_of_notMem_kinds (by simp [interpolationTree, Lexed.leaf, Term.element_notMem_kinds]), rfl⟩

/-- An element passes if its body does: both of its tags have its name, and the
body is between them. -/
theorem passes_element {body : List Markup} {inner : List Piece} {trees : List Tree}
    (h : AllPass trees inner) (name : TagName) (context : LexContext) (field : Option String) :
    Passes ((elementTree name body trees).withField field) ((name.openingTokens context).map Lexed.piece ++
      (inner ++ name.closingTokens.map Lexed.piece)) := by
  have hbody := h.node (some "content") (contentKind_ne_element body)
  obtain ⟨hclosed, htexts⟩ := (TagName.Tags.opening name context).element field hbody.closed rfl
    (hbody.texts.trans (List.map_map (g := fun token : Lexed => token.text)).symm)
  refine ⟨hclosed, htexts.trans ?_⟩
  simp only [List.map_append, List.map_map]
  rfl

mutual
/-- What an item is written to passes. The recursion is that of items and their
bodies. -/
theorem passes_of_written : ∀ (item : Markup) {pieces : List Piece} {tree : Tree},
    item.Written pieces tree → Passes tree pieces
  | text t, pieces, tree, ⟨_, htree⟩ => by
    subst htree
    refine ⟨Tree.closed_node (fun h => nomatch h) fun tree hmem => ?_, ?_⟩
    · obtain ⟨token, -, rfl⟩ := List.mem_map.mp hmem
      exact Tree.closed_leaf _ _
    · rw [Grammar.texts_runTree, List.map_map]
      rfl
  | interpolation name, pieces, tree, ⟨context, hpieces, htree⟩ => by
    subst hpieces htree
    exact passes_interpolation name context
  | element name body, pieces, tree, ⟨context, inner, trees, hwritten, hpieces, htree⟩ => by
    subst hpieces htree
    exact passes_element (allPass_of_written body hwritten) name context none

/-- The same of items that follow one another. -/
theorem allPass_of_written : ∀ (items : List Markup) {pieces : List Piece} {trees : List Tree},
    AllWritten items pieces trees → AllPass trees pieces
  | [], pieces, trees, ⟨hpieces, htrees⟩ => by
    subst hpieces htrees
    exact ⟨fun _ hmem => (nomatch hmem), rfl⟩
  | item :: rest, pieces, trees, ⟨front, tree, back, others, hfirst, hrest, hpieces, htrees⟩ => by
    subst hpieces htrees
    have hone := passes_of_written item hfirst
    have hmany := allPass_of_written rest hrest
    refine ⟨List.forall_mem_cons.mpr ⟨hone.closed, hmany.closed⟩, ?_⟩
    rw [Tree.leavesList, List.map_append, List.map_append, hone.texts, hmany.texts]
end

/-! ### Views -/

end Markup

namespace Markup

open Located

/-- A text is read as one run that stands for it. -/
theorem mirrors_text {t : Text} {part : Located} {pieces : List Piece} {tree : Tree}
    (ht : t.Readable) (h : (text t).Written pieces tree) (hspans : Spans [part] [tree] pieces) :
    (text t).Mirrors part := by
  obtain ⟨⟨rest, hreads⟩, rfl⟩ := h
  have hkind : part.kind = .textRun := hspans.kind_eq
  refine ⟨?_, hkind, ?_⟩
  · rw [nodeView?, hspans.isNode_eq_true, if_pos rfl, view?, hkind]
  · refine (hspans.readRun SyntaxKind.noConfusion (hreads.gap ht.first) ?_ fun piece hmem =>
      (hreads.isText piece hmem).readable).trans (congrArg Except.ok hreads.value)
    have hlength := congrArg List.length (texts_runTree .textRun (pieces.map (·.lexed)))
    rwa [List.length_map, List.length_map, List.length_map] at hlength

/-- A name in braces is read as one. -/
theorem mirrors_interpolation {name : Word .identifier} {part : Located} {pieces : List Piece}
    {tree : Tree} (h : (interpolation name).Written pieces tree)
    (hspans : Spans [part] [tree] pieces) : (interpolation name).Mirrors part := by
  obtain ⟨context, rfl, rfl⟩ := h
  have hkind : part.kind = .interpolationExpression := hspans.kind_eq
  obtain ⟨brace, others, hchildren, hbrace, hothers⟩ := @Spans.cons _ _ [_] [_, _] _
    hspans.children rfl
  obtain ⟨value, others, rfl, hvalue, -⟩ := @Spans.cons _ _ [_] [_] _ hothers rfl
  refine ⟨?_, hkind, value, ?_, ?_⟩
  · rw [nodeView?, hspans.isNode_eq_true, if_pos rfl, view?, hkind]
  · have hnone : brace.field? = none := hbrace.field_eq
    have hfield : value.field? = some "value" := hvalue.field_eq
    have hfound : part.child? "value" = some value := by
      rw [child?, hchildren, List.find?_cons, List.find?_cons, hnone, hfield]
      rfl
    have hvalueKind : value.kind = .identifierExpression := hvalue.kind_eq
    unfold Interpolation.value? fieldView?
    rw [hfound]
    show value.nodeView? = _
    have hnode : value.isNode = true := Spans.isNode_eq_true hvalue
    rw [nodeView?, hnode, if_pos rfl, view?, hvalueKind]
  · have hchildren : Spans value.children _ _ := Spans.children hvalue
    exact (hchildren.nameIn?_eq "name").trans (congrArg some (List.append_nil _))

/-- An element is read with its names, and with its body if the items are
read. -/
theorem mirrors_element {name : TagName} {body : List Markup} {part : Located}
    {inner : List Piece} {trees : List Tree} {context : LexContext} (field : Option String)
    (hpass : AllPass trees inner)
    (hbody : ∀ {parts}, Spans parts trees inner → AllMirrored body parts)
    (hspans : Spans [part] [(elementTree name body trees).withField field]
      ((name.openingTokens context).map Lexed.piece ++
        (inner ++ name.closingTokens.map Lexed.piece))) : (element name body).Mirrors part := by
  have hkind : part.kind = .element := hspans.kind_eq
  have hchildren : Spans part.children (name.openingTrees ++
      Tree.node (some "content") (contentKind body) trees :: name.closingTrees) _ :=
    Spans.children hspans
  obtain ⟨front, back, hparts, hfront, hback⟩ := hchildren.split rfl
  obtain ⟨content, others, rfl, hcontent, -⟩ := hback.cons
    (hpass.node (some "content") (contentKind_ne_element body)).length_leaves
  refine ⟨?_, ?_, ?_, content, ?_, hcontent.kind_eq, hbody hcontent.children⟩
  · rw [nodeView?, Spans.isNode_eq_true hspans, if_pos rfl, view?, hkind]
  · exact (hchildren.nameIn?_eq "name").trans (congrArg some (List.append_nil _))
  · exact (hchildren.nameIn?_eq "close_name").trans (congrArg some (List.append_nil _))
  · refine hfront.content?_eq hparts (.opening name context) hcontent ?_
    unfold contentKind
    split <;> decide

mutual
/-- What was read back as an item is the item. The hypothesis `Spans` says that
the part of the document has the pieces of the item and its tree, but for where
it is. -/
theorem mirrors_of_written : ∀ (item : Markup) {pieces : List Piece} {tree : Tree} {part : Located},
    item.WellFormed → item.Written pieces tree → Spans [part] [tree] pieces → item.Mirrors part
  | text _, _, _, _, hwell, hwritten, hspans => mirrors_text hwell hwritten hspans
  | interpolation _, _, _, _, _, hwritten, hspans => mirrors_interpolation hwritten hspans
  | element name body, pieces, tree, part, hwell, hwritten, hspans => by
    obtain ⟨context, inner, trees, hwritten, rfl, rfl⟩ := hwritten
    exact mirrors_element none (allPass_of_written body hwritten)
      (allMirrored_of_written body hwell hwritten) hspans

/-- The same of the items of a body, each of which has its own share of the
parts. -/
theorem allMirrored_of_written : ∀ (items : List Markup) {pieces : List Piece} {trees : List Tree},
    AllWellFormed items → AllWritten items pieces trees →
      ∀ {parts : List Located}, Spans parts trees pieces → AllMirrored items parts
  | [], pieces, trees, _, hwritten, parts, hspans => by
    obtain ⟨rfl, rfl⟩ := hwritten
    exact List.map_eq_nil_iff.mp hspans.bare
  | item :: rest, pieces, trees, hwell, hwritten, parts, hspans => by
    obtain ⟨front, tree, back, others, hfirst, hrest, rfl, rfl⟩ := hwritten
    obtain ⟨part, others, rfl, hpart, hothers⟩ :=
      hspans.cons (passes_of_written item hfirst).length_leaves
    exact ⟨part, others, rfl, mirrors_of_written item hwell.1 hfirst hpart,
      allMirrored_of_written rest hwell.2.2 hrest hothers⟩
end

end Markup

namespace Grammar

variable {p : Parser} {name : TagName} {body : List Markup}

/-- The element is the one of the module. -/
def RootWritten (name : TagName) (body : List Markup) (pieces : List Piece) (tree : Tree) : Prop :=
  ∃ element, (Markup.element name body).Written pieces element ∧
    tree = element.withField (some "element")

/-- The parse of a source that is one element, with nothing in the memo. There
is a level of nesting for each character, which is more than elements in
elements can need. -/
theorem yields_module_markup (hwell : (Markup.element name body).WellFormed)
    (h : p.Faces [] (Markup.element name body).render) (hcontext : p.context = .normal)
    (htext : p.text = (Markup.element name body).render) (hmemo : p.memo = [])
    (hdepth : p.depth + (Markup.element name body).render.length ≤ p.options.maxNestingDepth) :
    Yields (module descent) p fun node q => ∃ pieces tree, RootWritten name body pieces tree ∧
      Consists (Markup.element name body).render pieces [] ∧
        Shapes p (pieces.map (·.lexed)) (.node none .moduleDefinition [tree]) node .normal q := by
  have hsource : (Markup.element name body).render = CodePoint.ofChar '<' ::
      (name.text ++ CodePoint.ofChar '>' :: (Markup.renderAll body ++ name.closing)) := by
    rw [Markup.render, TagName.opening_append]
  refine yields_module_element h hcontext hsource fun q hq hmemo' => ?_
  have hsame : q.text = p.text := hq.text h.live
  have hready : Markup.Ready ((Markup.element name body).bodies []) q (4 * p.text.length + 7 + 1)
      (Markup.element name body).render.length := by
    refine ⟨?_, ⟨?_, ?_⟩, ?_⟩
    · rw [hsame, htext]
      exact Markup.places_render _
    · rw [hq.calm.depth, hq.calm.options]
      exact hdepth
    · rw [htext]
      omega
    · rw [hmemo', hmemo]
      exact fun _ _ hmem => nomatch hmem
  have h := h.same hq
  rw [← List.append_nil (Markup.element name body).render] at h
  refine (yields_element_body (reads_all body hwell) hwell h (.inl hq.context) hready
    (List.Subset.refl _) (some "element")).mono ?_
  rintro node r ⟨-, hr⟩
  obtain ⟨-, pieces, trees, hwritten, hconsists, hshapes⟩ := hr.written rfl (.inl hq.context)
  rw [List.append_nil] at hconsists
  exact ⟨pieces, _, ⟨_, hwritten, rfl⟩, hconsists, hshapes⟩

end Grammar

namespace Document

/-- The document of a source that is one element, and what the element is read
from: the pieces of its tags, and between them those that its body is written
to. -/
theorem exists_parse_of_markup (name : TagName) (body : List Markup)
    (wellFormed : (Markup.element name body).WellFormed) (options : Options) (file : Text)
    (deepEnough : ((Markup.element name body).render.length : Int) ≤ options.maxNestingDepth) :
    ∃ document element context inner trees,
      parse (.ofText (Markup.element name body).render) options file = .ok document ∧
      document.IsElement element ∧ Markup.AllWritten body inner trees ∧
      Located.Spans [element] [(Markup.elementTree name body trees).withField (some "element")]
        ((name.openingTokens context).map Lexed.piece ++
          (inner ++ name.closingTokens.map Lexed.piece)) := by
  have hfaces : (parser (Markup.element name body).render options file).Faces []
      (Markup.element name body).render := faces_ofText (.nil _)
  have hdepth : (parser (Markup.element name body).render options file).depth +
      (Markup.element name body).render.length ≤ options.maxNestingDepth := by
    show (0 : Int) + _ ≤ _
    omega
  have hrun := yields_module_markup wellFormed hfaces rfl (at_ofSource _ options file).text rfl hdepth
  obtain ⟨document, element, pieces, tree, hparse, helement, hwritten, hspans⟩ :=
    exists_parse_of_element hrun fun pieces tree hwritten => by
      obtain ⟨_, ⟨context, inner, trees, hinner, rfl, rfl⟩, rfl⟩ := hwritten
      have hpasses : Markup.Passes ((Markup.elementTree name body trees).withField (some "element"))
          _ := Markup.passes_element (Markup.allPass_of_written body hinner) name context _
      exact ⟨hpasses.closed, hpasses.texts, _, rfl⟩
  obtain ⟨_, ⟨context, inner, trees, hinner, rfl, rfl⟩, rfl⟩ := hwritten
  exact ⟨document, element, context, inner, trees, hparse, helement, hinner, hspans⟩

/-- An element is read back as it was written. Its body holds any number of
texts, names in braces and elements, to any depth; `WellFormed` asks that each
text can be written at all, and that no two texts follow each other, which would
be read as one. Nothing is reported, and the tree mirrors the element: each body
has the kind that its items ask for, and each text stands for itself, also where
it looks like a comment or a string. -/
theorem parse_render (name : TagName) (body : List Markup)
    (wellFormed : (Markup.element name body).WellFormed) (options : Options) (file : Text)
    (deepEnough : ((Markup.element name body).render.length : Int) ≤ options.maxNestingDepth) :
    ∃ document element,
      parse (.ofText (Markup.element name body).render) options file = .ok document ∧
      document.IsElement element ∧ (Markup.element name body).Mirrors element := by
  obtain ⟨document, element, context, inner, trees, hparse, helement, hinner, hspans⟩ :=
    exists_parse_of_markup name body wellFormed options file deepEnough
  exact ⟨document, element, hparse, helement, Markup.mirrors_element (some "element")
    (Markup.allPass_of_written body hinner)
    (Markup.allMirrored_of_written body wellFormed hinner) hspans⟩

/-- A body with text that looks like a comment, and one with elements alone. -/
theorem parse_render_nested :
    let name : TagName := ⟨"p", .identifier, ⟨rfl, rfl, rfl⟩, by decide⟩
    let word : Word .identifier := ⟨"x", ⟨⟨rfl, rfl, rfl⟩, rfl⟩⟩
    let body : List Markup := [.element name [.text "iffy // \x7b"], .interpolation word,
      .text "a < b", .element name [.element name [], .interpolation word]]
    (Markup.element name body).WellFormed ∧
      ((Markup.element name body).render.length : Int) ≤ ({} : Options).maxNestingDepth ∧
      (Markup.element name body).render
        = Text.ofString
          "<p><p>iffy // \\\x7b</p>\x7bx\x7da &lt; b<p><p></p>\x7bx\x7d</p></p>" ∧
      Markup.isSequence body = false ∧
      ∃ document element,
        parse (.ofText (Markup.element name body).render) {} "f" = .ok document ∧
        document.IsElement element ∧ (Markup.element name body).Mirrors element := by
  intro name word body
  have readable : ∀ t ∈ [("iffy // \x7b" : Text), "a < b"], t.Readable := by
    intro t ht
    simp only [List.mem_cons, List.not_mem_nil, or_false] at ht
    rcases ht with rfl | rfl <;> exact ⟨by decide, by decide, by decide, by decide, by decide⟩
  have wellFormed : (Markup.element name body).WellFormed := by
    simp [Markup.WellFormed, Markup.AllWellFormed, Markup.isText, body, readable]
  have deepEnough : ((Markup.element name body).render.length : Int)
      ≤ ({} : Options).maxNestingDepth := by decide
  exact ⟨wellFormed, deepEnough, by decide, by decide,
    parse_render name body wellFormed {} "f" deepEnough⟩

end Document

end MarkupSyntax
