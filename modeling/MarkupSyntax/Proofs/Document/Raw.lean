import MarkupSyntax.Proofs.Document.Element
import MarkupSyntax.Proofs.Grammar.Raw

/-!
# `MarkupSyntax.Proofs.Document.Raw`: raw bodies are read as they stand

A raw body may hold anything but a closing tag of its element: markup,
quotes, openers of comments, the beginning of a closing tag. It is read
as one run of text that stands for all of it, up to the closing tag, in
which white space may stand (`Document.parse_rawSource`).
-/

set_option autoImplicit false

namespace MarkupSyntax

open Grammar Parse

namespace MarkupName

variable {name : MarkupName} {body : Text} {spacing : Spacing}

/-- A source that is one raw element: its opening tag, the body, and a closing
tag with white space in it. -/
def rawSource (name : MarkupName) (body : Text) (spacing : Spacing) : Text :=
  name.rawOpening ++ (body ++ name.looseClosing spacing)

/-- The source is read as the tokens of the raw element. The body has no closing
tag of its element in it, so it ends at the one that is meant. -/
theorem lexes_rawSource (hbody : Text.Unclosed name.text body) (spacing : Spacing) :
    Lexes (name.rawSource body spacing) (name.rawElementTokens body) [] := by
  have hclosing := name.lexes_looseClosing spacing []
  have hraw := (name.lexes_raw hbody spacing).append hclosing
  rw [List.append_nil] at hraw
  exact (name.lexes_rawOpening _).append hraw

/-- The leaves of the opening tag have the texts of its tokens. With the two
lemmas below this makes the texts of the whole element (`texts_rawElement`). -/
theorem texts_rawOpening (name : MarkupName) :
    (Tree.leavesList name.rawOpeningTrees).map (·.text)
      = (name.rawOpeningTokens .normal).map (·.text) := by
  simp [rawOpeningTrees, rawLeaf, Lexed.leaf, Tree.leaves, Tree.leavesList, name.texts_tree,
    rawOpeningTokens, rawTagEnd]
  rfl

/-- The leaves of the body have the texts of its tokens. -/
theorem texts_rawContent (name : MarkupName) (body : Text) :
    (name.rawContent body).leaves.map (·.text) = (name.rawTokens body).map (·.text) :=
  Lexed.texts_leaves _ none

/-- The leaves of the closing tag have the texts of its tokens. -/
theorem texts_closing (name : MarkupName) :
    (Tree.leavesList name.closingTrees).map (·.text) = name.closingTokens.map (·.text) := by
  simp [closingTrees, Lexed.leaf, Tree.leaves, Tree.leavesList, name.texts_tree, closingTokens]

/-- Tree and tokens of a raw element spell the same text, leaf by leaf. The tree
of a parse is compared with the meant one by these texts. -/
theorem texts_rawElement (name : MarkupName) (body : Text) (field : Option String) :
    (name.rawElement body field).leaves.map (·.text) = (name.rawElementTokens body).map (·.text) := by
  rw [rawElement, Tree.leaves, Tree.leavesList_append, Tree.leavesList, rawElementTokens,
    List.map_append, List.map_append, List.map_append, List.map_append, texts_rawOpening,
    texts_rawContent, texts_closing]

/-- A raw element passes the checks on finished trees: the closing tag repeats
the name, and its body has no further element in it. -/
theorem closed_rawElement (name : MarkupName) (body : Text) (field : Option String) :
    (name.rawElement body field).Closed := by
  have hbody : (name.rawContent body).Closed := Tree.closed_of_notMem_kinds (by
    simp [rawContent, Lexed.leaf, List.flatMap_map])
  refine Tree.closed_element name.text ?_ ?_
  · simp [rawOpeningTrees, closingTrees, Lexed.leaf, rawLeaf, Tree.closed_leaf, closed_tree, hbody]
  · simp [rawOpeningTrees, closingTrees, Lexed.leaf, rawLeaf, rawContent, Tree.field?, name_tree]

end MarkupName

namespace Grammar

variable {p : Parser} {name : MarkupName} {body : Text} {spacing : MarkupName.Spacing}

/-- What a raw element is read to: the pieces are its tokens, with what
separates them, and the tree is that of the element in the field of the module. -/
def RawWritten (name : MarkupName) (body : Text) (pieces : List Piece) (tree : Tree) : Prop :=
  pieces.map (·.lexed) = name.rawElementTokens body ∧ tree = name.rawElement body (some "element")

/-- A parse of a source that is one raw element. The module has the element as
its only part, and has read the source to the end. -/
theorem yields_module_raw (unclosed : Text.Unclosed name.text body)
    (h : p.Faces [] (name.rawSource body spacing)) (hcontext : p.context = .normal)
    (hdepth : p.depth < p.options.maxNestingDepth) :
    Yields (module descent) p fun node q => ∃ pieces tree, RawWritten name body pieces tree ∧
      Consists (name.rawSource body spacing) pieces [] ∧
        Shapes p (pieces.map (·.lexed)) (.node none .moduleDefinition [tree]) node .normal q := by
  obtain ⟨pieces, hpieces, hconsists⟩ := (name.lexes_rawSource unclosed spacing).exists_consists
  have hsource : name.rawSource body spacing = CodePoint.ofChar '<' :: (name.first.text ++
      (MarkupName.furtherText name.others ++ CodePoint.ofChar ':' :: (TagName.raw.text ++
        CodePoint.ofChar '>' :: (body ++ name.looseClosing spacing)))) := by
    rw [MarkupName.rawSource, MarkupName.rawOpening_append, MarkupName.text, List.append_assoc]
  refine yields_module_element h hcontext hsource fun q hq _ => ?_
  have h := h.same hq
  rw [MarkupName.rawSource, ← List.append_nil (name.looseClosing spacing)] at h
  refine (yields_element_raw unclosed h hq.context (by rwa [hq.calm.depth, hq.calm.options])
    (some "element")).mono ?_
  intro node r hr
  exact ⟨pieces, _, ⟨hpieces, rfl⟩, hconsists, hpieces ▸ hr⟩

end Grammar

namespace Document

open MarkupName

/-- A raw body is verbatim. Take any name, any body without a closing tag of
that name, and any white space in the closing tag. The document reports nothing
and is this element: its content is one run of raw text, and reading the run
gives the body character for character, whatever markup, quotes, entities or
escapes are in it.

One level of nesting is enough, since nothing in the body is read as markup. -/
theorem parse_rawSource (name : MarkupName) (body : Text) (spacing : Spacing)
    (unclosed : Text.Unclosed name.text body) (options : Options) (file : Text)
    (deepEnough : 1 ≤ options.maxNestingDepth) :
    ∃ document element run,
      parse (.ofText (name.rawSource body spacing)) options file = .ok document ∧
      document.IsElement element ∧ (⟨element⟩ : Element).isRaw = true ∧
      (⟨element⟩ : Element).content? = some (.textRun ⟨run⟩) ∧ run.kind = .rawTextRun ∧
      (⟨run⟩ : TextRun).read = .ok body ∧ (⟨element⟩ : Element).name? = some name.text ∧
      (⟨element⟩ : Element).closeName? = some name.text := by
  have hrun := yields_module_raw unclosed (faces_ofText (.nil (name.rawSource body spacing))) rfl
    (show (parser _ options file).depth < options.maxNestingDepth from deepEnough)
  -- The element is read back up to trivia and spaces. What the views say of it is read off its
  -- tree.
  obtain ⟨document, element, pieces, tree, hparse, helement, ⟨hpieces, rfl⟩, hspans⟩ :=
    exists_parse_of_element hrun (by
      rintro pieces _ ⟨hpieces, rfl⟩
      refine ⟨name.closed_rawElement body _, ?_, _, rfl⟩
      rw [texts_rawElement, ← hpieces, List.map_map]
      rfl)
  obtain ⟨front, back, rfl, hfront, hback⟩ := List.map_eq_append_iff.mp hpieces
  obtain ⟨inner, behind, rfl, hinner, -⟩ := List.map_eq_append_iff.mp hback
  have hchildren := hspans.children
  -- The body is the part in the field of contents.
  obtain ⟨run, hchild, hcontent⟩ := hchildren.exists_child? "content" (by
      simp [rawOpeningTrees, Lexed.leaf, rawLeaf, Tree.field?, MarkupName.tree]) rfl
    (by simpa [← hfront] using congrArg List.length (texts_rawOpening name))
    (by simpa [← hinner] using congrArg List.length (texts_rawContent name body))
  have hkind : run.kind = .rawTextRun := hcontent.kind_eq
  have hnamed := hchildren.nameIn?_eq
  refine ⟨document, element, run, hparse, helement, ?_, ?_, hkind, ?_, ?_, ?_⟩
  · have hraw : element.nameIn? "raw" = some rawModifier := hnamed "raw"
    rw [Located.nameIn?, Option.map_eq_some_iff] at hraw
    obtain ⟨_, hraw, -⟩ := hraw
    rw [Element.isRaw, hraw]
    rfl
  · rw [Element.content?, Located.fieldView?, hchild, Option.bind_some, Located.nodeView?,
      Located.Spans.isNode_eq_true hcontent, if_pos rfl, Located.view?, hkind]
  · rw [TextRun.read, hcontent.readRun_raw, List.flatMap_def, Lexed.texts_leaves, ← List.flatMap_def,
      flatMap_text_rawTokens]
  · exact (hnamed "name").trans (congrArg some (name.name_tree "name"))
  · exact (hnamed "close_name").trans (congrArg some (name.name_tree "close_name"))

/-- A body with the start of the closing tag, an opener of a comment, a string
that does not end and the tag of another element, and white space in the closing
tag. -/
theorem parse_rawSource_like_markup :
    let segment : TagName := ⟨"x-1", .markupIdentifier, ⟨rfl, rfl, rfl⟩, by decide⟩
    let name : MarkupName := ⟨segment, [segment]⟩
    let body := Text.ofString "=\x7b \" <!-- /* </x-1> </ x-1.x-1 <"
    let spacing : Spacing := ⟨" ", "\n", "\r\n\t", by decide, by decide, by decide⟩
    Text.Unclosed name.text body ∧ (1 : Int) ≤ ({} : Options).maxNestingDepth ∧
      name.rawSource body spacing = Text.ofString
        "<x-1.x-1:raw>=\x7b \" <!-- /* </x-1> </ x-1.x-1 << /\nx-1.x-1\r\n\t>" ∧
      ∃ document element run,
        parse (.ofText (name.rawSource body spacing)) {} "f" = .ok document ∧
        document.IsElement element ∧ (⟨element⟩ : Element).isRaw = true ∧
        (⟨element⟩ : Element).content? = some (.textRun ⟨run⟩) ∧ run.kind = .rawTextRun ∧
        (⟨run⟩ : TextRun).read = .ok body ∧ (⟨element⟩ : Element).name? = some name.text ∧
        (⟨element⟩ : Element).closeName? = some name.text := by
  intro segment name body spacing
  have unclosed : Text.Unclosed name.text body := by decide
  have deepEnough : (1 : Int) ≤ ({} : Options).maxNestingDepth := by decide
  exact ⟨unclosed, deepEnough, by decide,
    parse_rawSource name body spacing unclosed {} "f" deepEnough⟩

end Document

end MarkupSyntax
