import MarkupSyntax.Proofs.Document.Element
import MarkupSyntax.Proofs.Grammar.Escaped

/-!
# `MarkupSyntax.Proofs.Document.Escaped`: texts that are read as they are written

Text in an element is written with escapes for what would be markup.
Whatever the text is, the element is read back with one run of text in
its body, and the run stands for the text (`Document.parse_escapedText`).
Only white space at the ends of a body is no text.
-/

set_option autoImplicit false

namespace MarkupSyntax

open Grammar Parse

/-! ### Elements that hold a text -/

namespace TextForm

variable {form : TextForm} {name : TagName} {t rest : Text}

/-- An element of this form around a text. -/
def source (form : TextForm) (name : TagName) (t : Text) : Text :=
  form.opening name ++ (Text.escape form.typed t ++ name.closing)

/-- The opening tag is read as its tokens, whatever comes behind it. -/
theorem consists_opening (form : TextForm) (name : TagName) (rest : Text) :
    Consists (form.opening name ++ rest) ((form.openingTokens name).map Lexed.piece) rest := by
  cases form with
  | plain => exact name.consists_opening _ (.inl rfl)
  | embedded type =>
    have htag := (name.consists_embedTokens type _ (.inl rfl)).append (TagName.consists_greaterThan rest)
    rw [openingTokens, List.map_append]
    exact htag

/-- The parts of the opening tag are those of a tag of this name. -/
theorem tags_openingTrees (form : TextForm) (name : TagName) :
    name.Tags (form.openingTrees name) (form.openingTokens name) := by
  cases form with
  | plain => exact .opening name .normal
  | embedded type => exact .embed name type .normal

/-- The tag of the element starts with its name. -/
theorem exists_opening (form : TextForm) (name : TagName) (rest : Text) :
    ∃ behind, form.opening name ++ rest = CodePoint.ofChar '<' :: (name.text ++ behind) := by
  cases form with
  | plain => exact ⟨_, name.opening_append rest⟩
  | embedded type => exact ⟨_, congrArg (List.cons _) (List.append_assoc _ _ _)⟩

/-- The element is read as one with a run of text that stands for `t`. The
pieces are the tokens of the tags and those of the run, and the tree has the run
as the only part of its body. -/
def ReadsSource (form : TextForm) (name : TagName) (t : Text) (pieces : List Piece) (tree : Tree) :
    Prop :=
  ∃ body, ReadsBack form.typed t name.closing body ∧
    pieces = (form.openingTokens name).map Lexed.piece ++ (body ++ name.closingTokens.map Lexed.piece) ∧
    tree = .node (some "element") .element (form.openingTrees name ++
      .node (some "content") form.contentKind [runTree form.runKind (body.map (·.lexed))] ::
        name.closingTrees)

/-- Such a tree passes the checks, and its leaves have the texts of the pieces. -/
theorem ReadsSource.passes {pieces : List Piece} {tree : Tree}
    (h : form.ReadsSource name t pieces tree) :
    tree.Closed ∧ tree.leaves.map (·.text) = pieces.map (·.lexed.text) ∧
      ∃ trees, tree = .node (some "element") .element trees := by
  obtain ⟨body, -, rfl, rfl⟩ := h
  have hcontent : (Tree.node (some "content") form.contentKind
      [runTree form.runKind (body.map (·.lexed))]).Closed := by
    refine Tree.closed_node (fun h => ?_) (List.forall_mem_singleton.mpr (Tree.closed_node ?_ ?_))
    · rcases form with _ | _ | _ <;> cases h
    · intro h
      rcases form with _ | _ | _ <;> cases h
    · intro tree hmem
      obtain ⟨token, -, rfl⟩ := List.mem_map.mp hmem
      exact Tree.closed_leaf _ _
  have hbody : (Tree.node (some "content") form.contentKind
      [runTree form.runKind (body.map (·.lexed))]).leaves.map (·.text)
        = (body.map (·.lexed)).map (·.text) := by
    rw [← texts_runTree form.runKind, Tree.leaves, Tree.leavesList, Tree.leavesList, List.append_nil]
  obtain ⟨hclosed, htexts⟩ :=
    (form.tags_openingTrees name).element (some "element") hcontent rfl hbody
  refine ⟨hclosed, htexts.trans ?_, _, rfl⟩
  simp only [List.map_append, List.map_map]
  rfl

/-- The parse of the element. An empty text would have no run, and white space
at its ends would be trivia of the tags, so both are excluded. -/
theorem yields_module_text {p : Parser} (hne : t ≠ [])
    (hfirst : ∀ c ∈ t.head?, c.isWhitespace = false)
    (hlast : ∀ c ∈ t.getLast?, c.isWhitespace = false) (h : p.Faces [] (form.source name t))
    (hcontext : p.context = .normal) (hdepth : p.depth < p.options.maxNestingDepth)
    (hclean : p.errorCount = 0) (hmemo : p.memo = []) :
    Yields (module descent) p fun node q =>
      ∃ pieces tree, form.ReadsSource name t pieces tree ∧ Consists (form.source name t) pieces [] ∧
        Shapes p (pieces.map (·.lexed)) (.node none .moduleDefinition [tree]) node .normal q := by
  obtain ⟨behind, hopening⟩ := form.exists_opening name (Text.escape form.typed t ++ name.closing)
  refine yields_module_element h hcontext hopening fun q hq hmemo' => ?_
  have htext : q.text = p.text := hq.text h.live
  have h := h.same hq
  unfold source at h
  rw [← List.append_nil name.closing] at h
  have hroom : 4 * q.room ≤ 4 * p.text.length + 7 := by
    unfold Parser.room
    rw [htext]
    omega
  have hcalm := hq.calm
  refine (yields_element_text (works_descentTo _) hroom hne hfirst hlast
    (.of_notMem List.not_mem_nil) h hq.context (by rw [hcalm.depth, hcalm.options]; exact hdepth)
    (hcalm.errorCount.trans hclean) (hmemo'.trans hmemo) (some "element")).mono ?_
  rintro node r ⟨body, content, ⟨hreads, rfl⟩, hconsists, hr⟩
  rw [List.append_nil] at hreads hconsists
  refine ⟨_, _, ⟨body, hreads, rfl, rfl⟩, ?_, ?_⟩
  · refine (form.consists_opening name _).append (hconsists.append ?_)
    have hclosing := name.consists_closing []
    rwa [List.append_nil] at hclosing
  · simpa only [List.map_append, Lexed.map_lexed_piece] using hr

end TextForm

namespace Document

/-- What is written with escapes is read back, in every form of element that can
hold text: plain, as text, and as text with an embedded type. The text `t` is
arbitrary, but for white space at its ends and for the empty text, which make no
run. Nothing is reported, the element has one run of text as its body, and
reading the run gives `t`.

One level of nesting is enough, since all that could be markup in `t` is
escaped. -/
theorem parse_escapedText (form : TextForm) (name : TagName) (t : Text) (hne : t ≠ [])
    (hfirst : ∀ c ∈ t.head?, c.isWhitespace = false)
    (hlast : ∀ c ∈ t.getLast?, c.isWhitespace = false) (options : Options) (file : Text)
    (deepEnough : 1 ≤ options.maxNestingDepth) :
    ∃ document element content run,
      parse (.ofText (form.source name t)) options file = .ok document ∧
      document.IsElement element ∧
      (⟨element⟩ : Element).content? = some (.content ⟨content⟩) ∧
      content.kind = form.contentKind ∧ content.children = [run] ∧
      run.kind = form.runKind ∧ (⟨run⟩ : TextRun).read = .ok t := by
  obtain ⟨document, element, pieces, tree, hparse, helement, hknown, hspans⟩ :=
    exists_parse_of_element
      (TextForm.yields_module_text hne hfirst hlast (faces_ofText (.nil (form.source name t))) rfl
        (show (parser _ options file).depth < options.maxNestingDepth from deepEnough) rfl rfl)
      fun _ _ => TextForm.ReadsSource.passes
  obtain ⟨body, hreads, rfl, rfl⟩ := hknown
  -- The children of the element are the parts of the opening tag, the content and the rest: the
  -- lengths of what was written say where to cut.
  have hopening := congrArg List.length (form.tags_openingTrees name).texts
  obtain ⟨front, back, hchildren, hfront, hback⟩ := hspans.children.split (by
    rwa [List.length_map, List.length_map, ← List.length_map (f := Lexed.piece)] at hopening)
  obtain ⟨content, others, rfl, hcontent, hothers⟩ := hback.cons (by
    have hrun := congrArg List.length (texts_runTree form.runKind (body.map (·.lexed)))
    rw [List.length_map, List.length_map, List.length_map] at hrun
    rw [Tree.leaves, Tree.leavesList, Tree.leavesList, List.append_nil, hrun])
  -- The content holds the run alone, and the value of the run is read off its tokens.
  obtain ⟨run, hrun⟩ := hcontent.children.exists_eq_singleton
  have hspans := hcontent.children
  rw [hrun] at hspans
  refine ⟨document, element, content, run, hparse, helement, ?_, hcontent.kind_eq, hrun,
    hspans.kind_eq, ?_⟩
  · exact hfront.content?_eq hchildren (form.tags_openingTrees name) hcontent (by
      rcases form with _ | _ | _ <;> simp [TextForm.contentKind])
  · refine (hspans.readRun ?_ (hreads.gap hfirst) ?_ fun piece hmem =>
      (hreads.isText piece hmem).readable).trans (congrArg Except.ok hreads.value)
    · rcases form with _ | _ | _ <;> exact SyntaxKind.noConfusion
    · have hrun := congrArg List.length (texts_runTree form.runKind (body.map (·.lexed)))
      rwa [List.length_map, List.length_map, List.length_map] at hrun

/-- A text that looks like a control construct, with a comment behind it
and a string that does not end. -/
theorem parse_escapedText_like_code :
    let name : TagName := ⟨"p", .identifier, ⟨rfl, rfl, rfl⟩, by decide⟩
    let t : Text := Text.ofString "if a \x7b b \x7d // &\" \\"
    t ≠ [] ∧ (∀ c ∈ t.head?, c.isWhitespace = false) ∧ (∀ c ∈ t.getLast?, c.isWhitespace = false) ∧
      (1 : Int) ≤ ({} : Options).maxNestingDepth ∧
      TextForm.plain.source name t
        = Text.ofString "<p>if a \\\x7b b \\\x7d // &amp;\" \\</p>" ∧
      ∃ document element content run,
        parse (.ofText (TextForm.plain.source name t)) {} "f" = .ok document ∧
        document.IsElement element ∧
        (⟨element⟩ : Element).content? = some (.content ⟨content⟩) ∧
        content.kind = TextForm.plain.contentKind ∧ content.children = [run] ∧
        run.kind = TextForm.plain.runKind ∧ (⟨run⟩ : TextRun).read = .ok t := by
  intro name t
  have hne : t ≠ [] := by decide
  have hfirst : ∀ c ∈ t.head?, c.isWhitespace = false := by decide
  have hlast : ∀ c ∈ t.getLast?, c.isWhitespace = false := by decide
  have deepEnough : (1 : Int) ≤ ({} : Options).maxNestingDepth := by decide
  exact ⟨hne, hfirst, hlast, deepEnough, by decide,
    parse_escapedText .plain name t hne hfirst hlast {} "f" deepEnough⟩

end Document

end MarkupSyntax
