import MarkupSyntax.Proofs.Grammar.Tagged
import MarkupSyntax.Proofs.Token.Raw

/-!
# `MarkupSyntax.Proofs.Grammar.Raw`: elements with raw bodies

`<name:raw>` is read with its modifier as a keyword, and what stands
behind it up to the closing tag is a run of raw text
(`yields_element_raw`). Which closing tag ends the body is a matter of
the name as it is written in the opening tag: the lexer looks for its
text.
-/

set_option autoImplicit false

namespace MarkupSyntax

open Grammar

/-! ### Tokens and trees -/

/-- The modifier of a raw element, as a name. -/
def TagName.raw : TagName := ⟨rawModifier, .identifier, ⟨rfl, rfl, rfl⟩, Lexeme.identifier_isName⟩

namespace MarkupName

variable {name : MarkupName} {context : LexContext} {rest : Text}

/-- The tag that opens a raw element. -/
def rawOpening (name : MarkupName) : Text :=
  CodePoint.ofChar '<' :: (name.text ++ CodePoint.ofChar ':' :: (rawModifier ++ [CodePoint.ofChar '>']))

/-- The tokens of the tag behind the name. -/
def rawTagEnd : List Lexed := [.colon, TagName.raw.lexed, .greaterThan]

/-- The tokens of the tag. -/
def rawOpeningTokens (name : MarkupName) (context : LexContext) : List Lexed :=
  .lessThan context :: (name.tokens ++ rawTagEnd)

/-- The modifier as a part of a tree. -/
def rawLeaf : Tree := .leaf (some "raw") ⟨.rawKeyword, rawModifier, [], []⟩

/-- The parts of the tag. -/
def rawOpeningTrees (name : MarkupName) : List Tree :=
  [(Lexed.lessThan .normal).leaf none, name.tree "name", Lexed.colon.leaf none, rawLeaf,
    Lexed.greaterThan.leaf none]

/-- The body of a raw element. -/
def rawContent (name : MarkupName) (body : Text) : Tree :=
  .node (some "content") .rawTextRun ((name.rawTokens body).map (·.leaf none))

/-- A raw body stands in the slot of bodies. -/
theorem admits_rawContent (name : MarkupName) (body : Text) :
    Slot.body.Admits (name.rawContent body).outline := ⟨rfl, rfl⟩

/-- A raw element. -/
def rawElement (name : MarkupName) (body : Text) (field : Option String) : Tree :=
  .node field .element (name.rawOpeningTrees ++ name.rawContent body :: name.closingTrees)

/-- Its parts. -/
theorem fills_rawElement (name : MarkupName) (body : Text) :
    Fills (ElementForm.embedded .named).slots (name.rawElement body none).outline.parts :=
  .start (name.admits_tree "name") (.part (Slot.admits_leaf _ _)
    (.skip rfl (.part ⟨rfl, trivial⟩ (.skip rfl
      (.closed (name.admits_rawContent body) (name.admits_tree "close_name"))))))

/-- The tokens of a raw element. -/
def rawElementTokens (name : MarkupName) (body : Text) : List Lexed :=
  name.rawOpeningTokens .normal ++ (name.rawTokens body ++ name.closingTokens)

/-- The opening tag as its pieces, each in front of what is behind it. -/
theorem rawOpening_append (name : MarkupName) (rest : Text) : name.rawOpening ++ rest =
    CodePoint.ofChar '<' :: (name.text ++ CodePoint.ofChar ':' ::
      (TagName.raw.text ++ CodePoint.ofChar '>' :: rest)) := by
  simp [rawOpening, TagName.raw]

/-- The tag is read as it is written. -/
theorem lexes_rawOpening (name : MarkupName) (rest : Text) :
    Lexes (name.rawOpening ++ rest) (name.rawOpeningTokens .normal) rest := by
  have hend : Consists (CodePoint.ofChar ':' :: (TagName.raw.text ++ CodePoint.ofChar '>' :: rest))
      (rawTagEnd.map Lexed.piece) rest :=
    .token .colon Lexeme.splits_colon rfl
      (TagName.raw.consists_name _ (by rintro c ⟨⟩; decide) (TagName.consists_greaterThan rest))
  have hname := name.consists_name (by rintro c ⟨⟩; decide) hend
  have htag := (Consists.token (.lessThan .normal) (name.splits_start _) rfl hname).lexes
  rw [← List.map_append, ← List.map_cons, Lexed.map_lexed_piece] at htag
  rw [rawOpening_append]
  exact htag

end MarkupName

namespace Grammar

open Parse MarkupName

variable {p : Parser} {descend : Descent} {name : MarkupName} {body behind : Text}
  {spacing : Spacing}

/-! ### Reading them -/

/-- The run of text of a raw body, in front of its closing tag. -/
theorem yields_rawTextRun_unclosed (hbody : Text.Unclosed name.text body)
    (h : p.Faces [] (body ++ (name.looseClosing spacing ++ behind)))
    (hcontext : p.context = .raw (some name.text)) :
    Yields rawTextRun p fun _ q =>
      Records p (name.rawTokens body) [name.rawContent body] (.raw (some name.text)) q := by
  have hends := name.endsRaw_looseClosing spacing behind
  have h := h.append (name.lexes_raw hbody spacing)
  rw [looseClosing_append] at hends h
  -- Behind the run the closing tag is read in the same context.
  have h := h.append (Scans.token (Lexeme.splits_raw_end hends) rfl).lexes
  rw [List.nil_append] at h
  unfold rawTextRun
  refine (yields_start_node h.live hcontext).bind ?_
  rintro marker q ⟨hq, -⟩
  have h := h.same hq.toCovers
  have few : (name.rawTokens body).length ≤ q.text.length :=
    h.length_le fun token hmem => name.kind_of_mem_rawTokens hmem ▸ by decide
  rw [← List.flatMap_singleton' (name.rawTokens body)] at h
  refine (yields_whileTrue_items (fun token => [token]) (fun token => [token.leaf none])
    (fun _ => True) few ?_ ?_ h trivial hq.context).bind ?_
  · rintro token others r hsuffix - h hcontext
    have hmem : token ∈ name.rawTokens body := hsuffix.subset List.mem_cons_self
    have hread : r.context = token.context := hcontext.trans (name.context_of_mem_rawTokens hmem).symm
    have hkind : token.kind = .rawTextChunk := name.kind_of_mem_rawTokens hmem
    refine .sees_true ((h.kind hread).trans hkind) (.ite_false Bool.false_ne_true (.get ?_))
    refine (yields_bump_token h hread (by rw [hkind]; decide) _ none).bind ?_
    rintro _ s ⟨-, hs⟩
    rw [show r.source.current.context = _ from hcontext] at hs
    exact .pure ⟨rfl, trivial, hs⟩
  · intro r _ h hcontext
    have hkind : r.kind = .lessThan := h.kind hcontext
    exact .sees_false (by rw [hkind]; decide)
      (.ite_true rfl (.pure ⟨rfl, trivial, .nil h.live hcontext⟩))
  · rintro _ r ⟨-, hr⟩
    rw [List.flatMap_singleton', ← List.map_eq_flatMap] at hr
    refine ((hq.records hr).completeInto (by decide) (Outline.fits_of_isLoose rfl)
      (some "content")).mono ?_
    rintro node s ⟨hs, -⟩
    exact hs.records

/-- The modifier of a raw element, at the end of its tag. -/
theorem yields_rawFlag_modifier {text : Text}
    (h : p.Faces [TagName.raw.lexed] (CodePoint.ofChar '>' :: text)) (hcontext : p.context = .tag) :
    Yields rawFlag p fun answer q => answer = true ∧
      Records p [TagName.raw.lexed] [rawLeaf] .tag q := by
  have hkind : p.kind = .identifier := h.kind hcontext
  have htext : p.currentText = rawModifier := h.currentText hcontext
  have hrecorded : SyntaxKind.rawKeyword.lexeme? = some TagName.raw.lexed.kind := rfl
  unfold rawFlag
  refine .get (.ite_false (by simp [hkind, htext]) ?_)
  refine (yields_seesProperty_end h hcontext).bind ?_
  rintro _ q ⟨rfl, hq⟩
  refine .ite_false Bool.false_ne_true ?_
  refine (@yields_bump_recorded _ _ _ _ (some .rawKeyword) (h.same hq.toCovers) hq.context
    TagName.raw.kind_ne_eof .tag (some "raw") hrecorded).bind ?_
  rintro _ r ⟨-, hr⟩
  exact .pure ⟨rfl, hq.trans hr⟩

/-- The modifier is no type of text. -/
theorem yields_textType_modifier (htext : p.currentText = rawModifier) :
    Yields textType p fun answer q => answer = false ∧ q = p := by
  unfold textType
  exact .get (.ite_true (by simp [htext]) (.pure ⟨rfl, rfl⟩))

/-- What stands behind the name of a raw element. -/
theorem yields_embedRest_raw (hbody : Text.Unclosed name.text body)
    (h : p.Faces [.colon] (TagName.raw.text ++ CodePoint.ofChar '>' ::
      (body ++ (name.looseClosing spacing ++ behind))))
    (hcontext : p.context = .tag) :
    Yields (embedRest descend (some name.text)) p fun _ q =>
      Records p (rawTagEnd ++ (name.rawTokens body ++ name.closingTokens))
        (Lexed.colon.leaf none :: rawLeaf :: Lexed.greaterThan.leaf none ::
          name.rawContent body :: name.closingTrees) .normal q := by
  unfold embedRest
  refine (yields_bump_token h hcontext (by decide) .tag none).bind ?_
  rintro _ q ⟨-, hq⟩
  have h := (h.tail hq.toCovers).append
    (TagName.raw.consists_name _ (by rintro c ⟨⟩; decide) (.nil _)).lexes
  refine (yields_textType_modifier (h.currentText hq.context)).bind ?_
  rintro _ _ ⟨rfl, rfl⟩
  refine (yields_rawFlag_modifier h hq.context).bind ?_
  rintro _ r ⟨rfl, hr⟩
  have h := (h.tail hr.toCovers).append (TagName.consists_greaterThan _).lexes
  have hkind : r.kind = .greaterThan := h.kind hr.context
  refine (yields_propertyList_none hr.context (by rw [hkind]; decide) (some "properties") false).bind ?_
  rintro _ _ ⟨rfl, rfl⟩
  refine (yields_expect_token h hr.context (by decide) _ none).bind ?_
  rintro _ s ⟨rfl, -, hs⟩
  have h := h.tail hs.toCovers
  refine .ite_true rfl ((yields_rawTextRun_unclosed hbody h hs.context).bind ?_)
  intro _ t ht
  have h := (h.append (name.lexes_raw hbody spacing)).all ht.toCovers
  refine (yields_closeTag_loose h).mono ?_
  rintro _ u ⟨hu, -⟩
  exact hq.trans (hr.trans (hs.trans (ht.trans hu)))

/-- A raw element. -/
theorem yields_elementNode_raw (hbody : Text.Unclosed name.text body)
    (h : p.Faces [] (name.rawOpening ++ (body ++ (name.looseClosing spacing ++ behind))))
    (hcontext : p.context = .normal) :
    Yields (elementNode descend) p fun node q =>
      Shapes p (name.rawElementTokens body) (name.rawElement body none) node .normal q := by
  have hstart := h
  rw [rawOpening_append] at hstart
  have hless : Lexes (CodePoint.ofChar '<' :: (name.text ++ CodePoint.ofChar ':' ::
      (TagName.raw.text ++ CodePoint.ofChar '>' :: (body ++ (name.looseClosing spacing ++ behind)))))
      [.lessThan .normal] _ := .cons (.token (name.splits_start _) rfl) (.nil _)
  have hcolon := Consists.token .colon (@Lexeme.splits_colon (TagName.raw.text ++
    CodePoint.ofChar '>' :: (body ++ (name.looseClosing spacing ++ behind)))) rfl (.nil _)
  have hname := (name.consists_name (by rintro c ⟨⟩; decide) hcolon).lexes
  have hover := hstart.append hless
  have htag := hover.append hname
  rw [← List.map_singleton (f := Lexed.piece), ← List.map_append, Lexed.map_lexed_piece] at htag
  refine yields_elementNode_dotted htag hcontext rfl (by decide) fun marker q hq _ _ tag hnamed => ?_
  obtain rfl := hnamed rfl _ hover (by rintro c ⟨⟩; decide)
  rw [if_pos (show Lexed.colon.kind = .colon from rfl)]
  have h : q.Faces [.colon] _ :=
    (show p.Faces ((.lessThan .normal :: name.tokens) ++ [.colon]) _ from htag).after hq.toCovers
  refine (yields_embedRest_raw hbody h hq.context).bind ?_
  intro _ r hr
  refine ((hq.records hr).complete (by decide) (Outline.fits_of_fills rfl
    (name.fills_rawElement body))).mono ?_
  rintro node s ⟨hs, -⟩
  rw [rawElementTokens, rawOpeningTokens, List.cons_append, List.append_assoc]
  exact hs

/-- A raw element, which is one level of nesting. -/
theorem yields_element_raw (hbody : Text.Unclosed name.text body)
    (h : p.Faces [] (name.rawOpening ++ (body ++ (name.looseClosing spacing ++ behind))))
    (hcontext : p.context = .normal) (hdepth : p.depth < p.options.maxNestingDepth)
    (field : Option String) :
    Yields (element descend field) p fun node q =>
      Shapes p (name.rawElementTokens body) (name.rawElement body field) node .normal q := by
  have hnode : Yields (elementNode descend) { p with depth := p.depth + 1 } _ :=
    yields_elementNode_raw hbody h.deeper hcontext
  let known (tokens : List Lexed) (tree : Tree) : Prop :=
    tokens = name.rawElementTokens body ∧ tree = name.rawElement body none
  refine (@yields_element_nested _ _ (fun _ => True) known hdepth (hnode.mono fun node q hq =>
    ⟨trivial, _, _, ⟨rfl, rfl⟩, hq⟩) field).mono ?_
  rintro node q ⟨-, _, _, ⟨rfl, rfl⟩, hq⟩
  exact hq

end Grammar

end MarkupSyntax
