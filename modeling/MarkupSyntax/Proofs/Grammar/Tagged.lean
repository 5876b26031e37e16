import MarkupSyntax.Grammar.Element
import MarkupSyntax.Proofs.Grammar.Basic
import MarkupSyntax.Proofs.Parse.Recovering
import MarkupSyntax.Proofs.Parse.Records
import MarkupSyntax.Proofs.Token.Dotted

/-!
# `MarkupSyntax.Proofs.Grammar.Tagged`: elements of known tags

Where the tags of an element are known, the parse of the element comes
down to that of its body. The tags are read token by token
(`yields_qualifiedMarkupName_dotted`, `yields_closeTag_loose`). What is
known of the body is a relation between its pieces and its tree, and
whatever it leaves in the memo (`BodyRead`).
-/

set_option autoImplicit false

namespace MarkupSyntax

open Grammar

/-! ### Trees of tags -/

namespace TagName

/-- The name as a part of a tree. -/
def tree (name : TagName) (field : String) : Tree :=
  .node (some field) .qualifiedMarkupName [name.lexed.leaf none]

/-- The name of a tag stands in a slot for nodes of its field. -/
theorem admits_tree (name : TagName) (field : String) :
    (Slot.node field).Admits (name.tree field).outline := ⟨rfl, trivial⟩

/-- The parts of the tag that opens an element. -/
def openingTrees (name : TagName) : List Tree :=
  [(Lexed.lessThan .normal).leaf none, name.tree "name", Lexed.greaterThan.leaf none]

/-- The parts of the tag that opens an embedded element. -/
def embedTrees (name : TagName) (type : Option TextType) : List Tree :=
  [(Lexed.lessThan .normal).leaf none, name.tree "name", Lexed.colon.leaf none] ++
    ((TextType.tokens type).map (·.leaf (some "text_type")) ++ [Lexed.greaterThan.leaf none])

/-- The parts of the tag that closes an element. -/
def closingTrees (name : TagName) : List Tree :=
  [(Lexed.lessThan .normal).leaf none, Lexed.slash.leaf none, name.tree "close_name",
    Lexed.greaterThan.leaf none]

end TagName

namespace MarkupName

/-- The name as a part of a tree. -/
def tree (name : MarkupName) (field : String) : Tree :=
  .node (some field) .qualifiedMarkupName (name.tokens.map (·.leaf none))

/-- So does a name with dots. -/
theorem admits_tree (name : MarkupName) (field : String) :
    (Slot.node field).Admits (name.tree field).outline := ⟨rfl, trivial⟩

/-- A name with dots has the texts of its tokens. -/
theorem texts_tree (name : MarkupName) (field : String) :
    (name.tree field).leaves.map (·.text) = name.tokens.map (·.text) :=
  Lexed.texts_leaves name.tokens none

/-- The parts of the tag that closes an element. -/
def closingTrees (name : MarkupName) : List Tree :=
  [(Lexed.lessThan .normal).leaf none, Lexed.slash.leaf none, name.tree "close_name",
    Lexed.greaterThan.leaf none]

end MarkupName

namespace Grammar

open Parse

variable {p q r : Parser} {descend : Descent} {name : TagName} {token : Lexed}
  {rest : List Lexed} {text behind : Text} {context : LexContext}

/-! ### Looking ahead -/

/-- A look ahead answers what the place of the parse determines. -/
theorem yields_nthKind_at {seam : Seam} (hp : p.At seam) (hcontext : p.context = context) (n : Nat) :
    Yields (nthKind n) p fun answer q => answer = seam.kindAhead context n ∧
      Records p [] [] context q ∧ q.memo = p.memo := by
  obtain ⟨hanswer, -, hcurrent⟩ := hp.stands.nthKind hp.inside n
  have hquiet : Quiet p { p with source := (p.source.nthKind n).2 } :=
    ⟨⟨.lookKind (.refl p) n, hcurrent⟩, rfl, rfl, rfl, rfl, rfl, .of_memo rfl rfl rfl⟩
  exact ⟨hcontext ▸ hanswer, .of_quiet ⟨seam, hp⟩ hcontext hquiet ⟨rfl, rfl, rfl, rfl, rfl⟩, rfl⟩

/-- At a seam, the question whether trivia stand in front of a token is answered
from what the lexer has ahead. It records nothing. -/
theorem yields_nthAfterTrivia_at {seam : Seam} (hp : p.At seam) (hcontext : p.context = context)
    (n : Nat) :
    Yields (nthAfterTrivia n) p fun answer q => answer = seam.apartAhead context n ∧
      Records p [] [] context q ∧ q.memo = p.memo := by
  obtain ⟨hanswer, -, hcurrent⟩ := hp.stands.nthAfterTrivia hp.inside n
  have hquiet : Quiet p { p with source := (p.source.nthAfterTrivia n).2 } :=
    ⟨⟨.lookTrivia (.refl p) n, hcurrent⟩, rfl, rfl, rfl, rfl, rfl, .of_memo rfl rfl rfl⟩
  exact ⟨hcontext ▸ hanswer, .of_quiet ⟨seam, hp⟩ hcontext hquiet ⟨rfl, rfl, rfl, rfl, rfl⟩, rfl⟩

/-- The token behind the current one, as the lookahead reads it. -/
theorem yields_nthKind_one {kind : TokenKind} {gap : List (TriviaKind × Text)} {first : Text}
    (h : p.Faces [token] text) (hcontext : p.context = token.context) (notEnd : token.kind ≠ .eof)
    (hscan : Scans .normal text gap kind first behind) :
    Yields (nthKind 1) p fun answer q => answer = kind ∧ Records p [] [] token.context q ∧
      q.memo = p.memo := by
  obtain ⟨seam, hp, hkind, rfl⟩ := h.exists_seam
  have hahead : seam.kindAhead token.context 1 = kind := by
    rw [Seam.kindAhead_one hp.inside (hkind ▸ notEnd)]
    exact Seam.kind_current_of_scans (Seam.isInside_pass hp.inside _) hscan
  exact hahead ▸ yields_nthKind_at hp hcontext 1

/-- Where the next token but one is known, so is the answer to the question for
its kind. `hscan` says that it is read from the text in code, as all that is
looked at ahead is. -/
theorem yields_nthIs_one {kind : TokenKind} {gap : List (TriviaKind × Text)} {first : Text}
    (h : p.Faces [token] text) (hcontext : p.context = token.context) (notEnd : token.kind ≠ .eof)
    (hscan : Scans .normal text gap kind first behind) (kind' : TokenKind) :
    Yields (nthIs 1 kind') p fun answer q => answer = decide (kind = kind') ∧
      Records p [] [] token.context q ∧ q.memo = p.memo := by
  unfold nthIs
  refine (yields_nthKind_one h hcontext notEnd hscan).bind ?_
  rintro _ q ⟨rfl, hq⟩
  exact .pure ⟨rfl, hq⟩

/-! ### Names -/

/-- Further segments of a name, in front of what is no dot. -/
theorem yields_markupNameSegments_dotted {segments : List TagName} {next : Lexed}
    (few : segments.length ≤ p.text.length)
    (h : p.Faces (MarkupName.furtherTokens segments ++ next :: rest) behind)
    (hcontext : p.context = .tag) (hnext : next.context = .tag) (hdot : next.kind ≠ .dot)
    (hlevel : p.IsLevel) :
    Yields markupNameSegments p fun _ q => (q.memo = p.memo ∧ q.IsLevel) ∧
      Records p (MarkupName.furtherTokens segments)
        ((MarkupName.furtherTokens segments).map (·.leaf none)) .tag q := by
  have htrees : (MarkupName.furtherTokens segments).map (·.leaf none) =
      segments.flatMap fun segment => [Lexed.dot.leaf none, segment.lexed.leaf none] :=
    List.map_flatMap
  rw [htrees]
  refine yields_whileTrue_items _ _ (fun q => q.memo = p.memo ∧ q.IsLevel) few ?_ ?_ h
    ⟨rfl, hlevel⟩ hcontext
  · rintro segment others q - ⟨hmemo, hlevel⟩ h hcontext
    have hkind : q.kind = .dot := h.kind hcontext
    refine .sees_true hkind (.ite_false Bool.false_ne_true ?_)
    refine (yields_bump_token h hcontext (by decide) .tag none).bind ?_
    rintro _ r ⟨hbump, hr⟩
    have hlevel : r.IsLevel := hbump ▸ Parser.isLevel_bump (by rw [hkind]; decide) (.inl hlevel)
    have h := h.tail hr.toCovers
    have hname : r.kind = segment.kind := h.kind hr.context
    refine .seesAny_true (hname ▸ segment.isName) (.ite_true rfl ?_)
    refine (yields_bump_token h hr.context segment.kind_ne_eof .tag none).bind ?_
    rintro _ t ⟨hbump', ht⟩
    refine .pure ⟨rfl, ⟨?_, ?_⟩, hr.trans ht⟩
    · rw [hbump', Parser.memo_bump, hbump, Parser.memo_bump, hmemo]
    · exact hbump' ▸ Parser.isLevel_bump (hname ▸ segment.kind_ne_eof) (.inl hlevel)
  · intro q hinv h hcontext
    have hkind : q.kind ≠ .dot := by rwa [h.kind (hcontext.trans hnext.symm)]
    exact .sees_false hkind (.ite_true rfl (.pure ⟨rfl, hinv, .nil h.live hcontext⟩))

/-- A name in a tag. -/
theorem yields_qualifiedMarkupName_dotted {name : MarkupName} {next : Lexed}
    (h : p.Faces (name.tokens ++ next :: rest) behind) (hcontext : p.context = .tag)
    (hnext : next.context = .tag) (hdot : next.kind ≠ .dot) (field : String) :
    Yields (qualifiedMarkupName (some field)) p fun answer q => ∃ node, answer = some node ∧
      Shapes p name.tokens (name.tree field) node .tag q ∧ q.memo = p.memo ∧ q.IsLevel := by
  have hkind : p.kind = name.first.kind := h.kind hcontext
  -- The loop over the segments is bounded by the length of the text.
  have few : name.others.length ≤ p.text.length := by
    have hfew := h.length_le fun token hmem => name.kind_ne_eof_of_mem hmem
    have hle := name.length_others_le
    omega
  unfold qualifiedMarkupName
  refine .modify ?_
  rw [Parser.relex_of_context hcontext]
  refine .seesAny_true (by rw [hkind]; exact name.first.isName) (.ite_false Bool.false_ne_true ?_)
  refine (yields_start_node h.live hcontext).bind ?_
  rintro marker q ⟨hq, hmarks⟩
  have hlive := h.live
  have h := h.same hq.toCovers
  have hkind' : q.kind = name.first.kind := h.kind hq.context
  refine (yields_bump_token h hq.context name.first.kind_ne_eof .tag none).bind ?_
  rintro _ r ⟨hbump, hr⟩
  have hlevel : r.IsLevel :=
    hbump ▸ Parser.isLevel_bump (hkind' ▸ name.first.kind_ne_eof) (.inr (by decide))
  have h := h.tail hr.toCovers
  have few : name.others.length ≤ r.text.length := by
    rwa [(hq.toCovers.trans hr.toCovers).text hlive]
  refine (yields_markupNameSegments_dotted few h hr.context hnext hdot hlevel).bind ?_
  rintro _ s ⟨⟨hmemo, hlevel⟩, hs⟩
  refine (((hq.records hr).records hs).complete (by decide) (Outline.fits_of_isLoose rfl)).bind ?_
  rintro node t ⟨ht, hmarks'⟩
  refine (ht.setField (some field)).bind ?_
  rintro _ u ⟨rfl, hu, hmarks''⟩
  refine .pure ⟨_, rfl, hu, ?_, hmarks''.isLevel (hmarks'.isLevel hlevel)⟩
  rw [hmarks''.memo, hmarks'.memo, hmemo, hbump, Parser.memo_bump, hmarks.memo]

/-! ### Tags -/

section Ahead

variable (hcontext : p.context = context) (hcode : context = .normal ∨ context = .text)

include hcontext hcode

/-- A closing tag comes next. -/
theorem faces_closing (h : p.Faces [] (name.closing ++ behind)) :
    p.Faces [.lessThan context]
      (CodePoint.ofChar '/' :: (name.text ++ CodePoint.ofChar '>' :: behind)) ∧
      p.kind = .lessThan := by
  rw [TagName.closing_append] at h
  have hless : Lexes (CodePoint.ofChar '<' :: CodePoint.ofChar '/' ::
      (name.text ++ CodePoint.ofChar '>' :: behind)) [.lessThan context] _ :=
    .cons (.token (Lexeme.splits_lessThan ⟨by decide, by decide⟩ hcode) rfl) (.nil _)
  have h := h.append hless
  exact ⟨h, h.kind hcontext⟩

/-- Another tag comes next. -/
theorem faces_start (h : p.Faces [] (CodePoint.ofChar '<' :: (name.text ++ behind))) :
    p.Faces [.lessThan context] (name.text ++ behind) ∧ p.kind = .lessThan := by
  have hless : Lexes (CodePoint.ofChar '<' :: (name.text ++ behind)) [.lessThan context] _ :=
    .cons (.token (TagName.splits_start hcode) rfl) (.nil _)
  have h := h.append hless
  exact ⟨h, h.kind hcontext⟩

/-- Behind the mark of a closing tag is a slash. -/
theorem yields_nthIs_slash_closing (h : p.Faces [] (name.closing ++ behind)) :
    Yields (nthIs 1 .slash) p fun answer q => answer = true ∧ Records p [] [] context q ∧
      q.memo = p.memo :=
  yields_nthIs_one (faces_closing hcontext hcode h).1 hcontext
    (show TokenKind.lessThan ≠ .eof by decide) (.token (TagName.splits_slash (.inl rfl)) rfl) .slash

/-- Behind the mark of another tag is none. -/
theorem yields_nthIs_slash_start (h : p.Faces [] (CodePoint.ofChar '<' :: (name.text ++ behind))) :
    Yields (nthIs 1 .slash) p fun answer q => answer = false ∧ Records p [] [] context q ∧
      q.memo = p.memo := by
  obtain ⟨kind, hkind, first, rest, hscan⟩ := name.exists_scans_name behind
  refine (yields_nthIs_one (faces_start hcontext hcode h).1 hcontext
    (show TokenKind.lessThan ≠ .eof by decide) hscan .slash).mono ?_
  rintro answer q ⟨rfl, hq⟩
  refine ⟨decide_eq_false ?_, hq⟩
  rintro rfl
  exact absurd hkind (by decide)

/-- In front of a closing tag one is seen. -/
theorem yields_seesCloseTag_closing (h : p.Faces [] (name.closing ++ behind)) :
    Yields seesCloseTag p fun answer q => answer = true ∧ Records p [] [] context q ∧
      q.memo = p.memo := by
  unfold seesCloseTag seesPair
  exact .sees_true (faces_closing hcontext hcode h).2
    (.ite_true rfl (yields_nthIs_slash_closing hcontext hcode h))

/-- In front of an opening tag none is seen: behind its `<` stands a name. -/
theorem yields_seesCloseTag_start (h : p.Faces [] (CodePoint.ofChar '<' :: (name.text ++ behind))) :
    Yields seesCloseTag p fun answer q => answer = false ∧ Records p [] [] context q ∧
      q.memo = p.memo := by
  unfold seesCloseTag seesPair
  exact .sees_true (faces_start hcontext hcode h).2
    (.ite_true rfl (yields_nthIs_slash_start hcontext hcode h))

end Ahead

/-- A closing tag with white space in it. -/
theorem yields_closeTag_loose {name : MarkupName} {spacing : MarkupName.Spacing}
    (h : p.Faces [] (name.looseClosing spacing ++ behind)) :
    Yields closeTag p fun _ q => Records p name.closingTokens name.closingTrees .normal q ∧
      q.memo = p.memo := by
  have hrelex := Records.relex h.live .normal
  have h := h.same hrelex.toCovers
  have hmark := h
  rw [MarkupName.looseClosing_append] at hmark
  have hmark := hmark.append (Scans.token (name.splits_looseClosing spacing _) rfl).lexes
  obtain ⟨gap, hslash⟩ := name.exists_scans_slash (.inl rfl) spacing
    (spacing.close ++ CodePoint.ofChar '>' :: behind)
  -- White space may stand in front of the slash. What is asked for is the next token, not the
  -- next character.
  have hsees : Yields seesCloseTag (p.relex .normal) fun answer q => answer = true ∧
      Records (p.relex .normal) [] [] .normal q ∧ q.memo = p.memo := by
    unfold seesCloseTag seesPair
    refine .sees_true (hmark.kind hrelex.context) (.ite_true rfl ?_)
    exact yields_nthIs_one hmark hrelex.context (show TokenKind.lessThan ≠ .eof by decide) hslash .slash
  unfold closeTag
  refine .modify (hsees.bind ?_)
  rintro _ q ⟨rfl, hq, hmemo⟩
  refine .ite_false Bool.false_ne_true ?_
  have h := (h.same hq.toCovers).append (name.lexes_looseClosing spacing behind)
  refine (yields_bump_token h hq.context (show TokenKind.lessThan ≠ .eof by decide) .tag none).bind ?_
  rintro _ r ⟨hbump, hr⟩
  have h := h.tail hr.toCovers
  refine (yields_bump_token h hr.context (show TokenKind.slash ≠ .eof by decide) .tag none).bind ?_
  rintro _ s ⟨hbump', hs⟩
  have h := h.tail hs.toCovers
  refine (yields_qualifiedMarkupName_dotted h hs.context rfl (show TokenKind.greaterThan ≠ .dot by decide)
    "close_name").bind ?_
  rintro _ t ⟨node, rfl, ht, hmemo', -⟩
  refine .ite_false Bool.false_ne_true ?_
  have h := h.after ht.toCovers
  refine (yields_expect_token h ht.context (show TokenKind.greaterThan ≠ .eof by decide) .normal none).bind ?_
  rintro _ u ⟨-, hbump'', hu⟩
  refine .pure ⟨(((hrelex.trans hq).trans hr).trans hs).trans (ht.records.trans hu), ?_⟩
  rw [hbump'', Parser.memo_bump, hmemo', hbump', Parser.memo_bump, hbump, Parser.memo_bump, hmemo]

/-- A closing tag. -/
theorem yields_closeTag_named (h : p.Faces [] (name.closing ++ behind)) :
    Yields closeTag p fun _ q => Records p name.closingTokens name.closingTrees .normal q ∧
      q.memo = p.memo := by
  rw [← name.looseClosing_dotted] at h
  exact yields_closeTag_loose h

/-- No property starts here, and no control construct. -/
theorem yields_propertyList_none (hcontext : p.context = .tag) (hkind : p.kind ∉ markupNameTokens)
    (field : Option String) (inArm : Bool) :
    Yields (propertyList descend field inArm) p fun answer q => answer = none ∧ q = p := by
  have hword : p.kind ∉ [TokenKind.ifKeyword, .forKeyword] := by
    intro hmem
    have hall : ∀ kind ∈ [TokenKind.ifKeyword, .forKeyword], kind ∈ markupNameTokens := by decide
    exact hkind (hall _ hmem)
  have hproperty : Yields seesProperty p fun answer q => answer = false ∧ q = p := by
    unfold seesProperty
    exact .seesAny_false hkind (.ite_false Bool.false_ne_true (.pure ⟨rfl, rfl⟩))
  have hitem : Yields seesPropertyItem p fun answer q => answer = false ∧ q = p := by
    unfold seesPropertyItem
    refine hproperty.bind ?_
    rintro _ _ ⟨rfl, rfl⟩
    refine .ite_false Bool.false_ne_true ⟨?_, rfl⟩
    rw [Bool.eq_false_iff]
    exact fun hmem => hword (List.contains_iff_mem.mp hmem)
  unfold propertyList
  refine .modify ?_
  rw [Parser.relex_of_context hcontext]
  refine hitem.bind ?_
  rintro _ _ ⟨rfl, rfl⟩
  exact .ite_true rfl (.pure ⟨rfl, rfl⟩)

/-! ### Braces -/

/-- A value in braces, whose tokens are known. The brace that opens may be
read as one in a text. -/
theorem yields_interpolation_tokens {tokens : List Lexed} {value : Tree}
    (h : p.Faces (.lBrace context :: (tokens ++ .rBrace :: rest)) behind)
    (hcontext : p.context = context)
    (hvalue : ∀ q, Covers p [.lBrace context] .normal q → q.memo = p.memo →
      Yields (expectValue descend "value") q fun _ r =>
        Records q tokens [value] .normal r ∧ r.memo = q.memo)
    (field : Option String) :
    Yields (interpolation descend field) p fun node q =>
      Shapes p (.lBrace context :: (tokens ++ [.rBrace]))
        (.node field .interpolationExpression
          [(Lexed.lBrace context).leaf none, value, Lexed.rBrace.leaf none]) node .normal q ∧
        q.memo = p.memo := by
  -- The node is built without its field first, which is set on its handle.
  have hinside : Yields (interpolationAs descend .interpolationExpression .normal) p fun node q =>
      Shapes p (.lBrace context :: (tokens ++ [.rBrace]))
        (.node none .interpolationExpression
          [(Lexed.lBrace context).leaf none, value, Lexed.rBrace.leaf none]) node .normal q ∧
        q.memo = p.memo := by
    unfold interpolationAs
    refine (yields_start_node h.live hcontext).bind ?_
    rintro marker q ⟨hq, hmarks⟩
    have h := h.same hq.toCovers
    refine (yields_bump_token h hq.context (show TokenKind.lBrace ≠ .eof by decide) .normal none).bind ?_
    rintro _ r ⟨hbump, hr⟩
    have h := h.tail hr.toCovers
    have hmemo : r.memo = p.memo := by rw [hbump, Parser.memo_bump, hmarks.memo]
    refine (hvalue r (hq.toCovers.trans hr.toCovers) hmemo).bind ?_
    rintro _ s ⟨hs, hmemo'⟩
    have h := h.after hs.toCovers
    refine (yields_expect_token h hs.context (show TokenKind.rBrace ≠ .eof by decide) .normal
      none).bind ?_
    rintro _ t ⟨-, hbump', ht⟩
    refine (((hq.records hr).records (hs.trans ht)).complete (by decide)
      (Outline.fits_of_isLoose rfl)).mono ?_
    rintro node u ⟨hu, hmarks'⟩
    exact ⟨hu, by rw [hmarks'.memo, hbump', Parser.memo_bump, hmemo', hmemo]⟩
  unfold interpolation
  refine hinside.bind ?_
  rintro node q ⟨hq, hmemo⟩
  refine (hq.setField field).mono ?_
  rintro _ r ⟨rfl, hr, hmarks⟩
  exact ⟨hr, hmarks.memo.trans hmemo⟩

/-! ### Elements -/

/-- A text was read as one node, and in front of `rest`. What it is read
as is a relation between its pieces and the tree. -/
def ReadsOne (written : List Piece → Tree → Prop) (text rest : Text) (p q : Parser) : Prop :=
  ∃ pieces tree context, written pieces tree ∧ Consists text pieces rest ∧
    Records p (pieces.map (·.lexed)) [tree] context q

/-- Where the name of an element stands in the source as it is written,
and is not continued, `tag` is this name. -/
def NamesTag (name : MarkupName) (context : LexContext) (p : Parser) (tag : Option Text) : Prop :=
  ∀ more : Text, p.Faces [.lessThan context] (name.text ++ more) →
    (∀ c ∈ more.head?, Lexeme.continuesName true c = false) → tag = some name.text

/-- The start of an element. What follows its name decides how it goes
on. -/
theorem yields_elementNode_dotted {name : MarkupName} {next : Lexed}
    {post : Completed → Parser → Prop}
    (h : p.Faces (.lessThan context :: (name.tokens ++ next :: rest)) behind)
    (hcontext : p.context = context) (hnext : next.context = .tag) (hdot : next.kind ≠ .dot)
    (hrest : ∀ marker q,
      MarkupSyntax.Holds p marker (.lessThan context :: name.tokens)
        [(Lexed.lessThan .normal).leaf none, name.tree "name"] .tag q →
      q.memo = p.memo → q.IsLevel → ∀ tag, (next.kind = .colon → NamesTag name context p tag) →
      Yields (do
        if next.kind = .colon then embedRest descend tag else plainRest descend
        marker.complete .element) q post) :
    Yields (elementNode descend) p post := by
  have hstart := h
  unfold elementNode
  refine (yields_start_node h.live hcontext).bind ?_
  rintro marker q ⟨hq, hmarks⟩
  have h := h.same hq.toCovers
  refine (yields_bump_token h hq.context (show TokenKind.lessThan ≠ .eof by decide) .tag none).bind ?_
  rintro _ r ⟨hbump, hr⟩
  have h := h.tail hr.toCovers
  -- The text of the name can be read, as that of every name that was just read.
  have hlive : r.Live := h.live
  refine ((yields_qualifiedMarkupName_dotted h hr.context hnext hdot "name").and
    (yields_qualifiedMarkupName hlive hr.context (some "name"))).bind ?_
  rintro _ s ⟨⟨node, rfl, hs, hmemo, hlevel⟩, ⟨hmakes, htakes⟩, -, -, hoffset⟩
  refine .ite_false Bool.false_ne_true ?_
  have h := h.after hs.toCovers
  have hmemo : s.memo = p.memo := by rw [hmemo, hbump, Parser.memo_bump, hmarks.memo]
  have hkind : s.kind = next.kind := h.kind (hs.context.trans hnext.symm)
  have hrest := hrest marker s ((hq.records hr).records hs.records) hmemo hlevel
  have hnode : node.offset = r.position := hoffset node rfl
  have htext : Yields node.text s fun text t => t = s ∧ text = s.text.slice node.offset s.done := by
    refine Completed.yields_text hmakes htakes ?_
    rw [hnode]
    exact Nat.le_of_lt (htakes.position_lt_done hlive)
  have htag : NamesTag name context p (some (s.text.slice node.offset s.done)) := by
    intro more hover hhead
    have hfirst := MarkupName.head_further name.others hhead
    have hfaces := (hover.same hq.toCovers).tail hr.toCovers
    have hname := (name.consists_name hhead (.nil more)).lexes
    rw [List.append_nil, Lexed.map_lexed_piece] at hname
    have hdone := (hfaces.append hname).all hs.toCovers
    have hposition : r.position = r.done := by
      rw [MarkupName.text, List.append_assoc] at hfaces
      exact hfaces.position_eq_done hr.context (.token (name.first.splits_behind hfirst)
        name.first.solid)
    rw [hnode, hposition, hfaces.slice_done hdone (hs.toCovers.text hlive)]
  by_cases hcolon : next.kind = .colon
  · have htag : Yields ((some node).mapM Completed.text) s fun tag t =>
        t = s ∧ NamesTag name context p tag := by
      refine htext.map ?_
      rintro text t ⟨rfl, rfl⟩
      exact ⟨rfl, htag⟩
    refine .sees_true (hkind.trans hcolon) (.ite_true rfl (htag.bind ?_))
    rintro tag _ ⟨rfl, hnames⟩
    have hrest := hrest tag fun _ => hnames
    rwa [if_pos hcolon] at hrest
  · refine .sees_false (hkind ▸ hcolon) (.ite_false Bool.false_ne_true ?_)
    have hrest := hrest none fun h => absurd h hcolon
    rwa [if_neg hcolon] at hrest

/-- The start of an element whose name has no dots. -/
theorem yields_elementNode_start {next : Lexed} {post : Completed → Parser → Prop}
    (h : p.Faces (.lessThan context :: name.lexed :: next :: rest) behind)
    (hcontext : p.context = context) (hnext : next.context = .tag) (hdot : next.kind ≠ .dot)
    (hrest : ∀ marker q,
      MarkupSyntax.Holds p marker [.lessThan context, name.lexed]
        [(Lexed.lessThan .normal).leaf none, name.tree "name"] .tag q →
      q.memo = p.memo → q.IsLevel → ∀ tag, Yields (do
        if next.kind = .colon then embedRest descend tag else plainRest descend
        marker.complete .element) q post) :
    Yields (elementNode descend) p post :=
  have h : p.Faces (.lessThan context :: (name.dotted.tokens ++ next :: rest)) behind := h
  yields_elementNode_dotted h hcontext hnext hdot fun marker q hq hmemo hlevel tag _ =>
    hrest marker q hq hmemo hlevel tag

/-- What is written in this way is the body of an element. -/
def WritesBody (written : List Piece → Tree → Prop) : Prop :=
  ∀ pieces content, written pieces content → Slot.body.Admits content.outline

section Body

variable {written : List Piece → Tree → Prop} (memory : List ((String × Nat) × Outcome) → Prop)

/-- A body is followed by its closing tag. -/
theorem yields_closedBody {body : Parse Completed} (h : q.Faces [] text)
    (hbody : Yields body q fun _ r => memory r.memo ∧
      ReadsOne written text (name.closing ++ behind) q r) :
    Yields (do
      let _ ← body
      closeTag) q fun _ r => memory r.memo ∧ ∃ pieces content,
        written pieces content ∧ Consists text pieces (name.closing ++ behind) ∧
          Records q (pieces.map (·.lexed) ++ name.closingTokens) (content :: name.closingTrees)
            .normal r := by
  refine hbody.bind ?_
  rintro _ r ⟨hmemory, pieces, content, context', hwritten, hconsists, hr⟩
  have h := (h.append hconsists.lexes).all hr.toCovers
  refine (yields_closeTag_named h).mono ?_
  rintro _ s ⟨hs, hmemo⟩
  exact ⟨hmemo ▸ hmemory, pieces, content, hwritten, hconsists, hr.trans hs⟩

/-- An element is read as its tags and its body. -/
def ReadsElement (written : List Piece → Tree → Prop) (name : TagName) (tokens : List Lexed)
    (trees : List Tree) (text behind : Text) (field : Option String) (p : Parser) (node : Completed)
    (q : Parser) : Prop :=
  ∃ pieces content, written pieces content ∧ Consists text pieces (name.closing ++ behind) ∧
    Shapes p (tokens ++ (pieces.map (·.lexed) ++ name.closingTokens))
      (.node field .element (trees ++ content :: name.closingTrees)) node .normal q

/-- A plain element. -/
theorem yields_elementNode_plain (h : p.Faces [] (name.opening ++ text))
    (hcontext : p.context = context) (hcode : context = .normal ∨ context = .text)
    (hwrites : WritesBody written)
    (hbody : ∀ q, Covers p (name.openingTokens context) .normal q → q.memo = p.memo → q.IsLevel →
      Yields (elementContent descend) q fun _ r => memory r.memo ∧
        ReadsOne written text (name.closing ++ behind) q r) :
    Yields (elementNode descend) p fun node q => memory q.memo ∧
      ReadsElement written name (name.openingTokens context) name.openingTrees text behind none p
        node q := by
  have hfaces := h.append (name.consists_opening text hcode).lexes
  refine yields_elementNode_start hfaces hcontext rfl (by decide) fun marker q hq hmemo hlevel _ => ?_
  have h : q.Faces [.greaterThan] text :=
    (show p.Faces ([.lessThan context, name.lexed] ++ [.greaterThan]) text from hfaces).after hq.toCovers
  have hkind : q.kind = .greaterThan := h.kind hq.context
  -- Behind the name stands a `>`: no colon, no property and no slash.
  rw [if_neg (by decide)]
  have hrest : Yields (plainRest descend) q fun _ r => memory r.memo ∧ ∃ pieces content,
      written pieces content ∧ Consists text pieces (name.closing ++ behind) ∧
        Records q (.greaterThan :: (pieces.map (·.lexed) ++ name.closingTokens))
          (Lexed.greaterThan.leaf none :: content :: name.closingTrees) .normal r := by
    unfold plainRest
    refine (yields_propertyList_none hq.context (by rw [hkind]; decide) (some "properties")
      false).bind ?_
    rintro _ _ ⟨rfl, rfl⟩
    refine (yields_eat_other (by rw [hkind]; decide) .tag none).bind ?_
    rintro _ _ ⟨rfl, rfl⟩
    refine .ite_false Bool.false_ne_true ?_
    refine (yields_expect_token h hq.context (by decide) .normal none).bind ?_
    rintro _ r ⟨rfl, hbump, hr⟩
    have hbody := hbody r (hq.toCovers.trans hr.toCovers) (by rw [hbump, Parser.memo_bump, hmemo])
      (hbump ▸ Parser.isLevel_bump (by rw [hkind]; decide) (.inl hlevel))
    refine .ite_true rfl ((yields_closedBody memory (h.tail hr.toCovers) hbody).mono ?_)
    rintro _ s ⟨hmemory, pieces, content, hwritten, hconsists, hs⟩
    exact ⟨hmemory, pieces, content, hwritten, hconsists, hr.trans hs⟩
  refine hrest.bind ?_
  rintro _ r ⟨hmemory, pieces, content, hwritten, hconsists, hr⟩
  have hfills : Fills (ElementForm.plain .named).slots _ :=
    .start (name.admits_tree "name") (.skip rfl
      (.closed (hwrites _ _ hwritten) (name.admits_tree "close_name")))
  refine ((hq.records hr).complete (by decide) (Outline.fits_of_fills rfl hfills)).mono ?_
  rintro node s ⟨hs, hmarks⟩
  exact ⟨hmarks.memo ▸ hmemory, pieces, content, hwritten, hconsists, hs⟩

/-- Behind the type of an embedded element, if it has one, its tag
ends. -/
theorem yields_embedBody {isTyped : Bool} {tag : Option Text} (h : p.Faces [.greaterThan] text)
    (hcontext : p.context = .tag)
    (hbody : ∀ q, Covers p [.greaterThan] (if isTyped then .typedText else .text) q →
      Yields (if isTyped then embedContent descend else textContent descend) q fun _ r =>
        memory r.memo ∧ ReadsOne written text (name.closing ++ behind) q r) :
    Yields (do
      let isRaw ← rawFlag
      let _ ← propertyList descend (some "properties") false
      let context : LexContext :=
        if isRaw then .raw tag else if isTyped then .typedText else .text
      if ← expect .greaterThan context then
        let _ ← if isRaw then rawTextRun
          else if isTyped then embedContent descend
          else textContent descend
        closeTag) p fun _ r => memory r.memo ∧ ∃ pieces content,
      written pieces content ∧ Consists text pieces (name.closing ++ behind) ∧
        Records p (.greaterThan :: (pieces.map (·.lexed) ++ name.closingTokens))
          (Lexed.greaterThan.leaf none :: content :: name.closingTrees) .normal r := by
  have hkind : p.kind = .greaterThan := h.kind hcontext
  -- The next token is the `>`, so there is neither the word for raw bodies nor a property.
  have hraw : Yields rawFlag p fun answer q => answer = false ∧ q = p := by
    unfold rawFlag
    exact .get (.ite_true (by simp [hkind]) (.pure ⟨rfl, rfl⟩))
  refine hraw.bind ?_
  rintro _ _ ⟨rfl, rfl⟩
  refine (yields_propertyList_none hcontext (by rw [hkind]; decide) (some "properties") false).bind ?_
  rintro _ _ ⟨rfl, rfl⟩
  refine (yields_expect_token h hcontext (by decide) _ none).bind ?_
  rintro _ q ⟨rfl, -, hq⟩
  have hclosed := yields_closedBody memory (h.tail hq.toCovers) (hbody q hq.toCovers)
  have hbody : Yields (do
      let _ ← if false then rawTextRun else if isTyped then embedContent descend
        else textContent descend
      closeTag) q fun _ r => memory r.memo ∧ ∃ pieces content, written pieces content ∧
        Consists text pieces (name.closing ++ behind) ∧
          Records q (pieces.map (·.lexed) ++ name.closingTokens) (content :: name.closingTrees)
            .normal r := by
    cases isTyped <;> exact hclosed
  refine .ite_true rfl (hbody.mono ?_)
  rintro _ r ⟨hmemory, pieces, content, hwritten, hconsists, hr⟩
  exact ⟨hmemory, pieces, content, hwritten, hconsists, hq.trans hr⟩

/-- A name at the end of a tag is no property. -/
theorem yields_seesProperty_end (h : p.Faces [name.lexed] (CodePoint.ofChar '>' :: text))
    (hcontext : p.context = .tag) :
    Yields seesProperty p fun answer q => answer = false ∧ Records p [] [] .tag q := by
  have hkind : p.kind = name.kind := h.kind hcontext
  obtain ⟨kind, hmem, first, behind, hscan⟩ := Lexeme.exists_scans_greaterThan text
  have hround : Yields (propertyNameRound 1) p fun next q => ∃ result, next = .done result ∧
      result = false ∧ Records p [] [] .tag q := by
    unfold propertyNameRound
    refine (yields_nthKind_one h hcontext name.kind_ne_eof hscan).bind ?_
    rintro answer q ⟨rfl, hq, -⟩
    have hother : answer ≠ .equal ∧ nameContinuation.contains answer = false := by
      revert hmem
      cases answer <;> decide
    refine .ite_false hother.1 (.ite_true ?_ (.pure ⟨false, rfl, rfl, hq⟩))
    rw [hother.2]
    rfl
  unfold seesProperty loop
  exact .seesAny_true (by rw [hkind]; exact name.isName) (.ite_true rfl (.get (.rounds_done hround)))

/-- The type of an embedded element, if it has one. -/
theorem yields_textType_named {type : Option TextType}
    (h : p.Faces (TextType.tokens type) (CodePoint.ofChar '>' :: text)) (hcontext : p.context = .tag) :
    Yields textType p fun answer q => answer = type.isSome ∧
      Records p (TextType.tokens type) ((TextType.tokens type).map (·.leaf (some "text_type"))) .tag
        q := by
  unfold textType
  cases type with
  | none =>
    have hkind : p.kind = .greaterThan :=
      (h.append (TagName.consists_greaterThan text).lexes).kind hcontext
    exact .get (.ite_true (by simp [hkind]) (.pure ⟨rfl, .nil h.live hcontext⟩))
  | some type =>
    have h : p.Faces [type.lexed] (CodePoint.ofChar '>' :: text) := h
    have hkind : p.kind = .identifier := (h.kind hcontext).trans type.isIdentifier
    have htext : p.currentText = type.text := h.currentText hcontext
    refine .get (.ite_false (by simp [hkind, htext, type.notRaw]) ?_)
    refine (yields_seesProperty_end h hcontext).bind ?_
    rintro _ q ⟨rfl, hq⟩
    refine .ite_false Bool.false_ne_true ?_
    refine (yields_bump_token (h.same hq.toCovers) hq.context type.kind_ne_eof .tag
      (some "text_type")).bind ?_
    rintro _ r ⟨-, hr⟩
    exact .pure ⟨rfl, hq.trans hr⟩

/-- An embedded element. -/
theorem yields_elementNode_embed {type : Option TextType}
    (h : p.Faces [] (name.embedOpening type ++ text))
    (hcontext : p.context = context) (hcode : context = .normal ∨ context = .text)
    (hwrites : WritesBody written)
    (hbody : ∀ q,
      Covers p (name.embedTokens type context ++ [.greaterThan]) (if type.isSome then .typedText else .text) q →
      Yields (if type.isSome then embedContent descend else textContent descend) q fun _ r =>
        memory r.memo ∧ ReadsOne written text (name.closing ++ behind) q r) :
    Yields (elementNode descend) p fun node q => memory q.memo ∧
      ReadsElement written name (name.embedTokens type context ++ [.greaterThan])
        (name.embedTrees type) text behind none p node q := by
  have hfaces := h.append (name.consists_embedTokens type text hcode).lexes
  rw [List.nil_append, Lexed.map_lexed_piece] at hfaces
  refine yields_elementNode_start hfaces hcontext rfl (by decide) fun marker q hq _ _ tag => ?_
  have h : q.Faces (.colon :: TextType.tokens type) (CodePoint.ofChar '>' :: text) :=
    (show p.Faces ([.lessThan context, name.lexed] ++ .colon :: TextType.tokens type)
      (CodePoint.ofChar '>' :: text) from hfaces).after hq.toCovers
  rw [if_pos (by decide)]
  unfold embedRest
  refine .bind (?_ : Yields _ q fun _ r => memory r.memo ∧ ∃ pieces content,
    written pieces content ∧ Consists text pieces (name.closing ++ behind) ∧
      Records q (.colon :: (TextType.tokens type ++ .greaterThan ::
          (pieces.map (·.lexed) ++ name.closingTokens)))
        (Lexed.colon.leaf none :: ((TextType.tokens type).map (·.leaf (some "text_type")) ++
          Lexed.greaterThan.leaf none :: content :: name.closingTrees)) .normal r) ?_
  · refine (yields_bump_token h hq.context (show TokenKind.colon ≠ .eof by decide) .tag none).bind ?_
    rintro _ r ⟨-, hr⟩
    have h := h.tail hr.toCovers
    refine (yields_textType_named h hr.context).bind ?_
    rintro _ s ⟨rfl, hs⟩
    have h := (h.all hs.toCovers).append (TagName.consists_greaterThan text).lexes
    refine (yields_embedBody memory h hs.context fun t ht => hbody t ?_).mono ?_
    · exact ((hq.toCovers.trans hr.toCovers).trans (hs.toCovers.trans ht))
    rintro _ t ⟨hmemory, pieces, content, hwritten, hconsists, ht⟩
    exact ⟨hmemory, pieces, content, hwritten, hconsists, hr.trans (hs.trans ht)⟩
  · rintro _ r ⟨hmemory, pieces, content, hwritten, hconsists, hr⟩
    have hfills : Fills (ElementForm.embedded .named).slots
        (Outline.leaf none (.token .lessThan) :: (name.tree "name").outline ::
          Outline.leaf none (.token .colon) ::
            (Tree.outlines ((TextType.tokens type).map (·.leaf (some "text_type"))) ++
              Tree.outlines (Lexed.greaterThan.leaf none :: content :: name.closingTrees))) := by
      have hclosed := Fills.closed (hwrites _ _ hwritten) (name.admits_tree "close_name")
      have hlabel : ∀ type : TextType, (type.lexed.leaf (some "text_type")).outline.label
          = (some "text_type", some (.token .identifier)) := fun type =>
        congrArg (fun kind => (some "text_type", some (SyntaxKind.token kind))) type.isIdentifier
      cases type with
      | none => exact .start (name.admits_tree "name") (.part (Slot.admits_leaf _ _)
          (.skip rfl (.skip rfl (.skip rfl hclosed))))
      | some type => exact .start (name.admits_tree "name") (.part (Slot.admits_leaf _ _)
          (.part ⟨hlabel type, trivial⟩ (.skip rfl (.skip rfl hclosed))))
    rw [← Tree.outlines_append] at hfills
    refine ((hq.records hr).complete (by decide) (Outline.fits_of_fills rfl hfills)).mono ?_
    rintro node s ⟨hs, hmarks⟩
    refine ⟨hmarks.memo ▸ hmemory, pieces, content, hwritten, hconsists, ?_⟩
    simpa only [TagName.embedTokens, TagName.embedTrees, List.cons_append, List.append_assoc,
      List.nil_append] using hs

/-- An element is one level of nesting. -/
theorem yields_element_nested {known : List Lexed → Tree → Prop}
    (hdepth : p.depth < p.options.maxNestingDepth)
    (h : Yields (elementNode descend) { p with depth := p.depth + 1 } fun node q => memory q.memo ∧
      ∃ tokens tree, known tokens tree ∧
        Shapes { p with depth := p.depth + 1 } tokens tree node .normal q)
    (field : Option String) :
    Yields (element descend field) p fun node q => memory q.memo ∧
      ∃ tokens tree, known tokens tree ∧ Shapes p tokens (tree.withField field) node .normal q := by
  unfold element nested
  refine .enterNesting hdepth (.ite_true rfl (.ensuring (h.bind ?_)))
  rintro node q ⟨hmemory, tokens, tree, hknown, hq⟩
  refine (hq.setField field).mono ?_
  rintro _ r ⟨rfl, hr, hmarks⟩
  exact ⟨hmarks.memo ▸ hmemory, tokens, tree, hknown, hr.nested⟩

/-- An element is read as its node, one level deeper, and then its field is set.
There must be a level left; to leave it changes neither the record nor what is
remembered. -/
theorem yields_element_named {tokens : List Lexed} {trees : List Tree}
    (hdepth : p.depth < p.options.maxNestingDepth)
    (h : Yields (elementNode descend) { p with depth := p.depth + 1 } fun node q => memory q.memo ∧
      ReadsElement written name tokens trees text behind none { p with depth := p.depth + 1 } node q)
    (field : Option String) :
    Yields (element descend field) p fun node q => memory q.memo ∧
      ReadsElement written name tokens trees text behind field p node q := by
  let known (tokens' : List Lexed) (tree : Tree) : Prop := ∃ pieces content,
    written pieces content ∧ Consists text pieces (name.closing ++ behind) ∧
      tokens' = tokens ++ (pieces.map (·.lexed) ++ name.closingTokens) ∧
      tree = .node none .element (trees ++ content :: name.closingTrees)
  refine (@yields_element_nested _ _ memory known hdepth (h.mono ?_) field).mono ?_
  · rintro node q ⟨hmemory, pieces, content, hwritten, hconsists, hq⟩
    exact ⟨hmemory, _, _, ⟨pieces, content, hwritten, hconsists, rfl, rfl⟩, hq⟩
  · rintro node q ⟨hmemory, _, _, ⟨pieces, content, hwritten, hconsists, rfl, rfl⟩, hq⟩
    exact ⟨hmemory, pieces, content, hwritten, hconsists, hq⟩

end Body

end Grammar

end MarkupSyntax
