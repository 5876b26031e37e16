import MarkupSyntax.Proofs.Grammar.Markup
import MarkupSyntax.Proofs.Grammar.Roundtrip
import MarkupSyntax.Proofs.Tree.Runs

/-!
# `MarkupSyntax.Proofs.Grammar.Bodies`: bodies are read back

A body is read as a sequence of elements up to the first text in it. What
was read so far is kept, or the parse goes back to the start of the body,
and then the rest is read as mixed content. Either way its items are read
in order (`yields_classifiedBody_items`).

The elements in a body may be read twice, and the second time what was
found out about their bodies is remembered. A body is remembered by the
place of its first token. That place is the body's own, except where
trivia comes first, and then it is the place of no sequence
(`Markup.Remembers`).
-/

set_option autoImplicit false

namespace MarkupSyntax

open Grammar Parse

variable {p q r : Parser} {bodies : List (Text × List Markup)} {source rest : Text}
  {context : LexContext} {bound size : Nat}

/-! ### Places -/

/-- Where no trivia comes first, the current token is the first of the
text. -/
theorem Parser.Faces.drop_position {seam : Seam} (hp : p.At seam)
    (hgap : seam.gap p.context = []) : p.text.drop p.position = seam.behind := by
  have hchain := @Seam.chain_gap seam p.context hp.inside
  rw [hgap] at hchain
  show p.text.drop p.range.start = _
  rw [hp.text, hp.range, ← show seam.lexer.position = _ from hchain]
  rfl

/-- The first token of a text is where the text starts, or it does not
stand right behind a tag. -/
theorem Markup.drop_position (h : p.Faces [] rest) (hcontext : p.context = .normal)
    (huncommented : p.text.Uncommented) {text : Text} (htag : Markup.BehindTag p.text text)
    (hne : text ≠ []) (htext : p.text.drop p.position = text) : text = rest := by
  obtain ⟨seam, hp, hlexes⟩ := h
  have hrest : seam.behind = rest := by
    generalize seam.behind = behind at hlexes
    cases hlexes
    rfl
  by_cases hgap : seam.gap p.context = []
  · rw [← htext, Parser.Faces.drop_position hp hgap, hrest]
  · obtain ⟨front, hfront⟩ := htag
    -- The place is right behind the tag.
    have hlength : p.position = front.length + 1 := by
      have hdrop := congrArg List.length htext
      have hall := congrArg List.length hfront
      have hpos := List.length_pos_iff.mpr hne
      rw [List.length_drop] at hdrop
      rw [List.length_append, List.length_cons] at hall
      omega
    have hstart : (seam.current .normal).range.start = p.position := by
      rw [← hcontext]
      exact (congrArg TextRange.start hp.range).symm
    rw [hcontext] at hgap
    have hend := Seam.length_le_start_of_gap hp.inside (hp.text ▸ huncommented) hgap (by
      rw [hstart, ← hp.text, hlength, hfront, List.take_append, List.take_of_length_le (by omega),
        Nat.add_sub_cancel_left]
      simp)
    rw [hstart, ← hp.text] at hend
    rw [List.drop_eq_nil_of_le hend] at htext
    exact absurd htext.symm hne

/-! ### What is remembered -/

namespace Markup

/-- What is remembered of bodies: no control construct was found in one,
and where a sequence starts, nothing else was found. -/
def Remembers (bodies : List (Text × List Markup)) (source : Text)
    (memo : List ((String × Nat) × Outcome)) : Prop :=
  ∀ offset control, (("element_content", offset), .content ⟨false, control⟩) ∈ memo →
    control = none ∧ ∀ body ∈ bodies, source.drop offset = body.1 → isSequence body.2 = false

/-- A parse is ready to read a stretch of the source of this size. -/
structure Ready (bodies : List (Text × List Markup)) (p : Parser) (bound size : Nat) : Prop where
  places : Places p.text bodies
  room : Room p bound size
  memory : Remembers bodies p.text p.memo

/-- A part of the stretch asks for less. -/
theorem Ready.part {size' : Nat} (h : Ready bodies p bound size) (hle : size' ≤ size) :
    Ready bodies p bound size' := by
  obtain ⟨places, ⟨hdepth, hdescent⟩, memory⟩ := h
  exact ⟨places, ⟨by omega, by omega⟩, memory⟩

/-- What is ready for a text is ready for what is left of it. What is remembered
by then must still be right (`Remembers`). -/
theorem Ready.after {size' : Nat} {tokens : List Lexed} (h : Ready bodies p bound size)
    (hp : p.Live) (h' : Covers p tokens context q) (hmemory : Remembers bodies p.text q.memo)
    (hle : size' ≤ size) : Ready bodies q bound size' := by
  obtain ⟨places, ⟨hdepth, hdescent⟩, -⟩ := h
  have htext := h'.text hp
  rw [← htext] at places hmemory
  rw [← h'.calm.depth, ← h'.calm.options] at hdepth
  exact ⟨places, ⟨by omega, by omega⟩, hmemory⟩

/-- A further entry is as right as the others. -/
theorem Remembers.remember {shape : ContentShape} {offset : Nat}
    (h : Remembers bodies source p.memo) (hshape : shape.isElements = false →
      shape.control = none ∧
        ∀ body ∈ bodies, source.drop offset = body.1 → isSequence body.2 = false) :
    Remembers bodies source (p.remember "element_content" offset (.content shape)).memo := by
  have hcons : Remembers bodies source
      ((("element_content", offset), .content shape) :: p.memo) := by
    intro offset' control hmem
    rcases List.mem_cons.mp hmem with heq | hmem
    · cases heq
      exact hshape rfl
    · exact h offset' control hmem
  unfold Parser.remember Parser.keep
  split
  · exact h
  · split
    · exact hcons
    · exact h

/-- What is recalled at a place is that the body there has no control construct
and is no sequence. It is right about every body that starts there. -/
theorem Remembers.of_recall? {control : Option TextRange} {offset : Nat}
    (h : Remembers bodies source p.memo)
    (hrecall : p.recall? "element_content" offset = some (.content ⟨false, control⟩)) :
    control = none ∧ ∀ body ∈ bodies, source.drop offset = body.1 → isSequence body.2 = false := by
  refine h offset control ?_
  unfold Parser.recall? at hrecall
  split at hrecall
  · obtain ⟨front, back, hmemo, -⟩ := List.lookup_eq_some_iff.mp hrecall
    rw [hmemo]
    exact List.mem_append_right _ List.mem_cons_self
  · cases hrecall

/-- An item was read as a node. -/
def ReadsNode (bodies : List (Text × List Markup)) (item : Markup) (behind : Text) (p : Parser)
    (node : Completed) (q : Parser) : Prop :=
  Remembers bodies p.text q.memo ∧ Takes p q ∧ ∃ pieces tree, item.Written pieces tree ∧
    Consists (item.render ++ behind) pieces behind ∧
      Shapes p (pieces.map (·.lexed)) tree node .normal q

/-- Nothing was consumed before the item. -/
theorem ReadsNode.after {node : Completed} {item : Markup} {behind : Text}
    (h : ReadsNode bodies item behind q node r) (hp : p.Live)
    (hcontext : p.context = context) (h' : Records p [] [] context q) :
    ReadsNode bodies item behind p node r := by
  obtain ⟨hmemory, ⟨contexts, htakes⟩, pieces, tree, hwritten, hconsists, hr⟩ := h
  rw [h'.toCovers.text hp] at hmemory
  rw [h'.context, ← hcontext] at htakes
  exact ⟨hmemory, ⟨contexts, h'.way.trans htakes⟩, pieces, tree, hwritten, hconsists, hr.after h'⟩

/-- Items were read, in order. -/
def ReadsAll (bodies : List (Text × List Markup)) (items : List Markup) (behind : Text)
    (p : Parser) (context : LexContext) (q : Parser) : Prop :=
  Remembers bodies p.text q.memo ∧ ∃ pieces trees, AllWritten items pieces trees ∧
    Consists (renderAll items ++ behind) pieces behind ∧
      Records p (pieces.map (·.lexed)) trees context q

namespace ReadsAll

variable {items items' : List Markup} {behind : Text} {context' : LexContext}

/-- No items are read where nothing is recorded. -/
theorem nil (hmemory : Remembers bodies p.text q.memo) (h : Records p [] [] context q) :
    ReadsAll bodies [] behind p context q :=
  ⟨hmemory, [], [], ⟨rfl, rfl⟩, .nil behind, h⟩

/-- Two lists of items are read one behind the other. What the second one finds
in front is what the first one leaves. -/
theorem append (hp : p.Live) (h : ReadsAll bodies items (renderAll items' ++ behind) p context q)
    (h' : ReadsAll bodies items' behind q context' r) :
    ReadsAll bodies (items ++ items') behind p context' r := by
  obtain ⟨-, pieces, trees, hwritten, hconsists, hq⟩ := h
  obtain ⟨hmemory, pieces', trees', hwritten', hconsists', hr⟩ := h'
  rw [hq.toCovers.text hp] at hmemory
  refine ⟨hmemory, pieces ++ pieces', trees ++ trees', hwritten.append hwritten', ?_, ?_⟩
  · rw [renderAll_append, List.append_assoc]
    exact hconsists.append hconsists'
  · rw [List.map_append]
    exact hq.trans hr

/-- Nothing was consumed before the items. -/
theorem after (hp : p.Live) (hmemory : Remembers bodies p.text q.memo)
    (h : Records p [] [] context q) (h' : ReadsAll bodies items behind q context' r) :
    ReadsAll bodies items behind p context' r :=
  (ReadsAll.nil hmemory h).append hp h'

/-- Nothing is consumed behind them. -/
theorem stays (h : ReadsAll bodies items behind p context q)
    (h' : Records q [] [] context' r) (hmemory : Remembers bodies p.text r.memo) :
    ReadsAll bodies items behind p context' r := by
  obtain ⟨-, pieces, trees, hwritten, hconsists, hq⟩ := h
  refine ⟨hmemory, pieces, trees, hwritten, hconsists, ?_⟩
  have hall := hq.trans h'
  rwa [List.append_nil, List.append_nil] at hall

/-- Behind the items comes what follows them. -/
theorem faces (h : ReadsAll bodies items behind p context q)
    (hfaces : p.Faces [] (renderAll items ++ behind)) : q.Faces [] behind := by
  obtain ⟨-, pieces, trees, -, hconsists, hq⟩ := h
  exact (hfaces.append hconsists.lexes).all hq.toCovers

end ReadsAll

/-- A node is one item. -/
theorem ReadsNode.all {item : Markup} {behind : Text} {node : Completed}
    (h : ReadsNode bodies item behind p node q) : ReadsAll bodies [item] behind p .normal q := by
  obtain ⟨hmemory, -, pieces, tree, hwritten, hconsists, hq⟩ := h
  refine ⟨hmemory, pieces, [tree], .singleton hwritten, ?_, hq.records⟩
  rw [renderAll, renderAll, List.append_nil]
  exact hconsists

/-- An element of this kind is read back, wherever it stands. -/
def Reads (bodies : List (Text × List Markup)) : Markup → Prop
  | element name body => ∀ (p : Parser) (bound : Nat) (behind : Text),
    p.Faces [] ((element name body).render ++ behind) →
    p.context = .normal ∨ p.context = .text →
    Ready bodies p (bound + 1) (element name body).render.length →
    (element name body).bodies behind ⊆ bodies →
    Yields (Grammar.element (descentTo bound) none) p fun node q =>
      ReadsNode bodies (element name body) behind p node q
  | _ => True

end Markup

namespace Grammar

open Markup hiding element

variable {descend : Descent} {name : TagName} {behind : Text} {item : Markup} {items : List Markup}

/-! ### Markup in front -/

/-- Where markup comes next, it is the current token. -/
theorem faces_starts (h : p.Faces [] rest) (hstarts : Starts rest)
    (hcontext : p.context = .normal ∨ p.context = .text) :
    p.kind ∈ [TokenKind.lessThan, .lBrace] ∧ gapReadsAsText p = false ∧
      p.text.drop p.position = rest := by
  obtain ⟨kind, hkind, first, behind, hscan⟩ := hstarts.exists_scans hcontext
  obtain ⟨seam, hp, hlexes⟩ := h
  have hrest : seam.behind = rest := by
    generalize seam.behind = behind at hlexes
    cases hlexes
    rfl
  rw [← hrest] at hscan
  have hgap : seam.gap p.context = [] := List.map_eq_nil_iff.mp (Seam.gap_of_scans hp.inside hscan)
  refine ⟨?_, ?_, ?_⟩
  · rw [hp.kind, Seam.kind_current_of_scans hp.inside hscan]
    exact hkind
  · rw [gapReadsAsText_eq hp, hgap]
    rfl
  · rw [Parser.Faces.drop_position hp hgap, hrest]

/-- A name in braces comes next. -/
theorem faces_brace (hcontext : p.context = context)
    (hcode : context = .normal ∨ context = .text)
    (h : p.Faces [] (CodePoint.ofChar '\x7b' :: rest)) :
    p.Faces [.lBrace context] rest ∧ p.kind = .lBrace := by
  have hbrace : Lexes (CodePoint.ofChar '\x7b' :: rest) [.lBrace context] rest :=
    .cons (.token (Lexeme.splits_lBrace hcode) rfl) (.nil _)
  have h := h.append hbrace
  exact ⟨h, h.kind hcontext⟩

/-- Where an item that is no text comes next, no closing tag does. -/
theorem yields_seesCloseTag_item (hitem : item.isText = false)
    (h : p.Faces [] (item.render ++ rest)) (hcontext : p.context = context)
    (hcode : context = .normal ∨ context = .text) :
    Yields seesCloseTag p fun answer q => answer = false ∧ Records p [] [] context q ∧
      q.memo = p.memo := by
  cases item with
  | text => cases hitem
  | interpolation name =>
    have hkind := (faces_brace hcontext hcode h).2
    unfold seesCloseTag seesPair
    refine .sees_false (by rw [hkind]; decide) (.ite_false Bool.false_ne_true ?_)
    exact .pure ⟨rfl, .nil h.live hcontext, rfl⟩
  | element name body =>
    rw [render, List.append_assoc, TagName.opening_append] at h
    exact yields_seesCloseTag_start hcontext hcode h

/-- It is an item of a sequence. -/
theorem yields_seesElementsItem_item (hitem : item.isText = false)
    (h : p.Faces [] (item.render ++ rest)) (hcontext : p.context = .normal) :
    Yields seesElementsItem p fun answer q => answer = true ∧ Records p [] [] .normal q ∧
      q.memo = p.memo := by
  cases item with
  | text => cases hitem
  | interpolation name =>
    have hkind := (faces_brace hcontext (.inl rfl) h).2
    unfold seesElementsItem
    refine .sees_false (by rw [hkind]; decide) (.ite_false Bool.false_ne_true ?_)
    refine ⟨?_, .nil h.live hcontext, rfl⟩
    rw [hkind]
    rfl
  | element name body =>
    rw [render, List.append_assoc, TagName.opening_append] at h
    have hkind := (faces_start hcontext (.inl rfl) h).2
    unfold seesElementsItem
    refine .sees_true hkind (.ite_true rfl ?_)
    refine (yields_nthIs_slash_start hcontext (.inl rfl) h).bind ?_
    rintro _ q ⟨rfl, hq⟩
    exact .pure ⟨rfl, hq⟩

/-! ### Items -/

/-- A name in braces is read back. -/
theorem yields_interpolation_item {word : Word .identifier}
    (h : p.Faces [] ((Markup.interpolation word).render ++ rest))
    (hcontext : p.context = .normal ∨ p.context = .text)
    (hready : Ready bodies p bound (Markup.interpolation word).render.length) :
    Yields (interpolation (descentTo bound) none) p fun node q =>
      ReadsNode bodies (.interpolation word) rest p node q := by
  have hconsists := consists_interpolation word rest hcontext
  have hfaces := h.append hconsists.lexes
  rw [List.nil_append, Lexed.map_lexed_piece] at hfaces
  have hlength : (Markup.interpolation word).render.length = word.text.length + 2 := by
    simp [render]
  have hword : 0 < word.text.length := by
    obtain ⟨c, tail, htext, -⟩ := word.spells.exists_cons
    rw [htext]
    exact Nat.succ_pos _
  -- The value is one word, which needs room for two levels of descent.
  have hvalue : ∀ q, Covers p [.lBrace p.context] .normal q → q.memo = p.memo →
      Yields (expectValue (descentTo bound) "value") q fun _ r =>
        Records q [word.token.lexed] [(Term.identifier word).tree.withField (some "value")]
          .normal r ∧ r.memo = q.memo := by
    intro q hq _
    have hbefore : q.Before ((Term.identifier word).words ++ [Word.rBrace.token]) :=
      ⟨⟨rest, hfaces.tail hq⟩, hq.context⟩
    have hroom : Room q bound 2 := by
      obtain ⟨hdepth, hdescent⟩ := hready.room
      rw [← hq.calm.depth, ← hq.calm.options] at hdepth
      constructor <;> push_cast <;> omega
    have hone : (Term.identifier word).words.length < 2 := Nat.lt_succ_self 1
    have hwell : (Term.identifier word).WellFormed := trivial
    refine (yields_expectValue_words (parses_descentTo bound) hwell hbefore
      (.of_closer (by decide)) hroom hone "value").mono ?_
    intro node r hr
    exact ⟨hr.toShapes.records, hr.memo⟩
  refine (yields_interpolation_tokens hfaces rfl hvalue none).mono ?_
  rintro node q ⟨hq, hmemo⟩
  refine ⟨hmemo ▸ hready.memory, hq.toCovers.takes rfl, _, _,
    ⟨p.context, rfl, rfl⟩, hconsists, ?_⟩
  rw [Lexed.map_lexed_piece]
  exact hq

/-- The kind of the node that an item is read as. -/
theorem kind_of_written {pieces : List Piece} {tree : Tree} (hitem : item.isText = false)
    (h : item.Written pieces tree) :
    tree.kind.isControl = false ∧ decide (tree.kind = .element) = item.isElement := by
  cases item with
  | text => cases hitem
  | interpolation name =>
    obtain ⟨context, -, rfl⟩ := h
    exact ⟨rfl, rfl⟩
  | element name body =>
    obtain ⟨context, inner, trees, -, -, rfl⟩ := h
    exact ⟨rfl, rfl⟩

section Items

variable (hreads : item.Reads bodies) (h : p.Faces [] (item.render ++ rest))
  (hready : Ready bodies p bound item.render.length) (hbodies : item.bodies rest ⊆ bodies)

include hreads h hready hbodies

/-- An element is one level of the descent. -/
theorem yields_descend_item (hitem : item.isElement = true)
    (hcontext : p.context = .normal ∨ p.context = .text) :
    Yields (descentTo bound (.element none)) p fun answer q =>
      ∃ node, answer = some node ∧ ReadsNode bodies item rest p node q := by
  cases item with
  | text => cases hitem
  | interpolation => cases hitem
  | element name body =>
    obtain ⟨bound, rfl⟩ : ∃ n, bound = n + 1 := by
      have hroom := hready.room.descent
      have hlength : 0 < (Markup.element name body).render.length := by
        simp [render, TagName.opening]
      exact ⟨bound - 1, by omega⟩
    show Yields (step (descentTo bound) (.element none)) p _
    unfold step
    exact (hreads p bound rest h hcontext hready hbodies).bind fun node q hq => .pure ⟨node, rfl, hq⟩

/-- An item of a sequence. -/
theorem yields_elementsItem_item (hitem : item.isText = false) (hcontext : p.context = .normal) :
    Yields (elementsItem (descentTo bound)) p fun answer q =>
      ∃ node, answer = some node ∧ ReadsNode bodies item rest p node q := by
  unfold elementsItem
  refine .modify ?_
  rw [Parser.relex_of_context hcontext]
  refine (yields_seesElementsItem_item hitem h hcontext).bind ?_
  rintro _ q ⟨rfl, hq, hmemo⟩
  have hlive := h.live
  have h := h.same hq.toCovers
  have hready := hready.after hlive hq.toCovers (hmemo ▸ hready.memory) le_rfl
  refine .ite_false Bool.false_ne_true (.get ?_)
  cases item with
  | text => cases hitem
  | interpolation word =>
    rw [(faces_brace hq.context (.inl rfl) h).2]
    refine (yields_interpolation_item h (.inl hq.context) hready).bind ?_
    intro node r hr
    exact .pure ⟨node, rfl, hr.after hlive hcontext hq⟩
  | element name body =>
    have hfaces := h
    rw [render, List.append_assoc, TagName.opening_append] at hfaces
    rw [(faces_start hq.context (.inl rfl) hfaces).2]
    refine (yields_descend_item hreads h hready hbodies rfl (.inl hq.context)).mono ?_
    rintro _ r ⟨node, rfl, hr⟩
    exact ⟨node, rfl, hr.after hlive hcontext hq⟩

/-- A sequence goes on behind an item that is no text. -/
theorem yields_bodyRound_item (hitem : item.isText = false) (hcontext : p.context = .normal)
    {state : BodyState} (hbehind : Behind state.progress p) :
    Yields (bodyRound (descentTo bound) state) p fun next q => ∃ progress,
      next = .again { state with progress, hasMarkup := state.hasMarkup || item.isElement } ∧
        Behind progress q ∧ ∃ node, ReadsNode bodies item rest p node q := by
  have hlive := h.live
  obtain ⟨hkind, hgap, -⟩ := faces_starts h (starts_render hitem rest) (.inl hcontext)
  unfold bodyRound
  refine .modify ?_
  rw [Parser.relex_of_context hcontext]
  refine .get (.ite_false (Bool.eq_false_iff.mp hgap) ?_)
  refine .sees_false (fun hend => by rw [hend] at hkind; exact absurd hkind (by decide))
    (.ite_false Bool.false_ne_true ?_)
  refine (yields_seesCloseTag_item hitem h hcontext (.inl rfl)).bind ?_
  rintro _ q ⟨rfl, hq, hmemo⟩
  have h := h.same hq.toCovers
  refine .ite_false Bool.false_ne_true ?_
  refine (yields_seesElementsItem_item hitem h hq.context).bind ?_
  rintro _ r ⟨rfl, hr, hmemo'⟩
  have h := h.same hr.toCovers
  have hstays := hq.trans hr
  have hready := hready.after hlive hstays.toCovers (by rw [hmemo', hmemo]; exact hready.memory) le_rfl
  refine .ite_false Bool.false_ne_true ?_
  refine .mustProgress h.live (hbehind.reaches ⟨_, hstays.way⟩ hlive) fun progress hnext => ?_
  refine .get ((yields_elementsItem_item hreads h hready hbodies hitem hr.context).bind ?_)
  rintro _ s ⟨node, rfl, hs⟩
  obtain ⟨hmemory, htakes, pieces, tree, hwritten, hconsists, hshapes⟩ := hs
  refine hshapes.kind.bind ?_
  rintro _ _ ⟨rfl, rfl⟩
  -- No item of this kind is a control construct, so nothing is remembered of it.
  obtain ⟨hcontrol, helement⟩ := kind_of_written hitem hwritten
  unfold bodyItemRead
  refine .ite_true (by rw [hcontrol]; rfl) (.pure ⟨progress, ?_, behind_of_takes hnext htakes h.live,
    node, ReadsNode.after ⟨hmemory, htakes, pieces, tree, hwritten, hconsists, hshapes⟩ hlive hcontext
      hstays⟩)
  rw [helement]

end Items

/-- A sequence ends in front of the closing tag. -/
theorem yields_bodyRound_closing (h : p.Faces [] (name.closing ++ behind))
    (hcontext : p.context = .normal) (state : BodyState) :
    Yields (bodyRound descend state) p fun next q => next = .done state ∧
      Records p [] [] .normal q ∧ q.memo = p.memo := by
  obtain ⟨-, hgap, -⟩ := faces_starts h (.closing name behind) (.inl hcontext)
  have hkind := (faces_closing hcontext (.inl rfl) h).2
  unfold bodyRound
  refine .modify ?_
  rw [Parser.relex_of_context hcontext]
  refine .get (.ite_false (Bool.eq_false_iff.mp hgap) ?_)
  refine .sees_false (by rw [hkind]; decide) (.ite_false Bool.false_ne_true ?_)
  refine (yields_seesCloseTag_closing hcontext (.inl rfl) h).bind ?_
  rintro _ q ⟨rfl, hq, hmemo⟩
  exact .ite_true rfl (.pure ⟨rfl, hq, hmemo⟩)

/-- A text starts neither with markup nor with a control construct, if
no comment and no invalid character comes first. -/
theorem exists_startsText {seam : Seam} {t : Text} (hp : p.At seam)
    (hbehind : seam.behind = Text.escape false t ++ rest) (hcontext : p.context = .normal)
    (ht : t.Readable) (hrest : Starts rest) :
    ∃ c more, StartsText seam c more ∧
      (gapReadsAsText p = true ∨ p.kind ∉ [TokenKind.ifKeyword, .forKeyword]) := by
  obtain ⟨c, more, hsame, hstarts⟩ : ∃ c more, Text.escape false t ++ rest = c :: more ∧
      StartsText seam c more := by
    cases t with
    | nil => exact absurd rfl ht.ne_nil
    | cons c t =>
      obtain ⟨d, tail, hd, hwhite, hless, hbrace⟩ :=
        @Text.exists_escapeChar_cons false c (ht.first c rfl)
      rw [Text.escape_cons, hd, List.cons_append, List.cons_append] at hbehind ⊢
      exact ⟨d, _, rfl, hbehind, hwhite, hless, hbrace⟩
  refine ⟨c, more, hstarts, ?_⟩
  -- Without a gap that counts as text the token is a keyword only if the text starts with its
  -- word, which a readable text does not.
  by_cases hgap : gapReadsAsText p = true
  · exact .inl hgap
  refine .inr fun hword => ht.word ?_
  have hkind := hstarts.kind_eq hp (Bool.not_eq_true _ ▸ hgap)
  rw [hcontext] at hkind
  have hkind : p.kind = (Lexeme.code false c more).kind := hkind
  rw [← takeWhile_escape hrest.ends_word, hsame]
  rcases List.mem_cons.mp hword with hword | hword
  · have hspelling : (Lexeme.code false c more).kind.keyword? = some "if" := by
      rw [← hkind, hword]
      rfl
    rw [takeWhile_of_keyword hspelling]
    exact List.mem_cons_self
  · have hspelling : (Lexeme.code false c more).kind.keyword? = some "for" := by
      rw [← hkind, List.mem_singleton.mp hword]
      rfl
    rw [takeWhile_of_keyword hspelling]
    exact List.mem_cons_of_mem _ List.mem_cons_self

/-- How far a body was read as a sequence: up to its first text, or to its
end. -/
structure ReadsFront (items front back : List Markup) (state result : BodyState) (q : Parser) :
    Prop where
  items : items = front ++ back
  noText : front.any isText = false
  text : ∀ next ∈ back.head?, next.isText = true
  hasMarkup : result.hasMarkup = (state.hasMarkup || front.any isElement)
  control : result.control = state.control
  firstControl : result.firstControl = state.firstControl
  isText : back = [] → result.isText = state.isText
  noCloseTag : back ≠ [] → result.isText = false → q.kind ≠ .lessThan

/-- The rounds over a body that is read as a sequence. The induction is on
the items. -/
theorem yields_bodyRounds {state : BodyState} {fuel : Nat}
    (hreads : ∀ item ∈ items, item.Reads bodies) (hwell : AllWellFormed items)
    (h : p.Faces [] (renderAll items ++ (name.closing ++ behind))) (hcontext : p.context = .normal)
    (hbehind : Behind state.progress p) (hready : Ready bodies p bound (renderAll items).length)
    (hbodies : allBodies items (name.closing ++ behind) ⊆ bodies) (enough : items.length < fuel) :
    Yields (rounds (bodyRound (descentTo bound)) fuel state) p fun result q => ∃ front back,
      ReadsFront items front back state result q ∧
        ReadsAll bodies front (renderAll back ++ (name.closing ++ behind)) p .normal q ∧
          (Takes p q ∨ Still p q) := by
  -- Item by item. Nothing is known of the fuel but that it is more than the items, so each round
  -- takes one off both.
  induction items generalizing p state fuel with
  | nil =>
    obtain ⟨fuel, rfl⟩ : ∃ n, fuel = n + 1 := ⟨fuel - 1, by omega⟩
    refine .rounds_done ((yields_bodyRound_closing h hcontext state).mono ?_)
    rintro _ q ⟨rfl, hq, hmemo⟩
    refine ⟨state, rfl, [], [], ⟨rfl, rfl, nofun, (Bool.or_false _).symm, rfl, rfl, fun _ => rfl,
      fun hne => absurd rfl hne⟩, .nil (hmemo ▸ hready.memory) hq,
      .inr (hq.toCovers.still h.live hcontext)⟩
  | cons item items ih =>
    obtain ⟨fuel, rfl⟩ : ∃ n, fuel = n + 1 := ⟨fuel - 1, by omega⟩
    obtain ⟨hfirst, hothers⟩ := List.forall_mem_cons.mp hreads
    obtain ⟨hitem, hnext, hwell⟩ := hwell
    rw [renderAll, List.append_assoc] at h
    -- A text ends the loop: it is the first item behind `front`, and all that follows is left to
    -- mixed content.
    by_cases htext : item.isText = true
    · cases item with
      | interpolation => cases htext
      | element => cases htext
      | text t =>
        obtain ⟨seam, hp, hlexes⟩ := h
        have hseam : seam.behind
            = Text.escape false t ++ (renderAll items ++ (name.closing ++ behind)) := by
          generalize seam.behind = text at hlexes
          cases hlexes
          rfl
        obtain ⟨c, more, hstarts, hword⟩ :=
          exists_startsText hp hseam hcontext hitem (starts_renderAll (hnext rfl) name behind)
        have hround : Yields (bodyRound (descentTo bound) state) p fun next q =>
            q = p.relex .normal ∧ ∃ result, next = .done result ∧ state.Ends result q :=
          yields_bodyRound_text hp hstarts state (by rwa [Parser.relex_of_context hcontext])
        rw [Parser.relex_of_context hcontext] at hround
        refine .rounds_done (hround.mono ?_)
        rintro _ _ ⟨rfl, result, rfl, hends⟩
        refine ⟨result, rfl, [], .text t :: items, ⟨rfl, rfl, ?_, ?_, hends.control,
          hends.firstControl, nofun, fun _ => hends.noCloseTag⟩, ?_, .inr (.refl _)⟩
        · exact fun next hmem => Option.some.inj hmem ▸ rfl
        · rw [hends.hasMarkup]
          exact (Bool.or_false _).symm
        · exact .nil hready.memory (.nil ⟨seam, hp⟩ hcontext)
    · -- Any other item is read, and the induction goes on where it ends.
      rw [Bool.not_eq_true] at htext
      have hlive := h.live
      rw [allBodies, List.append_subset] at hbodies
      have hsize : (renderAll (item :: items)).length
          = item.render.length + (renderAll items).length := by
        rw [renderAll, List.length_append]
      refine .rounds_again (fun state' q => ∃ progress,
        state' = { state with progress, hasMarkup := state.hasMarkup || item.isElement } ∧
          Behind progress q ∧ ∃ node, ReadsNode bodies item (renderAll items ++
            (name.closing ++ behind)) p node q)
        ((yields_bodyRound_item hfirst h (hready.part (by omega)) hbodies.1 htext hcontext
          hbehind).mono ?_) ?_
      · rintro next q ⟨progress, rfl, hq⟩
        exact ⟨_, rfl, progress, rfl, hq⟩
      · -- What was read may have been remembered by the way, so the items behind this one are
        -- ready only since `Remembers` holds of that.
        rintro _ q ⟨progress, rfl, hbehind, node, hq⟩
        have hone := hq.all
        obtain ⟨hmemory, htakes, pieces, tree, -, hconsists, hshapes⟩ := hq
        have h := (h.append hconsists.lexes).all hshapes.toCovers
        refine (ih hothers hwell h hshapes.context hbehind
          (hready.after hlive hshapes.toCovers hmemory (by omega)) hbodies.2 (by
            rw [List.length_cons] at enough
            omega)).mono ?_
        rintro result r ⟨front, back, hfront, hr, hway⟩
        refine ⟨item :: front, back, ⟨?_, ?_, hfront.text, ?_, hfront.control,
          hfront.firstControl, hfront.isText, hfront.noCloseTag⟩, ?_, .inl (htakes.trans ?_)⟩
        · rw [List.cons_append, hfront.items]
        · rw [List.any_cons, htext, hfront.noText]
          rfl
        · rw [hfront.hasMarkup, List.any_cons, Bool.or_assoc]
        · rw [hfront.items, renderAll_append, List.append_assoc] at hone
          exact hone.append hlive hr
        · exact hway.elim Takes.reaches Still.reaches

/-! ### Mixed content -/

/-- Text ends in front of markup. -/
theorem isRun_of_starts {t : Text} {pieces : List Piece} (h : ReadsBack false t rest pieces)
    (hrest : Starts rest) : IsRun (pieces.map (·.lexed)) textTokens .text rest := by
  refine isRun_of_readsBack h fun q hq hcontext hmem => ?_
  have hcontext : q.context = .text := hcontext
  have hkind := (faces_starts hq hrest (.inr hcontext)).1
  revert hkind hmem
  cases q.kind <;> decide

/-- An item of mixed content that is no text. -/
theorem yields_mixedRound_item (hreads : item.Reads bodies) (h : p.Faces [] (item.render ++ rest))
    (hready : Ready bodies p bound item.render.length) (hbodies : item.bodies rest ⊆ bodies)
    (hitem : item.isText = false) {progress : Progress} (hbehind : Behind progress p) :
    Yields (mixedRound (descentTo bound) progress) p fun next q => ∃ progress context,
      next = .again progress ∧ Behind progress q ∧ ReadsAll bodies [item] rest p context q := by
  have hlive := h.live
  have hrelex := Records.relex hlive .text
  have h := h.same hrelex.toCovers
  obtain ⟨hkind, -, -⟩ := faces_starts h (starts_render hitem rest) (.inr hrelex.context)
  unfold mixedRound
  refine .modify (.sees_false (fun hend => by rw [hend] at hkind; exact absurd hkind (by decide))
    (.ite_false Bool.false_ne_true ?_))
  refine (yields_seesCloseTag_item hitem h hrelex.context (.inr rfl)).bind ?_
  rintro _ q ⟨rfl, hq, hmemo⟩
  have hstays := hrelex.trans hq
  have hmemory : Remembers bodies p.text q.memo := by
    rw [hmemo]
    exact hready.memory
  have h := h.same hq.toCovers
  have hready := hready.after hlive hstays.toCovers hmemory le_rfl
  refine .ite_false Bool.false_ne_true ?_
  refine .mustProgress h.live (hbehind.reaches ⟨_, hstays.way⟩ hlive) fun progress hnext => ?_
  -- Whatever the item is, the round goes on behind it.
  have hdone : ∀ {node r}, ReadsNode bodies item rest q node r →
      Behind progress r ∧ ReadsAll bodies [item] rest p .normal r := fun hr =>
    ⟨behind_of_takes hnext hr.2.1 h.live, hr.all.after hlive hmemory hstays⟩
  obtain ⟨hkind, -, -⟩ := faces_starts h (starts_render hitem rest) (.inr hq.context)
  have htext : q.kind ∉ textTokens := by
    revert hkind
    cases q.kind <;> decide
  refine .seesAny_false htext (.ite_false Bool.false_ne_true (.get ?_))
  cases item with
  | text => cases hitem
  | interpolation word =>
    rw [(faces_brace hq.context (.inr rfl) h).2]
    refine (yields_interpolation_item h (.inr hq.context) hready).bind ?_
    intro node r hr
    exact .pure ⟨progress, .normal, rfl, hdone hr⟩
  | element name body =>
    have hfaces := h
    rw [render, List.append_assoc, TagName.opening_append] at hfaces
    rw [(faces_start hq.context (.inr rfl) hfaces).2]
    refine (yields_descend_item hreads h hready hbodies rfl (.inr hq.context)).bind ?_
    rintro _ r ⟨node, rfl, hr⟩
    exact .pure ⟨progress, .normal, rfl, hdone hr⟩

/-- A text in mixed content. -/
theorem yields_mixedRound_readable {t : Text} (ht : t.Readable) (hrest : Starts rest)
    (h : p.Faces [] (Text.escape false t ++ rest)) (hready : Ready bodies p bound size)
    {progress : Progress} (hbehind : Behind progress p) :
    Yields (mixedRound descend progress) p fun next q => ∃ progress context,
      next = .again progress ∧ Behind progress q ∧
        ReadsAll bodies [.text t] rest p context q := by
  obtain ⟨pieces, hpieces⟩ := exists_readsBack (hrest.stops ht.plain) ht.last
  have hne : pieces.map (·.lexed) ≠ [] := fun hnil =>
    hpieces.nonempty ht.ne_nil (List.map_eq_nil_iff.mp hnil)
  refine (yields_mixedRound_text hbehind (h.append hpieces.consists.lexes) hne
    (isRun_of_starts hpieces hrest)).mono ?_
  rintro _ q ⟨progress, rfl, hbehind, hq, hmemo⟩
  refine ⟨progress, .text, rfl, hbehind, hmemo ▸ hready.memory, pieces, _,
    .singleton ⟨⟨rest, hpieces⟩, rfl⟩, ?_, hq⟩
  rw [renderAll, renderAll, List.append_nil]
  exact hpieces.consists

/-- The rounds over mixed content. The induction is on the items. -/
theorem yields_mixedRounds {progress : Progress} {fuel : Nat}
    (hreads : ∀ item ∈ items, item.Reads bodies) (hwell : AllWellFormed items)
    (h : p.Faces [] (renderAll items ++ (name.closing ++ behind)))
    (hbehind : Behind progress p) (hready : Ready bodies p bound (renderAll items).length)
    (hbodies : allBodies items (name.closing ++ behind) ⊆ bodies) (enough : items.length < fuel) :
    Yields (rounds (mixedRound (descentTo bound)) fuel progress) p fun _ q =>
      ReadsAll bodies items (name.closing ++ behind) p .text q := by
  -- Item by item, texts included: in mixed content all of them are read.
  induction items generalizing p progress fuel with
  | nil =>
    obtain ⟨fuel, rfl⟩ : ∃ n, fuel = n + 1 := ⟨fuel - 1, by omega⟩
    refine .rounds_done ((yields_mixedRound_closing h).mono ?_)
    rintro _ q ⟨rfl, hq, hmemo⟩
    exact ⟨(), rfl, .nil (hmemo ▸ hready.memory) hq⟩
  | cons item items ih =>
    obtain ⟨fuel, rfl⟩ : ∃ n, fuel = n + 1 := ⟨fuel - 1, by omega⟩
    obtain ⟨hfirst, hothers⟩ := List.forall_mem_cons.mp hreads
    obtain ⟨hitem, hnext, hwell⟩ := hwell
    rw [allBodies, List.append_subset] at hbodies
    have hlive := h.live
    have hsize : (renderAll (item :: items)).length
        = item.render.length + (renderAll items).length := by
      rw [renderAll, List.length_append]
    have hfaces := h
    rw [renderAll, List.append_assoc] at hfaces
    have hround : Yields (mixedRound (descentTo bound) progress) p fun next q =>
        ∃ progress context, next = .again progress ∧ Behind progress q ∧
          ReadsAll bodies [item] (renderAll items ++ (name.closing ++ behind)) p context q := by
      -- A text is one run, as long as the next item is none.
      by_cases htext : item.isText = true
      · cases item with
        | interpolation => cases htext
        | element => cases htext
        | text t =>
          exact yields_mixedRound_readable hitem (starts_renderAll (hnext rfl) name behind) hfaces
            hready hbehind
      · exact yields_mixedRound_item hfirst hfaces (hready.part (by omega)) hbodies.1
          (Bool.not_eq_true _ ▸ htext) hbehind
    refine .rounds_again (fun progress q => ∃ context, Behind progress q ∧
      ReadsAll bodies [item] (renderAll items ++ (name.closing ++ behind)) p context q)
      (hround.mono ?_) ?_
    · rintro _ q ⟨progress, context, rfl, hq⟩
      exact ⟨progress, rfl, context, hq⟩
    · rintro progress q ⟨context, hbehind, hq⟩
      have h := hq.faces (by rwa [renderAll, renderAll, List.append_nil])
      obtain ⟨hmemory, pieces, trees, -, -, hrecords⟩ := id hq
      refine (ih hothers hwell h hbehind (hready.after hlive hrecords.toCovers hmemory (by omega))
        hbodies.2 (by
          rw [List.length_cons] at enough
          omega)).mono ?_
      intro _ r hr
      exact hq.append hlive hr

/-! ### Bodies -/

/-- What comes next is a part of the source. -/
theorem length_le_of_faces (h : p.Faces [] rest) : rest.length ≤ p.text.length := by
  obtain ⟨seam, hp, hlexes⟩ := h
  have hrest : seam.lexer.source.drop seam.lexer.position = rest := by
    show seam.behind = rest
    generalize seam.behind = behind at hlexes
    cases hlexes
    rfl
  rw [hp.text, ← hrest, List.length_drop]
  exact Nat.sub_le _ _

/-- The body is the node in the field for it. -/
def BodyWritten (items : List Markup) (pieces : List Piece) (tree : Tree) : Prop :=
  ∃ trees, AllWritten items pieces trees ∧
    tree = .node (some "content") (contentKind items) trees

/-- What is written for a body has the tree of a body, in the field of
contents. -/
theorem writesBody_written (items : List Markup) : Grammar.WritesBody (BodyWritten items) := by
  rintro pieces _ ⟨trees, -, rfl⟩
  refine ⟨rfl, ?_⟩
  show (contentKind items).isBody = true
  unfold contentKind
  split <;> rfl

/-- The place of a body that is no sequence is the place of none. -/
theorem isSequence_of_drop_position
    (h : p.Faces [] (renderAll items ++ (name.closing ++ behind))) (hplaces : Places p.text bodies)
    (hmem : (renderAll items ++ (name.closing ++ behind), items) ∈ bodies)
    (hcontext : p.context = .normal) (hmixed : isSequence items = false) :
    ∀ body ∈ bodies, p.text.drop p.position = body.1 → isSequence body.2 = false := by
  intro body hbody htext
  have hsame := Markup.drop_position h hcontext hplaces.uncommented
    (hplaces.behindTag body hbody) (hplaces.ne_nil body hbody) htext
  rw [hplaces.single body hbody _ hmem hsame]
  exact hmixed

namespace ReadsFront

variable {front back : List Markup} {result : BodyState}

/-- Where reading mixed content as a sequence has come to, it has no
elements, is text, or there is no closing tag. -/
theorem kind_ne (h : ReadsFront items front back {} result q) (hmixed : isSequence items = false)
    (hsequence : (result.hasMarkup && !result.isText) = true) : q.kind ≠ .lessThan := by
  obtain ⟨hmarkup, htext⟩ := Bool.and_eq_true_iff.mp hsequence
  rw [Bool.not_eq_true'] at htext
  refine h.noCloseTag ?_ htext
  rintro rfl
  rw [h.items, List.append_nil, isSequence, h.noText] at hmixed
  rw [h.hasMarkup, Bool.false_or] at hmarkup
  rw [hmarkup] at hmixed
  cases hmixed

/-- A sequence is read to its end. -/
theorem eq_of_isSequence (h : ReadsFront items front back {} result q)
    (hsequence : isSequence items = true) :
    front = items ∧ back = [] ∧ (result.hasMarkup && !result.isText) = true := by
  obtain ⟨hmarkup, hnone⟩ := Bool.and_eq_true_iff.mp hsequence
  rw [Bool.not_eq_true'] at hnone
  have hback : back = [] := by
    cases hback : back with
    | nil => rfl
    | cons next rest =>
      have htext := h.text next (by rw [hback]; rfl)
      rw [h.items, hback, List.any_append, List.any_cons, htext] at hnone
      simp at hnone
  have hitems := h.items
  rw [hback, List.append_nil] at hitems
  refine ⟨hitems.symm, hback, ?_⟩
  rw [h.hasMarkup, h.isText hback, ← hitems, hmarkup]
  rfl

end ReadsFront

section Body

variable {front back : List Markup} {marker : Marker}
  (hreads : ∀ item ∈ items, item.Reads bodies) (hwell : AllWellFormed items)
  (h : p.Faces [] (renderAll items ++ (name.closing ++ behind)))
  (hready : Ready bodies p bound (renderAll items).length)
  (hmem : (renderAll items ++ (name.closing ++ behind), items) ∈ bodies)
  (hbodies : allBodies items (name.closing ++ behind) ⊆ bodies)

include hreads hwell h hready hbodies

/-- The items of mixed content. -/
theorem yields_mixedItems_markup : Yields (mixedItems (descentTo bound)) p fun _ q =>
    ReadsAll bodies items (name.closing ++ behind) p .text q := by
  have hlength := length_le_renderAll hwell
  have hle := length_le_of_faces h
  rw [List.length_append] at hle
  unfold mixedItems loop
  exact .get (yields_mixedRounds hreads hwell h (behind_first p) hready hbodies (by omega))

/-- What is left of a body is mixed content, and so is the whole. -/
theorem yields_mixedBody_items {q₀ : Parser} (front : List Markup)
    (hmixed : isSequence (front ++ items) = false)
    (hq₀ : MarkupSyntax.Holds q₀ marker [] [] .normal q) (hlive : q₀.Live)
    (hfront : ReadsAll bodies front (renderAll items ++ (name.closing ++ behind)) q context p) :
    Yields (mixedBody (descentTo bound) marker { isElements := false }) p fun _ r =>
      Remembers bodies q₀.text r.memo ∧ ReadsOne (BodyWritten (front ++ items))
        (renderAll (front ++ items) ++ (name.closing ++ behind)) (name.closing ++ behind) q₀ r := by
  unfold mixedBody
  refine .bind (yields_mixedItems_markup hreads hwell h hready hbodies) ?_
  intro _ r hr
  obtain ⟨hmemory, pieces, trees, hwritten, hconsists, hrecords⟩ := hfront.append (Reaches.live ⟨_, hq₀.way⟩ hlive) hr
  have htext := hq₀.toCovers.text hlive
  refine ((hq₀.records hrecords).completeInto (by decide) (Outline.fits_of_isLoose rfl) _).mono ?_
  rintro node s ⟨hs, hmarks⟩
  rw [htext, ← hmarks.memo] at hmemory
  refine ⟨hmemory, pieces, _, .text, ⟨trees, hwritten, ?_⟩, hconsists, hs.records⟩
  rw [contentKind, hmixed]
  rfl

/-- A body that is no sequence, from where reading it as one has come to.
The parse goes on there or at the start of the body. -/
theorem yields_mixed_rest {q₀ q₁ : Parser} {result : BodyState}
    (hmixed : isSequence items = false) (hcontext : p.context = .normal) (hlive : q₀.Live)
    (hq₀ : MarkupSyntax.Holds q₀ marker [] [] .normal p)
    (hfront : ReadsFront items front back {} result q₁)
    (hread : ReadsAll bodies front (renderAll back ++ (name.closing ++ behind)) p .normal q)
    (hway : Takes p q ∨ Still p q) :
    Yields (do
      if readsAsTextSince p.checkpoint (← get) then modify fun q => q.rewind p.checkpoint
      else if let some before := result.firstControl then modify fun q => q.rewind before
      mixedBody (descentTo bound) marker { isElements := false }) q fun _ r =>
      Remembers bodies q₀.text r.memo ∧ ReadsOne (BodyWritten items)
        (renderAll items ++ (name.closing ++ behind)) (name.closing ++ behind) q₀ r := by
  have hp := h.live
  obtain ⟨hmemory, pieces, trees, hwritten, hconsists, hrecords⟩ := id hread
  obtain ⟨sprouts, hgrows, -⟩ := hrecords.grown
  have hrewind := Parser.quiet_rewind hgrows hway
  have hback : Records p [] [] .normal (q.rewind p.checkpoint) :=
    .of_quiet hp hcontext hrewind
      ⟨hrewind.diagnostics, hrewind.errorCount, hrewind.options, hrewind.file, rfl⟩
  rw [hfront.firstControl]
  -- Rewound, the items are all read once more; otherwise the body goes on behind what the first
  -- reading has kept.
  refine .get (.ite (fun _ => .modify ?_) fun _ => ?_)
  · exact yields_mixedBody_items hreads hwell (h.same hback.toCovers)
      (hready.after hp hback.toCovers hmemory le_rfl) hbodies [] hmixed hq₀ hlive
      (.nil hmemory hback)
  · obtain rfl := hfront.items
    rw [renderAll_append, List.append_assoc] at h
    rw [allBodies_append, List.append_subset] at hbodies
    have hsize : (renderAll back).length ≤ (renderAll (front ++ back)).length := by
      rw [renderAll_append, List.length_append]
      exact Nat.le_add_left _ _
    exact yields_mixedBody_items (List.forall_mem_append.mp hreads).2 hwell.of_append
      (hread.faces h) (hready.after hp hrecords.toCovers hmemory hsize) hbodies.2 front hmixed hq₀
      hlive hread

/-- A body is read as what it is. -/
theorem yields_classifiedBody_items
    (hmem : (renderAll items ++ (name.closing ++ behind), items) ∈ bodies)
    (hcontext : p.context = .normal) {q₀ : Parser} (hlive : q₀.Live)
    (hq₀ : MarkupSyntax.Holds q₀ marker [] [] .normal p) :
    Yields (classifiedBody (descentTo bound) marker p.checkpoint p.position) p fun _ r =>
      Remembers bodies q₀.text r.memo ∧ ReadsOne (BodyWritten items)
        (renderAll items ++ (name.closing ++ behind)) (name.closing ++ behind) q₀ r := by
  have hp := h.live
  have hlength := length_le_renderAll hwell
  have hle := length_le_of_faces h
  rw [List.length_append] at hle
  have hloop : Yields (loop (bodyRound (descentTo bound)) {}) p fun result q => ∃ front back,
      ReadsFront items front back {} result q ∧
        ReadsAll bodies front (renderAll back ++ (name.closing ++ behind)) p .normal q ∧
          (Takes p q ∨ Still p q) := by
    unfold loop
    exact .get (yields_bodyRounds hreads hwell h hcontext (behind_first p) hready hbodies (by omega))
  unfold classifiedBody
  refine hloop.bind ?_
  rintro result q ⟨front, back, hfront, hread, hway⟩
  obtain ⟨hmemory, pieces, trees, hwritten, hconsists, hrecords⟩ := id hread
  have hlater : q.Live := Reaches.live ⟨_, hrecords.way⟩ hp
  have hq := hrecords.context
  dsimp only
  refine .modify ?_
  rw [Parser.relex_of_context hq]
  -- A sequence is kept as it was read. Anything else has a text in it, and the loop has stopped
  -- in front of that.
  by_cases hsequence : isSequence items = true
  · obtain ⟨rfl, rfl, hmarkup⟩ := hfront.eq_of_isSequence hsequence
    have h := hread.faces h
    refine .ite_true hmarkup ?_
    refine (yields_seesCloseTag_closing hq (.inl rfl) h).bind ?_
    rintro _ r ⟨rfl, hr, hmemo⟩
    -- That it is a sequence is remembered, and changes nothing of the record.
    have hs := Records.remember (Reaches.live ⟨_, hr.way⟩ hlater) hr.context "element_content"
      p.position (Outcome.isIn_content true _)
    have hmemory : Remembers bodies p.text (r.remember "element_content" p.position
        (.content { isElements := true })).memo :=
      Remembers.remember (hmemo ▸ hmemory) fun hshape => nomatch hshape
    have hall := hread.stays (hr.trans hs) hmemory
    obtain ⟨-, pieces, trees, hwritten, hconsists, hrecords⟩ := hall
    refine .ite_true rfl (.modify ?_)
    refine ((hq₀.records hrecords).completeInto (by decide) (Outline.fits_of_isLoose rfl) _).mono ?_
    rintro node s ⟨hs, hmarks⟩
    rw [hq₀.toCovers.text hlive, ← hmarks.memo] at hmemory
    refine ⟨hmemory, pieces, _, .normal, ⟨trees, hwritten, ?_⟩, hconsists, hs.records⟩
    rw [contentKind, hsequence]
    rfl
  · rw [Bool.not_eq_true] at hsequence
    -- What is remembered of this body must not be recalled for another one. No sequence starts at
    -- its place.
    have hplace := isSequence_of_drop_position h hready.places hmem hcontext hsequence
    have hrest : Yields (do
        modify fun q => q.remember "element_content" p.position
          (.content { isElements := false, control := result.control })
        if readsAsTextSince p.checkpoint (← get) then modify fun q => q.rewind p.checkpoint
        else if let some before := result.firstControl then modify fun q => q.rewind before
        mixedBody (descentTo bound) marker { isElements := false, control := result.control }) q
        fun _ r => Remembers bodies q₀.text r.memo ∧ ReadsOne (BodyWritten items)
          (renderAll items ++ (name.closing ++ behind)) (name.closing ++ behind) q₀ r := by
      rw [hfront.control]
      have hs := Records.remember hlater hq "element_content" p.position
        (Outcome.isIn_content false _)
      have hmemory : Remembers bodies p.text (q.remember "element_content" p.position
          (.content { isElements := false })).memo := hmemory.remember fun _ => ⟨rfl, hplace⟩
      have hstill := hs.toCovers.still hlater hq
      exact .modify (yields_mixed_rest hreads hwell h hready hbodies hsequence hcontext hlive hq₀
        hfront (hread.stays hs hmemory) (hway.imp (·.trans hstill.reaches) (·.trans hstill)))
    -- Markup in front of the text asks for one more look: no closing tag is there, so the body is
    -- not over.
    refine .ite (fun hmarkup => ?_) fun _ => ?_
    · have hkind := hfront.kind_ne hsequence hmarkup
      refine .bind_known (.sees_false hkind (.ite_false Bool.false_ne_true (.pure ⟨rfl, rfl⟩))) ?_
      exact .ite_false Bool.false_ne_true hrest
    · exact .bind_known (.pure ⟨rfl, rfl⟩) (.ite_false Bool.false_ne_true hrest)

/-- The body of a plain element, which may have been read before. -/
theorem yields_elementContent_items
    (hmem : (renderAll items ++ (name.closing ++ behind), items) ∈ bodies)
    (hcontext : p.context = .normal) :
    Yields (elementContent (descentTo bound)) p fun _ r =>
      Remembers bodies p.text r.memo ∧ ReadsOne (BodyWritten items)
        (renderAll items ++ (name.closing ++ behind)) (name.closing ++ behind) p r := by
  unfold elementContent
  refine .modify ?_
  rw [Parser.relex_of_context hcontext]
  refine .get (.get ?_)
  split
  · rename_i control hrecall
    obtain ⟨rfl, hplace⟩ := hready.memory.of_recall? hrecall
    refine (yields_start_node h.live hcontext).bind ?_
    rintro marker q ⟨hq, hmarks⟩
    have hmemory : Remembers bodies p.text q.memo := by
      rw [hmarks.memo]
      exact hready.memory
    -- A sequence would be remembered by its own place.
    have hmixed : isSequence items = false := by
      by_contra hsequence
      obtain ⟨-, hnone⟩ := Bool.and_eq_true_iff.mp (Bool.not_eq_false _ ▸ hsequence)
      rw [Bool.not_eq_true', List.any_eq_false] at hnone
      have hstarts : Starts (renderAll items ++ (name.closing ++ behind)) :=
        starts_renderAll (fun next hnext =>
          Bool.not_eq_true _ ▸ hnone next (List.mem_of_head? hnext)) name behind
      exact hsequence (hplace _ hmem (faces_starts h hstarts (.inl hcontext)).2.2)
    have hready := hready.after h.live hq.toCovers hmemory le_rfl
    refine yields_mixedBody_items hreads hwell (h.same hq.toCovers) hready hbodies [] hmixed hq
      h.live (.nil hready.memory (.nil ?_ hq.context))
    exact Reaches.live ⟨_, hq.way⟩ h.live
  · refine (yields_start_node h.live hcontext).bind ?_
    rintro marker q ⟨hq, hmarks⟩
    refine .get ?_
    have hposition : p.position = q.position := by rw [hmarks]; rfl
    rw [hposition]
    exact yields_classifiedBody_items hreads hwell (h.same hq.toCovers)
      (hready.after h.live hq.toCovers (by rw [hmarks.memo]; exact hready.memory) le_rfl) hbodies
      hmem hq.context h.live hq

end Body

/-! ### Elements -/

/-- An element, from what is known of the elements in it. -/
theorem yields_element_body {body : List Markup} (hreads : ∀ item ∈ body, item.Reads bodies)
    (hwell : AllWellFormed body) (h : p.Faces [] ((Markup.element name body).render ++ behind))
    (hcontext : p.context = .normal ∨ p.context = .text)
    (hready : Ready bodies p (bound + 1) (Markup.element name body).render.length)
    (hbodies : (Markup.element name body).bodies behind ⊆ bodies) (field : Option String) :
    Yields (element (descentTo bound) field) p fun node q => Remembers bodies p.text q.memo ∧
      ReadsElement (BodyWritten body) name (name.openingTokens p.context) name.openingTrees
        (renderAll body ++ (name.closing ++ behind)) behind field p node q := by
  obtain ⟨hmem, hbodies⟩ := List.cons_subset.mp hbodies
  obtain ⟨hdepth, hdescent⟩ := hready.room
  have hsize : (Markup.element name body).render.length
      = name.opening.length + ((renderAll body).length + name.closing.length) := by
    rw [render, List.length_append, List.length_append]
  have hopening : name.opening.length = name.text.length + 2 := by simp [TagName.opening]
  rw [render, List.append_assoc, List.append_assoc] at h
  refine yields_element_named (Remembers bodies p.text) (by omega) ?_ field
  refine yields_elementNode_plain (Remembers bodies p.text) h.deeper rfl hcontext
    (writesBody_written body) fun q hq hmemo _ => ?_
  have hfaces := (h.deeper.append (name.consists_opening _ hcontext).lexes).all hq
  have htext : q.text = p.text := hq.text h.deeper.live
  have hdeeper : q.depth = p.depth + 1 := hq.calm.depth
  have hoptions : q.options = p.options := hq.calm.options
  have hready : Ready bodies q bound (renderAll body).length := by
    refine ⟨htext ▸ hready.places, ⟨?_, by omega⟩, ?_⟩
    · rw [hdeeper, hoptions]
      omega
    · rw [htext, hmemo]
      exact hready.memory
  rw [← htext]
  exact yields_elementContent_items hreads hwell hfaces hready hbodies hmem hq.context

/-- The tree of an element that was read is that of the element. -/
theorem ReadsElement.written {body : List Markup} {field : Option String} {node : Completed}
    (hcontext : p.context = context) (hcode : context = .normal ∨ context = .text)
    (h : ReadsElement (BodyWritten body) name (name.openingTokens context) name.openingTrees
      (renderAll body ++ (name.closing ++ behind)) behind field p node q) :
    Takes p q ∧ ∃ pieces trees,
      (Markup.element name body).Written pieces (elementTree name body trees) ∧
        Consists ((Markup.element name body).render ++ behind) pieces behind ∧
          Shapes p (pieces.map (·.lexed)) ((elementTree name body trees).withField field) node
            .normal q := by
  obtain ⟨inner, content, ⟨trees, hwritten, rfl⟩, hconsists, hshapes⟩ := h
  refine ⟨hshapes.toCovers.takes hcontext, _, trees,
    ⟨context, inner, trees, hwritten, rfl, rfl⟩, ?_, ?_⟩
  · rw [render, List.append_assoc, List.append_assoc]
    exact (name.consists_opening _ hcode).append
      (hconsists.append (name.consists_closing behind))
  · simp only [List.map_append, Lexed.map_lexed_piece]
    exact hshapes

/-- An element is read back, if those in it are. -/
theorem reads_element {body : List Markup} (hreads : ∀ item ∈ body, item.Reads bodies)
    (hwell : AllWellFormed body) : (Markup.element name body).Reads bodies := by
  intro p bound behind h hcontext hready hbodies
  refine (yields_element_body hreads hwell h hcontext hready hbodies none).mono ?_
  rintro node q ⟨hmemory, hq⟩
  obtain ⟨htakes, pieces, trees, hwritten, hconsists, hshapes⟩ := hq.written rfl hcontext
  exact ⟨hmemory, htakes, pieces, _, hwritten, hconsists, hshapes⟩

mutual
/-- Every element is read back. The induction is on what is in it. -/
theorem reads_markup : ∀ item : Markup, item.WellFormed → item.Reads bodies
  | .text _, _ => trivial
  | .interpolation _, _ => trivial
  | .element _ body, h => reads_element (reads_all body h) h

/-- All well-formed items are read back, by induction on the items: those in the
body of an element are shorter than the element. -/
theorem reads_all : ∀ items : List Markup, AllWellFormed items →
    ∀ item ∈ items, item.Reads bodies
  | [], _ => fun _ hmem => nomatch hmem
  | item :: rest, ⟨hitem, _, hrest⟩ =>
    List.forall_mem_cons.mpr ⟨reads_markup item hitem, reads_all rest hrest⟩
end

end Grammar

end MarkupSyntax
