import MarkupSyntax.Proofs.Grammar.Placed
import MarkupSyntax.Proofs.Parse.Reports

/-!
# `MarkupSyntax.Proofs.Grammar.Misplaced`: control constructs in text

A body is read as a sequence until something turns up that is no item of
one. If a control construct was read by then, it stands in text and is
misplaced: that is reported, and the parse goes back to the construct and
reads it again as text (`yields_elementContent_misplaced`).

What may follow a construct so that this happens is a condition on the
text behind it (`Text.Interrupts`). In particular nothing may be wrong
with that text when it is read as code. It is text, but its first tokens
are read as code when the construct ends, and their errors count as errors
of the construct.

From the construct on the body may hold anything, and anything else may be
reported. So the relations here say only which nodes there are in the end
(`Outline.HasMixedContent`), and that the report is kept
(`Parser.Misplaces`).
-/

set_option autoImplicit false

namespace MarkupSyntax

open Grammar Parse
open Sprout hiding node token

/-! ### Texts behind a construct -/

/-- Nothing is wrong with the text when it is read as code, and unless
behind a comment it does not go on with an item of a sequence of elements. -/
def Text.Interrupts (text : Text) : Prop :=
  ∃ gap kind first later, Scans .normal text gap kind first later ∧ Text.Clean later ∧
    (kind ∈ elementsStart → ∃ piece ∈ gap, piece.1 = .comment ∨ piece.1 = .skipped)

/-- Where nothing is wrong with a text, it has a first token, and nothing
is wrong with the text behind that. -/
theorem Text.Clean.exists_scans {text : Text} (h : text.Clean) :
    ∃ gap kind first later, Scans .normal text gap kind first later ∧ Text.Clean later := by
  induction h with
  | nil => exact ⟨_, _, _, _, .eof, .nil⟩
  | @cons kind token rest splits later ih =>
    cases htrivia : kind.triviaKind? with
    | none => exact ⟨_, _, _, _, .token splits (by rw [TokenKind.isTrivia, htrivia]; rfl), later⟩
    | some trivia =>
      obtain ⟨gap, kind', first, rest', hscan, hclean⟩ := ih
      exact ⟨_, _, _, _, .trivia splits htrivia hscan, hclean⟩

/-- White space is read as a piece of white space. -/
theorem Lexeme.Splits.white_of_isWhitespace {kind : TokenKind} {c : CodePoint} {run rest : Text}
    (h : Splits .normal kind (c :: run) rest) (hwhite : c.isWhitespace = true) :
    kind.isTrivia = true ∧ Text.White (c :: run) := by
  obtain ⟨hkind, hlength, -⟩ := splits_cons.mp h
  have hnext : next .normal c (run ++ rest) = separator c (run ++ rest) := if_pos hwhite
  rw [hnext] at hkind hlength
  constructor
  · rw [← hkind, separator]
    split <;> rfl
  · intro d hd
    refine @isWhitespace_of_mem_separator c (run ++ rest) hwhite d ?_
    rw [hlength, List.take_succ_cons, List.take_left]
    exact hd

variable {white tail : Text} {c : CodePoint}

/-- The first character that is no white space starts the first token,
unless that is behind a comment or an invalid character. The induction
follows the scan, one lexeme at a time. -/
theorem Scans.starts_or_comment {gap : List (TriviaKind × Text)} {kind : TokenKind}
    {first later : Text} (hwhite : white.White) (hblack : c.isWhitespace = false)
    (h : Scans .normal (white ++ c :: tail) gap kind first later) :
    (∃ piece ∈ gap, piece.1 = .comment ∨ piece.1 = .skipped) ∨
      kind = (Lexeme.code false c tail).kind := by
  generalize htext : white ++ c :: tail = text at h
  -- Token by token up to the one that is next. Trivia that is no comment is white space, and can
  -- only be a part of `white`.
  induction h generalizing white with
  | eof => exact absurd htext (by simp)
  | @token kind token rest splits solid =>
    right
    obtain ⟨d, run, rfl⟩ := splits.exists_cons_eq
    cases white with
    | nil =>
      obtain ⟨rfl, rfl⟩ := List.cons.inj htext
      exact splits.1.symm
    | cons e white =>
      obtain ⟨rfl, -⟩ := List.cons.inj htext
      have htrivia := (splits.white_of_isWhitespace (hwhite e List.mem_cons_self)).1
      rw [solid] at htrivia
      cases htrivia
  | @trivia kind kind' trivia gap piece text token rest splits isTrivia later ih =>
    by_cases hplain : trivia ≠ .comment ∧ trivia ≠ .skipped
    · -- The piece is white space, so it is a part of that in front.
      have hkind := TokenKind.white_of_triviaKind? isTrivia hplain.1 hplain.2
      obtain ⟨d, run, rfl⟩ := splits.exists_cons_eq
      have hspace := (Lexeme.opens_next .normal d (run ++ text)).white
        (by rwa [(Lexeme.splits_cons.mp splits).1])
      have hpiece := (splits.white_of_isWhitespace hspace).2
      obtain ⟨back, rfl, htail⟩ : ∃ back, white = d :: run ++ back ∧ back ++ c :: tail = text := by
        rcases List.append_eq_append_iff.mp htext with ⟨back, hback, hrest⟩ | ⟨back, rfl, hrest⟩
        · cases back with
          | nil => exact ⟨[], by simpa using hback.symm, by simpa using hrest⟩
          | cons e back =>
            obtain ⟨rfl, -⟩ := List.cons.inj hrest
            have hc := hpiece c (hback ▸ List.mem_append_right _ List.mem_cons_self)
            rw [hblack] at hc
            cases hc
        · exact ⟨back, rfl, hrest.symm⟩
      rcases ih (fun e he => hwhite e (List.mem_append_right _ he)) htail with ⟨piece, hmem, h⟩ | h
      · exact .inl ⟨piece, List.mem_cons_of_mem _ hmem, h⟩
      · exact .inr h
    · refine .inl ⟨_, List.mem_cons_self, ?_⟩
      by_contra hne
      exact hplain (not_or.mp hne)

/-- A text with nothing wrong in it that starts with no letter and with no
markup interrupts a sequence. -/
theorem Text.interrupts_of_first (hwhite : white.White) (hblack : c.isWhitespace = false)
    (hletter : c.isLetter = false) (hangle : c ≠ '<') (hbrace : c ≠ '\x7b')
    (clean : Text.Clean (white ++ c :: tail)) :
    Text.Interrupts (white ++ c :: tail) := by
  obtain ⟨gap, kind, first, later, hscan, hlater⟩ := clean.exists_scans
  refine ⟨gap, kind, first, later, hscan, hlater, fun hkind => ?_⟩
  refine (hscan.starts_or_comment hwhite hblack).resolve_right fun hstart => ?_
  have hopens : (Lexeme.code false c tail).Opens c := Lexeme.opens_next .normal c tail
  -- The words start with letters, and the marks with themselves.
  have hword : ∀ d word, kind.keyword? = some (String.ofList (d :: word)) →
      CodePoint.isLetter d = true → False := by
    intro d word hkeyword hd
    have htake := Markup.takeWhile_of_keyword (hstart ▸ hkeyword)
    rw [Text.ofString, String.toList_ofList, List.map_cons, List.takeWhile_cons] at htake
    split at htake
    · rw [(List.cons.inj htake).1, hd] at hletter
      cases hletter
    · cases htake
  simp only [elementsStart, List.mem_cons, List.not_mem_nil, or_false] at hkind
  rcases hkind with rfl | rfl | rfl | rfl
  · exact hangle (hopens.angle hstart.symm)
  · exact hword 'i' ['f'] rfl (by decide)
  · exact hword 'f' ['o', 'r'] rfl (by decide)
  · exact hbrace (hopens.brace hstart.symm)

/-! ### What is known of the parse -/

variable {p q r : Parser} {marker : Marker} {tokens : List Lexed} {trees : List Tree}
  {context : LexContext} {start : Nat}

/-- A control construct that starts at this offset was reported as
misplaced. -/
def Parser.Misplaces (p : Parser) (start : Nat) : Prop :=
  ∃ diagnostic ∈ p.diagnostics.toList, diagnostic.code = .controlInMixedContent ∧
    diagnostic.range.start = start

/-- What was reported stays reported. -/
theorem Parser.Misplaces.moves (h : p.Misplaces start) (h' : Moves p q) : q.Misplaces start := by
  obtain ⟨diagnostic, hmem, hdiagnostic⟩ := h
  obtain ⟨fresh, hfresh, -⟩ := h'.diagnostics
  exact ⟨diagnostic, hfresh ▸ List.mem_append_left _ hmem, hdiagnostic⟩

/-- The outline of an element whose body is mixed content. -/
def Outline.HasMixedContent (outline : Outline) : Prop :=
  outline.kind = .element ∧
    ∃ content, outline.child? "content" = some content ∧ content.kind = .mixedContent

/-- The field of an element says nothing about its content. -/
theorem Outline.HasMixedContent.withField {outline : Outline} (h : outline.HasMixedContent)
    (field : Option String) : (outline.withField field).HasMixedContent := by
  cases outline <;> exact h

/-- A node is completed, and what else it holds is not known. -/
theorem Holds.completeGrows {kind : SyntaxKind} {sprouts : List Sprout}
    (h : Holds p marker tokens trees context q) (h' : Grows q r sprouts) (real : kind.isNode = true)
    (hfits : (Outline.node none kind (Tree.outlines trees ++ outlines sprouts)).Fits) :
    Yields (marker.complete kind) r fun node s => ∃ sprout, Grows p s [sprout] ∧
      node.PointsAt p.events.toList.length sprout ∧
      sprout.outline = .node none kind (Tree.outlines trees ++ outlines sprouts) ∧ Marks r s := by
  obtain ⟨-, first, rest, hopened, houtlines⟩ := h
  have houtline : (close first kind (rest ++ sprouts)).outline
      = .node none kind (Tree.outlines trees ++ outlines sprouts) := by
    rw [← houtlines, ← outlines_append, List.append_assoc]
    cases first <;> rfl
  refine (Marker.yields_close (hopened.grows h') real (houtline ▸ hfits)).mono ?_
  rintro node s ⟨hnode, hpoints, -, hmarks, -⟩
  exact ⟨_, hnode, hpoints, houtline, hmarks⟩

namespace Grammar

variable {n total : Nat} {construct : Construct .elements} {rest : Text}

/-- What was read of a body is kept when the sequence ends at `p`. It is no
sequence then, for no closing tag comes next or a comment in front of it
is text. -/
def BodyState.Interrupted (state : BodyState) (p : Parser) (next : Round BodyState BodyState)
    (q : Parser) : Prop :=
  ∃ result : BodyState, next = .done result ∧ q = p ∧ result.firstControl = state.firstControl ∧
    result.control = state.control ∧ (result.isText = true ∨ p.kind ≠ .lessThan)

/-- A sequence ends in front of a text that interrupts it. -/
theorem yields_bodyRound_interrupted {descend : Descent} (h : p.Faces [] rest)
    (hcontext : p.context = .normal) (hrest : rest.Interrupts) (state : BodyState) :
    Yields (bodyRound descend state) p (state.Interrupted p) := by
  obtain ⟨gap, kind, first, later, hscan, -, hstart⟩ := hrest
  have hkind : p.kind = kind := (h.append hscan.lexes).kind hcontext
  have hplain : gapReadsAsText p = false → p.kind ∉ elementsStart := by
    intro hgap hmem
    obtain ⟨seam, hp, hlexes⟩ := h
    obtain ⟨piece, hpiece, htext⟩ := hstart (hkind ▸ hmem)
    have hbehind : seam.behind = rest := by
      generalize seam.behind = text at hlexes
      cases hlexes
      rfl
    rw [← hbehind, ← hcontext] at hscan
    rw [gapReadsAsText_eq hp, List.any_eq_false] at hgap
    rw [← Seam.gap_of_scans hp.inside hscan] at hpiece
    obtain ⟨trivia, htrivia, rfl⟩ := List.mem_map.mp hpiece
    refine hgap trivia htrivia ?_
    rw [Trivia.readsAsText, Bool.or_eq_true, decide_eq_true_eq, decide_eq_true_eq]
    exact htext
  unfold bodyRound
  refine .modify ?_
  rw [Parser.relex_of_context hcontext]
  refine .get (.ite (fun _ => .pure ⟨_, rfl, rfl, rfl, rfl, .inl rfl⟩) fun hgap => ?_)
  have hother := hplain (Bool.not_eq_true _ ▸ hgap)
  have hless : p.kind ≠ .lessThan := fun hless => hother (by rw [hless]; decide)
  have hdone : state.Interrupted p (.done state) p := ⟨state, rfl, rfl, rfl, rfl, .inr hless⟩
  refine .sees fun _ _ => .ite (fun _ => .pure hdone) fun _ => ?_
  refine (yields_seesCloseTag_other hless).bind_known (.ite_false Bool.false_ne_true ?_)
  exact (yields_seesElementsItem_other hother).bind_known (.ite_true rfl (.pure hdone))

/-- The record grew by mixed content, and a control construct that starts at
this offset was reported. -/
def ReadsMixed (p : Parser) (start : Nat) (q : Parser) : Prop :=
  ∃ sprout, Grows p q [sprout] ∧ sprout.outline.label = (some "content", none) ∧
    sprout.kind = .mixedContent ∧ q.Misplaces start

/-- The rest of a body in which a control construct is misplaced. -/
theorem yields_mixedBody_misplaced (h : MarkupSyntax.Holds p marker [] [] context q)
    (first : q.diagnostics = #[]) (hroom : 4 * q.room < n) {range : TextRange}
    (hin : range.IsIn q.text.length) :
    Yields (mixedBody (descentTo n) marker { isElements := false, control := some range }) q
      fun _ r => ReadsMixed p range.start r := by
  obtain ⟨-, _, _, hopened, -⟩ := id h
  unfold mixedBody
  refine .get ?_
  have hreport : Yields (report (.ofCode .controlInMixedContent range q.file)) q fun _ r =>
      Grows q r [] ∧ r.Misplaces range.start := by
    refine ⟨(yields_report hopened.toMoves.live ⟨rfl, rfl⟩ fun _ => .ofCode _ hin).1, ?_⟩
    show (q.report _).Misplaces range.start
    refine ⟨.ofCode .controlInMixedContent range q.file, ?_, rfl, rfl⟩
    rw [Parser.report, first]
    exact List.mem_singleton_self _
  refine hreport.bind ?_
  rintro _ r ⟨hr, hmisplaced⟩
  have hle := hr.toMoves.room_le
  refine (yields_mixedItems (works_descentTo n) hr.toMoves.live (by omega)).bind ?_
  rintro _ s ⟨sprouts, hs, -⟩
  refine (h.completeGrows (hr.trans hs) (by decide) (Outline.fits_of_isLoose rfl)).bind ?_
  rintro node t ⟨sprout, ht, hpoints, houtline, hmarks⟩
  refine (Completed.yields_move ht hpoints (some "content")).mono ?_
  rintro _ u ⟨-, hu, hpoints, -, hmarks'⟩
  refine ⟨_, hu, ?_, ?_, ?_⟩
  · rw [label_outline hpoints.isNode, field_withField]
  · rw [kind_withField, ← kind_outline, houtline]
    rfl
  · have hkept := hmisplaced.moves hs.toMoves
    rw [Parser.Misplaces, (hmarks.trans hmarks').calm.diagnostics]
    exact hkept

/-- A control construct is read as a sequence, up to the text behind it. The
parse can go back to the start of the body then, where the construct
starts. -/
theorem yields_bodyLoop_misplaced (hbound : 4 * total + 2 < n)
    (h : Awaits p total .normal (construct.text ++ rest)) (hmemo : p.memo = [])
    (hrest : rest.Interrupts) (noElse : construct.IsOpen → NoElse rest) :
    Yields (loop (bodyRound (descentTo n)) {}) p fun state q =>
      state.firstControl = some p.checkpoint ∧
        (∃ range, state.control = some range ∧ range.start = p.position ∧
          range.IsIn p.text.length) ∧
        (state.isText = true ∨ q.kind ≠ .lessThan) ∧ q.context = .normal ∧ Takes p q ∧
        ∃ sprouts, Grows p q sprouts := by
  obtain ⟨_, _, _, _, hscan, hlater, -⟩ := id hrest
  unfold loop
  refine .get (.rounds_again _ (yields_bodyRound_construct hbound h hmemo noElse hscan hlater) ?_)
  rintro state q ⟨hcontrol, htakes, hq, h⟩
  refine .rounds_done ((yields_bodyRound_interrupted h.faces h.context hrest state).mono ?_)
  rintro _ _ ⟨result, rfl, rfl, hfirst, hsame, hends⟩
  obtain ⟨_, -, hrecords⟩ := hq
  obtain ⟨sprouts, hgrows, -⟩ := hrecords.grown
  exact ⟨result, rfl, hfirst.trans hcontrol.firstControl, hsame ▸ hcontrol.control, hends, h.context,
    htakes, sprouts, hgrows⟩

/-- So the body is mixed content, and the construct is reported. -/
theorem yields_elementContent_misplaced (hbound : 4 * total + 2 < n)
    (h : Awaits p total .normal (construct.text ++ rest)) (hmemo : p.memo = [])
    (first : p.diagnostics = #[]) (hrest : rest.Interrupts) (noElse : construct.IsOpen → NoElse rest) :
    Yields (elementContent (descentTo n)) p fun _ q => ReadsMixed p p.position q := by
  have hnone : ∀ offset, p.recall? "element_content" offset = none := by
    intro offset
    simp [Parser.recall?, hmemo]
  unfold elementContent
  refine .modify ?_
  rw [Parser.relex_of_context h.context]
  refine .get (.get ?_)
  rw [hnone]
  refine (yields_start_node h.live h.context).bind ?_
  rintro marker q ⟨hq, hmarks⟩
  have hposition : q.position = p.position := by
    show q.source.current.range.start = _
    rw [hmarks.source]
    rfl
  have h := h.later hq.calm ⟨_, hq.way⟩ (h.faces.same hq.toCovers) hq.context
  have hroom := h.room_le
  refine .get ?_
  unfold classifiedBody
  refine (yields_bodyLoop_misplaced hbound h (hmarks.memo.trans hmemo) hrest noElse).bind ?_
  rintro state r ⟨hfirst, ⟨range, hcontrol, hstart, hin⟩, hends, hcontext, htakes, sprouts, hgrows⟩
  refine .modify ?_
  rw [Parser.relex_of_context hcontext]
  -- No closing tag comes next, or the body is known to be text.
  have hanswer : ∀ rest : Bool → Parse Completed,
      Yields (rest false) r (fun _ s => ReadsMixed p p.position s) →
      Yields (if state.hasMarkup && !state.isText then seesCloseTag >>= rest
        else pure false >>= rest) r fun _ s => ReadsMixed p p.position s := by
    intro rest hrest
    refine .ite (fun hsequence => ?_) fun _ => hrest
    rw [Bool.and_eq_true, Bool.not_eq_true'] at hsequence
    have hless := hends.resolve_left (Bool.eq_false_iff.mp hsequence.2)
    exact (yields_seesCloseTag_other hless).bind_known hrest
  refine hanswer _ (.ite_false Bool.false_ne_true (.modify (.get ?_)))
  rw [hcontrol, hfirst]
  generalize hs : r.remember "element_content" _ _ = s
  have hshape : (Outcome.content ⟨false, some range⟩).IsIn r.text.length := by
    rw [hgrows.reaches.text h.live]
    exact fun _ hother => Option.some.inj hother ▸ hin
  have hquiet : Quiet r s := hs ▸ quiet_remember _ _ _ hshape
  -- Whichever way the parse goes back, it comes to the start of the body.
  have hback : Quiet q (s.rewind q.checkpoint) :=
    Parser.quiet_rewind (hgrows.trans (hquiet.grows hgrows.live)) (.inl (htakes.trans hquiet.reaches))
  have hmixed : Yields (mixedBody (descentTo n) marker { isElements := false, control := some range })
      (s.rewind q.checkpoint) fun _ t => ReadsMixed p p.position t := by
    have hsame : Records q [] [] .normal (s.rewind q.checkpoint) := .of_quiet h.live h.context hback
      ⟨hback.diagnostics, hback.errorCount, hback.options, hback.file, rfl⟩
    rw [← hposition, ← hstart]
    refine yields_mixedBody_misplaced (hq.records hsame) ?_ ?_ (hback.way.text ▸ hin)
    · rw [hback.diagnostics, hq.calm.diagnostics, first]
    · rw [hback.toStill.room h.live]
      omega
  exact .ite (fun _ => .modify hmixed) fun _ => .modify hmixed

/-! ### Elements -/

variable {name : TagName} {text : Text}

/-- The record grew by an element whose body is mixed content, the node of a
handle, and a control construct that starts at this offset was reported. -/
def ReadsMixedElement (p : Parser) (start : Nat) (node : Completed) (q : Parser) : Prop :=
  ∃ sprout, Grows p q [sprout] ∧ node.PointsAt p.events.toList.length sprout ∧
    sprout.outline.HasMixedContent ∧ q.Misplaces start

/-- An element whose body is mixed content, whether or not it is closed. -/
theorem yields_elementNode_mixed {descend : Descent} (h : p.Faces [] (name.opening ++ text))
    (hcontext : p.context = .normal)
    (hbody : ∀ q, Covers p (name.openingTokens .normal) .normal q → q.memo = p.memo →
      Yields (elementContent descend) q fun _ r => ReadsMixed q start r) :
    Yields (elementNode descend) p (ReadsMixedElement p start) := by
  have hfaces := h.append (name.consists_opening text (.inl rfl)).lexes
  refine yields_elementNode_start hfaces hcontext rfl (by decide) fun marker q hq hmemo _ _ => ?_
  have h : q.Faces [.greaterThan] text :=
    (show p.Faces ([.lessThan .normal, name.lexed] ++ [.greaterThan]) text from hfaces).after
      hq.toCovers
  have hkind : q.kind = .greaterThan := h.kind hq.context
  -- Behind the name stands a `>`, so there is no colon and no property, and the tag does not
  -- close itself.
  rw [if_neg (by decide)]
  have hrest : Yields (plainRest descend) q fun _ r => ∃ front content behind,
      Grows q r (front ++ content :: behind) ∧
        outlines front = Tree.outlines [Lexed.greaterThan.leaf none] ∧
        content.outline.label = (some "content", none) ∧ content.kind = .mixedContent ∧
        (∃ body : ElementBody, body ≠ .absent ∧ Fills body.closing (outlines behind)) ∧
        r.Misplaces start := by
    unfold plainRest
    refine (yields_propertyList_none hq.context (by rw [hkind]; decide) (some "properties")
      false).bind ?_
    rintro _ _ ⟨rfl, rfl⟩
    refine (yields_eat_other (by rw [hkind]; decide) .tag none).bind ?_
    rintro _ _ ⟨rfl, rfl⟩
    refine .ite_false Bool.false_ne_true ?_
    refine (yields_expect_token h hq.context (by decide) .normal none).bind ?_
    rintro _ r ⟨rfl, hbump, hr⟩
    refine .ite_true rfl ((hbody r (hq.toCovers.trans hr.toCovers)
      (by rw [hbump, Parser.memo_bump, hmemo])).bind ?_)
    rintro _ s ⟨content, hs, hlabel, hcontent, hmisplaced⟩
    refine (yields_closeTag hs.toMoves.live).mono ?_
    rintro _ t ⟨body, hne, behind, ht, hfills, -⟩
    obtain ⟨front, hfront, houtlines⟩ := hr.grown
    exact ⟨front, content, behind, hfront.trans (hs.trans ht), houtlines, hlabel, hcontent,
      ⟨body, hne, hfills⟩, hmisplaced.moves ht.toMoves⟩
  refine hrest.bind ?_
  rintro _ r ⟨front, content, behind, hr, hfront, hlabel, hcontent, ⟨body, hne, hclosing⟩, hmisplaced⟩
  have hfield : content.field = some "content" := by
    rw [← field_outline, ← Outline.fst_label, hlabel]
  -- The parts are those of a plain element, whatever its closing tag is.
  have hfills : Fills (ElementForm.plain body).slots
      (Tree.outlines [(Lexed.lessThan .normal).leaf none, name.tree "name"] ++
        outlines (front ++ content :: behind)) := by
    rw [outlines_append, hfront]
    refine .start (name.admits_tree "name") (.skip rfl ?_)
    rw [ElementBody.slots_of_ne_absent hne]
    exact .part (Slot.admits_leaf _ _) (.part ⟨hlabel, by rw [kind_outline, hcontent]; rfl⟩ hclosing)
  refine (hq.completeGrows hr (by decide) (Outline.fits_of_fills rfl hfills)).mono ?_
  rintro node s ⟨sprout, hs, hpoints, houtline, hmarks⟩
  refine ⟨sprout, hs, hpoints, ⟨by rw [houtline]; rfl, content.outline, ?_, ?_⟩, ?_⟩
  · -- The parts in front of the body are in no field or in that of the name.
    have hnone : (Tree.outlines [(Lexed.lessThan .normal).leaf none, name.tree "name"] ++
        Tree.outlines [Lexed.greaterThan.leaf none]).find? (fun part => part.field = some "content")
          = none := by
      simp [Tree.outlines, Tree.outline, Outline.field, TagName.tree, Lexed.leaf]
    rw [houtline, outlines_append, hfront, outlines, Outline.child?, Outline.parts,
      ← List.append_assoc, List.find?_append, hnone, Option.none_or]
    exact List.find?_cons_of_pos (by simp [hfield])
  · rw [kind_outline, hcontent]
  · rw [Parser.Misplaces, hmarks.calm.diagnostics]
    exact hmisplaced

/-- An element with a construct in its body that is misplaced there. -/
theorem yields_element_misplaced (hbound : 4 * total + 2 < n)
    (h : Awaits p total .normal (name.opening ++ (construct.text ++ rest))) (hmemo : p.memo = [])
    (first : p.diagnostics = #[]) (hrest : rest.Interrupts) (noElse : construct.IsOpen → NoElse rest)
    (hsource : p.text = name.opening ++ (construct.text ++ rest)) (field : Option String) :
    Yields (element (descentTo n) field) p (ReadsMixedElement p name.opening.length) := by
  have hdepth : p.depth < p.options.maxNestingDepth := h.depth_lt (by simp [TagName.opening])
  have hbody : ∀ q, Covers { p with depth := p.depth + 1 } (name.openingTokens .normal) .normal q →
      q.memo = p.memo → Yields (elementContent (descentTo n)) q fun _ r =>
        ReadsMixed q name.opening.length r := by
    intro q hq hsame
    have hopening := (name.consists_opening (construct.text ++ rest) (.inl rfl)).lexes
    rw [Lexed.map_lexed_piece] at hopening
    have hfaces := (h.faces.deeper.append hopening).all hq
    have htext : q.text = p.text := hq.text h.faces.deeper.live
    have h := h.deeper (List.cons_ne_nil _ _) hfaces hq.context hq.calm.depth hq.calm.options (by
      rw [htext]
      exact h.total)
    -- The construct stands right behind the tag, and the report is at its place.
    have hposition : q.position = name.opening.length := by
      have hwhole : q.text = name.opening ++ ((construct.keywordToken .normal).text ++
          (Tree.spreadList construct.parts ++ rest)) := by
        rw [← List.append_assoc _ _ rest, ← construct.text_eq]
        exact htext.trans hsource
      exact congrArg TextRange.start
        (Parser.range_of_scans h.faces h.context (construct.scans_text rest) hwhole)
    rw [← hposition]
    exact yields_elementContent_misplaced hbound h (hsame.trans hmemo)
      (hq.calm.diagnostics.trans first) hrest noElse
  unfold element nested
  refine .enterNesting hdepth (.ite_true rfl (.ensuring ((yields_elementNode_mixed h.faces.deeper
    h.context hbody).bind ?_)))
  rintro node q ⟨sprout, hq, hpoints, hmixed, hmisplaced⟩
  refine (Completed.yields_move hq hpoints field).mono ?_
  rintro _ r ⟨rfl, hr, hpoints, -, hmarks⟩
  refine ⟨_, hr.nested, hpoints, ?_, ?_⟩
  · rw [outline_withField]
    exact hmixed.withField field
  · obtain ⟨diagnostic, hmem, hdiagnostic⟩ := hmisplaced
    exact ⟨diagnostic, by rw [← hmarks.calm.diagnostics] at hmem; exact hmem, hdiagnostic⟩

end Grammar

end MarkupSyntax
