import MarkupSyntax.Grammar.Content
import MarkupSyntax.Proofs.Grammar.Elements

/-!
# `MarkupSyntax.Proofs.Grammar.Content`: the bodies of elements

The specifications of the rules for bodies. The body of a plain element
is first read as a sequence, and the parse may step back from there: to
the start of the body or to the first control construct in it. It can do
so because the token that was current there has been consumed since, in
the context in which it was read, or is still the current one
(`BodyRead`).
-/

set_option autoImplicit false

namespace MarkupSyntax.Grammar

open Parse

variable {p q r : Parser} {descend : Descent} {bound : Nat} {marker : Marker}

/-! ### Text -/

/-- A run of text consumes the tokens that belong to it, of which the
current one is one. -/
theorem yields_textRun (hp : p.Live) {kind : SyntaxKind} {tokens : List TokenKind}
    (plain : kind.isLooseNode = true) (free : ⊤ ≤ production kind) (notEnd : .eof ∉ tokens)
    (hkind : p.kind ∈ tokens) (context : LexContext) :
    Yields (textRun kind tokens context) p fun _ q => Adds p q ⊤ ∧ Takes p q := by
  unfold textRun
  refine (yields_start hp).bind ?_
  intro marker q hstarted
  have hloop : Yields (whileTrue do
      if !(← seesAny tokens) then return false
      bump context
      return true) q fun _ r => Adds q r ⊤ ∧ Takes q r := by
    -- The invariant: a token of the run was consumed, or nothing happened yet.
    refine yields_whileTrue (fun r => Adds q r ⊤ ∧ (Takes q r ∨ Still q r)) Parser.room ?_
      ⟨(Adds.refl hstarted.live).anything, .inr (.refl q)⟩ (by unfold Parser.room; omega)
    intro r hpost
    obtain ⟨hadds, hway⟩ := hpost
    refine .seesAny fun sees hsees => .ite (fun h => ?_) fun h => ?_
    · -- The first round does not end the run: its token belongs to it.
      refine .pure ⟨hadds, hway.resolve_right fun hstill => ?_⟩
      have hmem : r.kind ∈ tokens := by
        rw [hstill.kind, hstarted.kind]
        exact hkind
      rw [hsees.mpr hmem] at h
      cases h
    · have hmem : r.kind ∈ tokens := hsees.mp (by simpa using h)
      have hne : r.kind ≠ .eof := fun heof => notEnd (heof ▸ hmem)
      refine (yields_bump hadds.live hne context none).bind ?_
      intro _ s hpost
      obtain ⟨hadds', htakes, -⟩ := hpost
      refine .pure ⟨⟨hadds.more hadds', .inl ?_⟩, htakes.room_lt hadds.live⟩
      rcases hway with hfirst | hstill
      · exact hfirst.trans htakes.reaches
      · exact hstill.takes htakes
  refine hloop.bind ?_
  intro _ r hpost
  obtain ⟨hadds, htakes⟩ := hpost
  refine (Marker.yields_complete (hstarted.adds hadds) plain free).bind ?_
  intro node s hpost
  obtain ⟨hmakes, hs, -⟩ := hpost
  exact .pure ⟨hmakes.adds.anything, hstarted.takes (htakes.trans hs.reaches)⟩

/-- A token that has no place in text becomes an error node. -/
theorem yields_strayToken (hp : p.Live) (notEnd : p.kind ≠ .eof) :
    Yields strayToken p fun _ q => Adds p q ⊤ ∧ Takes p q := by
  unfold strayToken
  refine (yields_reportUnexpected hp).bind ?_
  intro _ q hpost
  obtain ⟨hreport, hfail, hq⟩ := hpost
  refine (yields_start hreport.live).bind ?_
  intro marker r hstarted
  have hr : Still p r := hq.trans hstarted.toStill
  refine (yields_bump hstarted.live (by rw [hr.kind]; exact notEnd) .text none).bind ?_
  intro _ s hpost
  obtain ⟨hadds, htakes, -⟩ := hpost
  have hopened := hstarted.adds hadds
  have hfail' : s.errorCount ≠ 0 := fun hs => hfail (hopened.moves.errorCount_start hs)
  refine (Marker.yields_complete (hopened.of_failed hfail') (by decide)
    (le_refl (production .error))).bind ?_
  intro node t hpost
  obtain ⟨hmakes, ht, -⟩ := hpost
  exact .pure ⟨((Adds.of_grows hreport).trans hmakes.adds).anything,
    hr.takes (htakes.trans ht.reaches)⟩

/-! ### Mixed content -/

/-- One item of mixed content. -/
theorem yields_mixedRound (hw : Works descend bound) (hp : p.Live) (hroom : 4 * p.room < bound)
    {progress : Progress} (hbehind : Behind progress p) :
    Yields (mixedRound descend progress) p (Advances p) := by
  have hrelex := p.grows_relex hp .text
  have hadds := (Adds.of_grows hrelex).anything
  unfold mixedRound
  refine .modify (.sees fun atEnd hend => .ite (fun _ => .pure hadds) fun h => ?_)
  -- The content ends at the end of the source and in front of a closing tag.
  refine (settled_seesCloseTag.quiet hrelex.live).bind fun answer q hq => ?_
  refine .ite (fun _ => .pure (hadds.quiet hq)) fun _ => ?_
  have hq' := hadds.quiet hq
  have hroom' : 4 * q.room < bound := by
    have := hq'.room_le
    omega
  -- The tests before only looked, so the end of the source is still excluded.
  have notEnd : q.kind ≠ .eof := fun heof => h (hend.mpr (hq.kind ▸ heof))
  refine .mustProgress hq'.live (hbehind.reaches hq'.reaches hp) fun next hnext => ?_
  dsimp only
  refine .seesAny fun isText htext => .ite (fun h => ?_) fun _ => .get ?_
  · refine (yields_textRun hq'.live (by decide) (le_refl _) (by decide) (htext.mp h) .text).bind ?_
    exact fun _ r hr => .pure (advances_again hnext hq' hr.1 hr.2)
  split
  · rename_i hkind
    refine (hw.element none q hq'.live hkind hroom').bind ?_
    intro _ r hpost
    obtain ⟨node, -, hmakes, htakes⟩ := hpost
    exact .pure (advances_again hnext hq' hmakes.adds.anything htakes)
  · rename_i hkind
    refine (yields_interpolation hw hq'.live (Nat.le_of_lt hroom') hkind none).bind ?_
    intro node r hpost
    obtain ⟨hmakes, htakes⟩ := hpost
    exact .pure (advances_again hnext hq' hmakes.adds.anything htakes)
  -- No token of text and no start of an item either.
  · refine (yields_strayToken hq'.live notEnd).bind ?_
    exact fun _ r hr => .pure (advances_again hnext hq' hr.1 hr.2)

/-- Mixed content ends, and may hold anything. -/
theorem yields_mixedItems (hw : Works descend bound) (hp : p.Live)
    (hroom : 4 * p.room < bound) : Yields (mixedItems descend) p fun _ q => Adds p q ⊤ :=
  yields_advancing hp fun _ _ hq hle hbehind => yields_mixedRound hw hq (by omega) hbehind

/-- The rest of a body as mixed content. -/
theorem yields_mixedBody (hw : Works descend bound) (h : Opened p marker q ⊤)
    (hroom : 4 * q.room < bound) (shape : ContentShape)
    (hin : q.Placed → (Outcome.content shape).IsIn q.text.length) :
    Yields (mixedBody descend marker shape) q fun node r =>
      Builds p r node (some "content") contentKinds := by
  -- The rest is the same whether or not the body is reported as mixed.
  have hrest : ∀ r, Opened p marker r ⊤ → 4 * r.room < bound →
      Yields (do
        mixedItems descend
        (← marker.complete .mixedContent).setField "content") r fun node s =>
          Builds p s node (some "content") contentKinds := by
    intro r hr hroom'
    refine (yields_mixedItems hw hr.live hroom').bind ?_
    intro _ s hadds
    refine (yields_completeInto_builds ((hr.adds hadds).mono le_top) (by decide) (le_refl _)
      (some "content")).mono ?_
    intro node t hpost
    obtain ⟨hbuilds, -, -⟩ := hpost
    exact hbuilds.mono (Set.singleton_subset_iff.mpr rfl)
  unfold mixedBody
  dsimp only
  split
  -- Markup and text were both seen, which is worth a diagnostic.
  · rename_i range hrange
    have hplaced : q.Placed → (Diagnostic.ofCode .controlInMixedContent range q.file).IsPlaced
        q.text.length q.file := fun hq => .ofCode _ (hin hq range hrange)
    refine .get ((yields_report h.live ⟨rfl, rfl⟩ hplaced).bind ?_)
    intro _ r hpost
    obtain ⟨hreport, -, -⟩ := hpost
    have hle := hreport.room_le
    exact hrest r (h.stays hreport) (by omega)
  · exact hrest q h hroom

/-! ### Bodies of plain elements -/

/-- What is known while a body is read as a sequence, from `p` on.
`first` is the place in front of the first control construct. Both the
start of the body and that place can be gone back to. `range` is that of
a control construct. -/
structure BodyRead (p : Parser) (first : Option Parser.Checkpoint) (range : Option TextRange)
    (q : Parser) : Prop where
  context : p.context = .normal
  adds : Adds p q ⊤
  way : Takes p q ∨ Still p q
  control : ∀ before ∈ first, ∃ b : Parser, before = b.checkpoint ∧ (Takes p b ∨ Still p b) ∧
    Adds p b ⊤ ∧ Adds b q ⊤ ∧ Takes b q
  isIn : ∀ found ∈ range, found.IsIn p.text.length

namespace BodyRead

variable {first : Option Parser.Checkpoint} {range : Option TextRange}

/-- At the start of a body nothing of it was read. -/
theorem start (hp : p.Live) (hcontext : p.context = .normal) : BodyRead p none none p :=
  ⟨hcontext, (Adds.refl hp).anything, .inr (.refl p),
    fun _ hmem => absurd hmem (Option.not_mem_none _), nofun⟩

/-- More was read after the current token was consumed, or with it still
the current one. -/
theorem more (h : BodyRead p first range q) (hadds : Adds q r ⊤)
    (hway : Takes q r ∨ Still q r) : BodyRead p first range r := by
  refine ⟨h.context, h.adds.more hadds, ?_, fun before hmem => ?_, h.isIn⟩
  · rcases h.way with htakes | hstill
    · exact .inl (htakes.trans hadds.reaches)
    · rcases hway with htakes' | hstill'
      · exact .inl (hstill.takes htakes')
      · exact .inr (hstill.trans hstill')
  -- Going back further than the current place is still possible.
  · obtain ⟨b, hbefore, hway', hb, hq, htakes⟩ := h.control before hmem
    exact ⟨b, hbefore, hway', hb, hq.more hadds, htakes.trans hadds.reaches⟩

/-- A question leaves what was read of the body. -/
theorem quiet (h : BodyRead p first range q) (h' : Quiet q r) : BodyRead p first range r :=
  h.more ((Adds.refl h.adds.live).anything.quiet h') (.inr h'.toStill)

/-- Reading the current token anew is nothing as long as nothing was
consumed: the body starts outside tags. -/
theorem relex (h : BodyRead p first range q) : BodyRead p first range (q.relex .normal) := by
  have hrelex := q.grows_relex h.adds.live .normal
  rcases h.way with htakes | hstill
  · refine ⟨h.context, h.adds.stays hrelex, .inl (htakes.trans hrelex.reaches), ?_, h.isIn⟩
    intro before hmem
    obtain ⟨b, hbefore, hway, hb, hq, htakes'⟩ := h.control before hmem
    exact ⟨b, hbefore, hway, hb, hq.stays hrelex, htakes'.trans hrelex.reaches⟩
  · rw [Parser.relex_of_context (hstill.context.trans h.context)]
    exact h

/-- A control construct was read. -/
theorem withControl {b : Parser} (h : BodyRead p first range q) (hway : Takes p b ∨ Still p b)
    (hb : Adds p b ⊤) (hq : Adds b q ⊤) (htakes : Takes b q) :
    BodyRead p (first.or (some b.checkpoint)) range q := by
  refine ⟨h.context, h.adds, h.way, fun before hmem => ?_, h.isIn⟩
  -- Only the first control construct is remembered.
  cases first with
  | some place => exact h.control before hmem
  | none => exact ⟨b, (Option.some.inj hmem).symm, hway, hb, hq, htakes⟩

/-- Its range ends where the parse is. -/
theorem withRange (h : BodyRead p first range q) {found : TextRange}
    (hstop : found.stop = q.position) : BodyRead p first (some found) q := by
  refine ⟨h.context, h.adds, h.way, h.control, fun other hmem => ?_⟩
  have hle := h.adds.live.position_le
  rw [h.adds.reaches.text h.adds.moves.start] at hle
  rw [← Option.some.inj hmem]
  exact Nat.le_trans (Nat.le_of_eq hstop) hle

/-- What the body is read as is kept for another time. -/
theorem remember (h : BodyRead p first range q) (offset : Nat) (shape : ContentShape)
    (hshape : ∀ found ∈ shape.control, found ∈ range) :
    BodyRead p first range (q.remember "element_content" offset (.content shape)) := by
  refine h.quiet (quiet_remember q _ _ fun found hmem => ?_)
  rw [h.adds.reaches.text h.adds.moves.start]
  exact h.isIn found (hshape found hmem)

end BodyRead

/-- What a round of reading a body as a sequence does. -/
def BodyAdvances (p q : Parser) : Round BodyState BodyState → Parser → Prop
  | .again next, r =>
    BodyRead p next.firstControl next.control r ∧ Behind next.progress r ∧ r.room < q.room
  | .done result, r => BodyRead p result.firstControl result.control r

/-- Taking note of an item that was read. -/
theorem yields_bodyItemRead (state : BodyState) {b : Parser} (hway : Takes p b ∨ Still p b)
    (hb : Adds p b ⊤) (h : BodyRead p state.firstControl state.control r) (hr : Adds b r ⊤) (htakes : Takes b r)
    (hbehind : Behind state.progress r) (hroom : r.room < q.room) (kind : SyntaxKind) :
    Yields (bodyItemRead state b.checkpoint kind) r (BodyAdvances p q) := by
  have hcontrol := h.withControl hway hb hr htakes
  -- The item consumed a token, so it ends behind its start and its range is well formed.
  have hbounds : b.position ≤ r.position :=
    Nat.le_trans (Nat.le_of_lt (htakes.position_lt_done hb.live)) hr.live.done_le_position
  unfold bodyItemRead
  refine .ite (fun _ => .pure ⟨h, hbehind, hroom⟩) fun _ => .get ?_
  dsimp only
  refine .ite (fun _ => .pure hcontrol) fun _ => .ite (fun _ => ?_) fun _ => ?_
  · exact .pure ⟨hcontrol, hbehind, hroom⟩
  · have hrange : TextRange.ofBounds? b.checkpoint.source.current.range.start r.position
        = some ⟨b.position, r.position, hbounds⟩ := dif_pos hbounds
    rw [hrange]
    exact .pure ⟨hcontrol.withRange rfl, hbehind, hroom⟩

/-- One item of a body that is read as a sequence. -/
theorem yields_bodyRound (hw : Works descend bound) (hroom : 4 * p.room < bound)
    {state : BodyState} (h : BodyRead p state.firstControl state.control q)
    (hbehind : Behind state.progress q) :
    Yields (bodyRound descend state) q (BodyAdvances p q) := by
  -- The first token is read as outside tags each time, since an item may have left another
  -- context.
  have hrelex := h.relex
  have hle := (q.grows_relex h.adds.live .normal).room_le
  have hbehind' := hbehind.reaches (q.grows_relex h.adds.live .normal).reaches h.adds.live
  unfold bodyRound
  refine .modify (.get (.ite (fun _ => .pure hrelex) fun _ => ?_))
  refine .sees fun _ _ => .ite (fun _ => .pure hrelex) fun _ => ?_
  refine (settled_seesCloseTag.quiet hrelex.adds.live).bind fun _ s hs => ?_
  refine .ite (fun _ => .pure (hrelex.quiet hs)) fun _ => ?_
  have hread := hrelex.quiet hs
  refine (settled_seesElementsItem.quiet hread.adds.live).bind ?_
  intro _ b hb
  have hread := hread.quiet hb
  -- Whatever was looked up so far left everything where it was.
  refine .ite (fun _ => .pure hread) fun _ => ?_
  have hquiet := hs.trans hb
  have hlive := hread.adds.live
  have hcontext : b.context = .normal := hquiet.context.trans (Parser.context_relex _)
  have hroom' := hread.adds.room_le
  refine .mustProgress hlive (hbehind'.reaches hquiet.reaches hrelex.adds.live) fun next hnext => ?_
  refine .get ((yields_elementsItem hw hlive (by omega) hcontext).bind ?_)
  intro item r hr
  cases item with
  | none =>
    -- Nothing starts an item here, and the sequence ends.
    exact .pure (hread.more (Adds.of_grows hr.1).anything (.inr hr.2))
  | some item =>
    obtain ⟨hmakes, htakes⟩ := hr
    have hadds := hmakes.adds.anything
    obtain ⟨sprout, hgrows, hpoints, -⟩ := hmakes
    refine (Completed.yields_kind hgrows hpoints).bind ?_
    rintro kind _ ⟨rfl, -⟩
    refine yields_bodyItemRead { state with progress := next } hread.way hread.adds
      -- The item consumed a token, and the tests before it consumed none.
      (hread.more hadds (.inl htakes)) hadds htakes (behind_of_takes hnext htakes hlive) ?_ kind
    have hlt := htakes.room_lt hlive
    have hle' := (hquiet.grows hrelex.adds.live).room_le
    omega

/-- A body is read as a sequence as far as it goes. -/
theorem yields_bodyLoop (hw : Works descend bound) (hq : q.Live) (hcontext : q.context = .normal)
    (hroom : 4 * q.room < bound) :
    Yields (loop (bodyRound descend) {}) q fun result r =>
      BodyRead q result.firstControl result.control r := by
  refine yields_loop
    (fun state r => BodyRead q state.firstControl state.control r ∧ Behind state.progress r)
    (fun _ r => r.room) ?_ ⟨.start hq hcontext, behind_first q⟩
    (by unfold Parser.room; omega)
  intro state r hpost
  obtain ⟨h, hbehind⟩ := hpost
  refine (yields_bodyRound hw hroom h hbehind).mono ?_
  rintro (next | result) s hs
  -- The invariant is what a further round starts with, and the last round leaves its first
  -- half.
  · exact ⟨⟨hs.1, hs.2.1⟩, hs.2.2⟩
  · exact hs

/-- A body that was read as a sequence ends so, or is read on as mixed
content, from a place that it can go back to. -/
theorem yields_classifiedBody (hw : Works descend bound) (hstarted : Started p marker q)
    (hcontext : q.context = .normal) (hroom : 4 * q.room < bound) (offset : Nat) :
    Yields (classifiedBody descend marker q.checkpoint offset) q fun node r =>
      Builds p r node (some "content") contentKinds := by
  unfold classifiedBody
  refine (yields_bodyLoop hw hstarted.live hcontext hroom).bind ?_
  intro state r h
  refine .modify ?_
  have h := h.relex
  -- Whichever way the question is settled, the parse goes on from a quiet state.
  have hanswer : ∀ rest : Bool → Parse Completed,
      (∀ isElements s, Quiet (r.relex .normal) s → Yields (rest isElements) s fun node t =>
        Builds p t node (some "content") contentKinds) →
      Yields (if state.hasMarkup && !state.isText then seesCloseTag >>= rest
        else pure false >>= rest) (r.relex .normal) fun node t =>
          Builds p t node (some "content") contentKinds := by
    intro rest hrest
    refine .ite (fun _ => (settled_seesCloseTag.quiet h.adds.live).bind hrest) fun _ => ?_
    exact hrest false _ (.refl _)
  refine hanswer _ ?_
  intro isElements s hs
  have h := h.quiet hs
  have hremember : ∀ shape : ContentShape, (∀ range ∈ shape.control, range ∈ state.control) →
      BodyRead q state.firstControl state.control
        (s.remember "element_content" offset (.content shape)) := h.remember offset
  refine .ite (fun _ => .modify ?_) fun _ => .modify ?_
  -- The body is a sequence of elements to its end.
  · have h := hremember { isElements := true } fun _ hmem => absurd hmem (Option.not_mem_none _)
    refine (yields_completeInto_builds (hstarted.adds h.adds) (by decide) (le_refl _)
      (some "content")).mono ?_
    intro node t hpost
    obtain ⟨hbuilds, -, -⟩ := hpost
    exact hbuilds.mono (Set.singleton_subset_iff.mpr rfl)
  -- Wherever the parse goes back to, the node is open as before.
  have hmixed : ∀ t, Adds q t ⊤ → Yields (mixedBody descend marker
      { isElements := false, control := state.control }) t fun node u =>
        Builds p u node (some "content") contentKinds := by
    intro t ht
    have hle := ht.room_le
    refine yields_mixedBody hw (hstarted.adds ht) (by omega) _ fun _ range hrange => ?_
    rw [ht.reaches.text hstarted.live]
    exact h.isIn range hrange
  have h := hremember { isElements := false, control := state.control } fun _ hrange => hrange
  obtain ⟨sprouts, hgrows, -⟩ := h.adds
  dsimp only
  refine .get (.ite (fun _ => .modify (hmixed _ ?_)) fun _ => ?_)
  -- All of the body goes back, to its first token.
  · exact (Adds.refl hstarted.live).anything.quiet (Parser.quiet_rewind hgrows h.way)
  split
  · rename_i before hbefore
    -- Only what follows the first control construct goes back.
    obtain ⟨b, rfl, -, hb, ⟨sprouts', hgrows', -⟩, htakes⟩ := h.control before hbefore
    exact .modify (hmixed _ (hb.quiet (Parser.quiet_rewind hgrows' (.inl htakes))))
  · exact hmixed _ h.adds

/-- The body of a plain element. -/
theorem yields_elementContent (hw : Works descend bound) (hp : p.Live)
    (hroom : 4 * p.room < bound) :
    Yields (elementContent descend) p fun node q => Builds p q node (some "content") contentKinds := by
  have hrelex := p.grows_relex hp .normal
  have hle := hrelex.room_le
  unfold elementContent
  refine .modify (.get (.get ?_))
  split
  -- An earlier parse of this body found out what it is.
  · rename_i control hrecall
    refine (yields_start hrelex.live).bind ?_
    intro marker q hstarted
    have hroom' := hstarted.moves.room_le
    have hin : q.Placed → (Outcome.content ⟨false, control⟩).IsIn q.text.length := fun hq =>
      hq.recalled hstarted.moves.notes hrecall
    refine (yields_mixedBody hw (hstarted.word.mono le_top) (by omega) _ hin).mono ?_
    exact fun node r hr => hr.after hrelex
  · refine (yields_start hrelex.live).bind ?_
    intro marker q hstarted
    have hroom' := hstarted.moves.room_le
    have hcontext : q.context = .normal := hstarted.context.trans (Parser.context_relex _)
    refine .get ((yields_classifiedBody hw hstarted hcontext (by omega) _).mono ?_)
    exact fun node r hr => hr.after hrelex

/-! ### Bodies of embedded elements -/

/-- A body whose production is free, around whatever its items add. -/
theorem yields_freeBody {kind : SyntaxKind} {items : Parse Unit} (hp : p.Live)
    (loose : kind.isLooseNode = true) (free : ⊤ ≤ production kind) (hkind : kind ∈ contentKinds)
    (hitems : ∀ q, q.Live → q.room ≤ p.room → Yields items q fun _ r => Adds q r ⊤) :
    Yields (do
      let marker ← start
      items
      let node ← marker.complete kind
      node.setField "content") p fun node q => Builds p q node (some "content") contentKinds := by
  refine (yields_start hp).bind ?_
  intro marker q hstarted
  refine (hitems q hstarted.live hstarted.moves.room_le).bind ?_
  intro _ r hadds
  refine (yields_completeInto_builds (hstarted.adds hadds) loose free (some "content")).mono ?_
  intro node s hpost
  obtain ⟨hbuilds, -, -⟩ := hpost
  exact hbuilds.mono (Set.singleton_subset_iff.mpr hkind)

/-- One item of the body of an embedded element without a type. -/
theorem yields_plainTextRound (hw : Works descend bound) (hp : p.Live)
    (hbound : 4 * p.room ≤ bound) {progress : Progress} (hbehind : Behind progress p) :
    Yields (plainTextRound descend progress) p (Advances p) := by
  have hrelex := p.grows_relex hp .text
  have hlive := hrelex.live
  have hadds := (Adds.of_grows hrelex).anything
  have hle := hrelex.room_le
  unfold plainTextRound
  refine .modify (.seesAny fun atEnd hend => .ite (fun _ => .pure hadds) fun h => ?_)
  have notEnd : (p.relex .text).kind ≠ .eof := fun heof =>
    h (hend.mpr (heof ▸ List.mem_cons_self))
  refine .mustProgress hlive (hbehind.reaches hrelex.reaches hp) fun next hnext => ?_
  dsimp only
  refine .seesAny fun isText htext => .ite (fun h => ?_) fun _ => ?_
  · refine (yields_textRun hlive (by decide) (le_refl _) (by decide) (htext.mp h) .text).bind ?_
    exact fun _ r hr => .pure (advances_again hnext hadds hr.1 hr.2)
  refine .sees fun sees hsees => .ite (fun h => ?_) fun _ => ?_
  · refine (yields_interpolation hw hlive (by omega) (hsees.mp h) none).bind ?_
    intro node r hpost
    obtain ⟨hmakes, htakes⟩ := hpost
    exact .pure (advances_again hnext hadds hmakes.adds.anything htakes)
  · refine (yields_strayToken hlive notEnd).bind ?_
    exact fun _ r hr => .pure (advances_again hnext hadds hr.1 hr.2)

/-- The body of an embedded element without a type. -/
theorem yields_textContent (hw : Works descend bound) (hp : p.Live)
    (hbound : 4 * p.room ≤ bound) :
    Yields (textContent descend) p fun node q => Builds p q node (some "content") contentKinds := by
  unfold textContent
  refine yields_freeBody hp (by decide) (le_refl _) rfl fun q hq hle => ?_
  refine yields_advancing hq fun progress r hr hroom hbehind => ?_
  exact yields_plainTextRound hw hr (by omega) hbehind

/-- Where typed text goes on, there is text or an interpolation: the
lexer finds nothing else in it. -/
theorem kind_of_typedText (hp : p.Live) (hcontext : p.context = .typedText) :
    p.kind ∈ [TokenKind.eof, .lessThan, .atLBrace] ++ typedTextTokens := by
  obtain ⟨seam, hp⟩ := hp
  rw [hp.kind, hcontext]
  by_cases hend : (seam.current .typedText).kind = .eof
  · rw [hend]
    decide
  obtain ⟨c, rest, -, hkind, -⟩ := Seam.cutIn_current hp.inside hend
  have htrivia := @Seam.isTrivia_current seam .typedText hp.inside
  have hmem := Lexeme.kind_next_typedText c rest
  have hsolid : ∀ kind ∈ [TokenKind.whitespace, .newline, .textChunk, .entity, .escapedLBrace,
      .escapedRBrace, .escapedAt, .atLBrace, .lessThan], kind.isTrivia = false →
        kind ∈ [TokenKind.eof, .lessThan, .atLBrace] ++ typedTextTokens := by decide
  rw [← hkind] at hmem
  exact hsolid _ hmem htrivia

/-- One item of the body of a typed element. -/
theorem yields_typedTextRound (hw : Works descend bound) (hp : p.Live)
    (hbound : 4 * p.room ≤ bound) {progress : Progress} (hbehind : Behind progress p) :
    Yields (typedTextRound descend progress) p (Advances p) := by
  have hrelex := p.grows_relex hp .typedText
  have hlive := hrelex.live
  have hadds := (Adds.of_grows hrelex).anything
  have hle := hrelex.room_le
  have hkind := kind_of_typedText hlive (Parser.context_relex _)
  unfold typedTextRound
  refine .modify (.seesAny fun atEnd hend => .ite (fun _ => .pure hadds) fun h => ?_)
  refine .mustProgress hlive (hbehind.reaches hrelex.reaches hp) fun next hnext => ?_
  dsimp only
  refine .sees fun sees hsees => .ite (fun hbrace => ?_) fun hbrace => ?_
  · refine (yields_interpolationAs hw hlive (by omega) (hsees.mp hbrace) (by decide) (by decide)
      (le_refl _) .typedText).bind ?_
    intro node r hpost
    obtain ⟨hmakes, htakes⟩ := hpost
    exact .pure (advances_again hnext hadds hmakes.adds.anything htakes)
  · have htext : (p.relex .typedText).kind ∈ typedTextTokens := by
      rcases List.mem_append.mp hkind with hother | htext
      · refine absurd ?_ hbrace
        rw [hsees]
        rw [hend] at h
        simp only [List.mem_cons, List.not_mem_nil, or_false] at hother h
        tauto
      · exact htext
    refine (yields_textRun hlive (by decide) (le_refl _) (by decide) htext .typedText).bind ?_
    exact fun _ r hr => .pure (advances_again hnext hadds hr.1 hr.2)

/-- The body of a typed element. -/
theorem yields_embedContent (hw : Works descend bound) (hp : p.Live)
    (hbound : 4 * p.room ≤ bound) :
    Yields (embedContent descend) p fun node q => Builds p q node (some "content") contentKinds := by
  unfold embedContent
  refine yields_freeBody hp (by decide) (le_refl _) rfl fun q hq hle => ?_
  refine yields_advancing hq fun progress r hr hroom hbehind => ?_
  exact yields_typedTextRound hw hr (by omega) hbehind

/-- A raw body. -/
theorem yields_rawTextRun (hp : p.Live) :
    Yields rawTextRun p fun node q => Builds p q node (some "content") contentKinds := by
  unfold rawTextRun
  refine yields_freeBody hp (by decide) (le_refl _) rfl fun q hq _ => ?_
  refine (yields_many ⊤ hq ?_).mono fun _ _ hmore => hmore.anything
  intro r hr _
  refine .sees fun sees hsees => .ite (fun _ => .pure (.refl hr)) fun h => .get ?_
  have hkind : r.kind = .rawTextChunk := hsees.mp (by simpa using h)
  refine (yields_bump hr (by rw [hkind]; decide) _ none).bind ?_
  intro _ s hpost
  obtain ⟨hadds, htakes, -⟩ := hpost
  exact .pure ⟨hadds.anything, htakes⟩

end MarkupSyntax.Grammar
