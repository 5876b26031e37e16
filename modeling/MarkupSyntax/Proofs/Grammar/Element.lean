import MarkupSyntax.Grammar.Element
import MarkupSyntax.Proofs.Grammar.Content
import MarkupSyntax.Proofs.Token.Tags

/-!
# `MarkupSyntax.Proofs.Grammar.Element`: elements

An element consumes its `<`, so whatever it descends into starts behind
that. The main statement is `yields_element`: an element without errors
closes itself and has no content, or has content and a closing tag with
a name. With errors each step may leave its part out, but what is there
fills the slots of one of the forms of an element.
-/

set_option autoImplicit false

namespace MarkupSyntax.Grammar

open Parse
open scoped Computability

variable {p q r : Parser} {descend : Descent} {bound : Nat}

/-! ### Tags -/

/-- The closing tag of an element, or an error in its place. -/
theorem yields_closeTag (hp : p.Live) :
    Yields closeTag p fun _ q =>
      ∃ body : ElementBody, body ≠ .absent ∧ Spells p q body.closing closePart := by
  -- The current token is read again as outside tags, which leaves no trace in the tree.
  have hrelex := p.grows_relex hp .normal
  obtain ⟨seam, hat⟩ := hrelex.live
  unfold closeTag
  refine .modify ((yields_seesCloseTag hat).bind ?_)
  intro answer q hpost
  obtain ⟨hanswer, hq⟩ := hpost
  have hquiet := hrelex.trans (hq.grows hrelex.live)
  refine .ite (fun _ => ?_) fun h => ?_
  -- There is no closing tag.
  · refine (yields_reportExpected hquiet.live .lessThan).mono ?_
    intro _ r hpost
    obtain ⟨hreport, hfail, -⟩ := hpost
    exact ⟨.unclosed, by decide, (Spells.of_grows (hquiet.trans hreport)).of_failed hfail⟩
  obtain ⟨hkind, hahead⟩ := hanswer (by simpa using h)
  have hcontext : (p.relex .normal).context = .normal := Parser.context_relex _
  refine (yields_bump_next (hq.at_ hat) (hq.kind.trans hkind) (by decide) .tag).bind ?_
  intro _ r hpost
  obtain ⟨hless, -, hcontext', hnext⟩ := hpost
  -- The slash was seen from outside the tag, and is the next token inside it.
  have hslash : r.kind = .slash := by
    have hseam : (seam.current .normal).kind ≠ .eof := by
      rw [← hcontext, ← hat.kind, hkind]
      decide
    rw [hcontext, Seam.kindAhead_one hat.inside hseam] at hahead
    rw [hnext, hq.context, hcontext]
    exact Seam.kind_current_tag_of_slash hahead
  refine (yields_bump_spells hless.live hslash (by decide) .tag none).bind ?_
  intro _ s hpost
  obtain ⟨hslash, -, hcontext''⟩ := hpost
  have hopen : Spells p s [.mark .lessThan, .mark .slash] marks := by
    refine ((hless.trans hslash).after hquiet).mono ?_
    exact le_trans (mul_le_mul' (le_refl _) (mark_le_marks _)) (mark_mul_marks _)
  refine (yields_qualifiedMarkupName hslash.live hcontext'' (some "close_name")).bind ?_
  -- The name may be missing; the end of the tag follows all the same.
  rintro (_ | name) t ⟨hfinds, -, -, -⟩
  · refine .ite (fun _ => ?_) fun h => absurd rfl h
    refine (yields_reportWith hfinds.1.live (by decide) _).bind ?_
    intro _ u hpost
    obtain ⟨hreport, hfail, -⟩ := hpost
    have hmissing : Spells s u [] (node (some "close_name") .qualifiedMarkupName) :=
      (Spells.of_grows (hfinds.1.trans hreport)).of_failed hfail
    refine (yields_expect_optional hreport.live (by decide) .normal none).bind ?_
    exact fun _ v hv => .pure ⟨.nameless, by decide, (hopen.trans hmissing).trans hv⟩
  · refine .ite (fun h => nomatch h) fun _ => ?_
    have hname := hfinds.1.spells
    refine (yields_expect_optional hname.live (by decide) .normal none).bind ?_
    exact fun _ v hv => .pure ⟨.named, by decide, (hopen.trans hname).trans hv⟩

/-- The properties of a tag. -/
theorem yields_properties (hw : Works descend bound) (hp : p.Live) (hbound : 4 * p.room ≤ bound) :
    Yields (propertyList descend (some "properties") false) p fun _ q =>
      Spells p q [(Slot.node "properties").optional]
        (optional (node (some "properties") .propertyList)) := by
  refine (yields_propertyList hw hp hbound (some "properties") false).mono ?_
  intro list q hq
  cases list with
  | none => exact (Spells.nothing hq _).mono (optional_one _)
  | some list => exact hq.spells.optional.mono (optional_word _)

/-- The type of an embedded element is a name. -/
theorem yields_textType (hp : p.Live) :
    Yields textType p fun _ q =>
      Spells p q [(Slot.leaf (some "text_type") (.token .identifier)).optional]
        (optional (token (some "text_type") .identifier)) := by
  have hidle : ∀ q, Quiet p q →
      Spells p q [(Slot.leaf (some "text_type") (.token .identifier)).optional]
        (optional (token (some "text_type") .identifier)) :=
    fun q hq => (Spells.nothing (hq.grows hp) _).mono (optional_one _)
  unfold textType
  -- What is no property of its own is the type.
  refine .get (.ite (fun _ => .pure (hidle p (.refl p))) fun h => ?_)
  have hkind : p.kind = .identifier := by
    by_contra hne
    simp [hne] at h
  refine (settled_seesProperty.quiet hp).bind ?_
  intro _ q hq
  refine .ite (fun _ => .pure (hidle q hq)) fun _ => ?_
  refine (yields_bump_spells (hq.grows hp).live (hq.kind.trans hkind) (by decide) .tag
    (some "text_type")).bind ?_
  intro _ r hpost
  obtain ⟨hspells, -, -⟩ := hpost
  exact .pure ((hspells.after (hq.grows hp)).optional.mono (optional_word _))

/-- The modifier of a raw element is a name that is recorded as a
keyword. -/
theorem yields_rawFlag (hp : p.Live) :
    Yields rawFlag p fun _ q =>
      Spells p q [(Slot.leaf (some "raw") .rawKeyword).optional]
        (optional (node (some "raw") .rawKeyword)) := by
  have hidle : ∀ q, Quiet p q → Spells p q [(Slot.leaf (some "raw") .rawKeyword).optional]
      (optional (node (some "raw") .rawKeyword)) :=
    fun q hq => (Spells.nothing (hq.grows hp) _).mono (optional_one _)
  unfold rawFlag
  -- A name in front of an `=` is a property.
  refine .get (.ite (fun _ => .pure (hidle p (.refl p))) fun h => ?_)
  have hkind : p.kind = .identifier := by
    by_contra hne
    simp [hne] at h
  refine (settled_seesProperty.quiet hp).bind ?_
  intro _ q hq
  refine .ite (fun _ => .pure (hidle q hq)) fun _ => ?_
  refine (yields_bump_raw (hq.grows hp).live (hq.kind.trans hkind) .tag (some "raw")).bind ?_
  intro _ r hpost
  obtain ⟨hspells, -, -⟩ := hpost
  exact .pure ((hspells.after (hq.grows hp)).optional.mono (optional_word _))

/-! ### Elements -/

/-- The end of an opening tag, and the body and the closing tag behind
it. -/
theorem yields_content {context : LexContext} {content : Parse Completed} (hp : p.Live)
    (hcontent : ∀ q, q.Live → q.room ≤ p.room →
      Yields content q fun node r => Builds q r node (some "content") contentKinds) :
    Yields (do
      if ← expect .greaterThan context then
        let _ ← content
        closeTag) p fun _ q => ∃ body : ElementBody, Spells p q body.slots contentPart := by
  refine (yields_expect_spells hp (by decide) context none).bind ?_
  rintro (_ | _) q hq
  -- The tag was not closed, which was reported, so the content is not looked for.
  · exact .pure ⟨.absent, (Spells.of_grows hq.1).of_failed hq.2⟩
  · obtain ⟨hgreater, -, -⟩ := hq
    refine (hcontent q hgreater.live hgreater.room_le).bind ?_
    intro node r hr
    refine (yields_closeTag hr.live).mono ?_
    rintro _ s ⟨body, hne, hclose⟩
    refine ⟨body, ?_⟩
    rw [ElementBody.slots_of_ne_absent hne]
    have hbody : Spells q r _ (into "content") := hr.spells.mono fun word hword => ?_
    · exact (hgreater.trans hbody).trans hclose
    · obtain ⟨kind, -, rfl⟩ := hword
      exact ⟨kind, trivial, rfl⟩

/-- What follows the name of an embedded element. -/
theorem yields_embedRest (hw : Works descend bound) (hp : p.Live) (hbound : 4 * p.room ≤ bound)
    (hkind : p.kind = .colon) (tag : Option Text) :
    Yields (embedRest descend tag) p fun _ q =>
      ∃ body, Spells p q (ElementForm.embedded body).rest embedPart := by
  unfold embedRest
  refine (yields_bump_spells hp hkind (by decide) .tag none).bind ?_
  intro _ q hpost
  obtain ⟨hcolon, -, -⟩ := hpost
  refine (yields_textType hcolon.live).bind ?_
  intro isTyped r htype
  refine (yields_rawFlag htype.live).bind ?_
  intro isRaw s hraw
  have hmods := (hcolon.trans htype).trans hraw
  have hle := hmods.room_le
  refine (yields_properties hw hraw.live (by omega)).bind ?_
  intro _ t hproperties
  have hhead := hmods.trans hproperties
  have hle' := hhead.room_le
  -- How the content is read depends on what the tag says, and its first token already.
  have hcontent : ∀ context content, (∀ u, u.Live → u.room ≤ t.room →
      Yields content u fun node v => Builds u v node (some "content") contentKinds) →
      Yields (do
        if ← expect .greaterThan context then
          let _ ← content
          closeTag) t fun _ v => ∃ body, Spells p v (ElementForm.embedded body).rest embedPart := by
    intro context content h
    refine (yields_content hproperties.live h).mono ?_
    rintro _ v ⟨body, hv⟩
    exact ⟨body, hhead.trans hv⟩
  cases isRaw with
  | true => exact hcontent _ _ fun u hu _ => yields_rawTextRun hu
  | false =>
    cases isTyped with
    | true => exact hcontent _ _ fun u hu _ => yields_embedContent hw hu (by omega)
    | false => exact hcontent _ _ fun u hu _ => yields_textContent hw hu (by omega)

/-- What follows the name of a plain element. -/
theorem yields_plainRest (hw : Works descend bound) (hp : p.Live) (hroom : 4 * p.room < bound) :
    Yields (plainRest descend) p fun _ q => ∃ form : ElementForm, Spells p q form.rest plainPart := by
  unfold plainRest
  refine (yields_properties hw hp (Nat.le_of_lt hroom)).bind ?_
  intro _ q hproperties
  have hle := hproperties.room_le
  refine (yields_eat_spells hproperties.live (by decide) .tag none).bind ?_
  rintro (_ | _) r hslash
  -- No slash: the element has content, unless its tag is not closed.
  · cases hslash
    refine (yields_content hproperties.live fun r hr _ => yields_elementContent hw hr
      (by omega)).mono ?_
    rintro _ s ⟨body, hs⟩
    exact ⟨.plain body, (hproperties.trans hs).mono (mul_le_mul' (le_refl _) le_add_self)⟩
  -- The element closes itself.
  · refine (yields_expect_optional hslash.1.live (by decide) .normal none).bind ?_
    exact fun _ s hs => .pure ⟨.selfClosing, (hproperties.trans (hslash.1.trans hs)).mono
      (mul_le_mul' (le_refl _) le_self_add)⟩

/-- An element, where nesting is not too deep. -/
theorem yields_elementNode (hw : Works descend bound) (hp : p.Live) (hbound : 4 * p.room ≤ bound)
    (hkind : p.kind = .lessThan) :
    Yields (elementNode descend) p fun node q => Makes p q node none {.element} ∧ Takes p q := by
  unfold elementNode
  refine .startWith_spells hp hkind (by decide) ?_
  intro marker q r hstarted hless htakes hcontext
  have hdeep : Deep bound r := .of_takes hp hbound htakes
  refine (yields_qualifiedMarkupName hless.live hcontext (some "name")).bind ?_
  intro name s hpost
  obtain ⟨hfinds, -, -, hoffset⟩ := hpost
  -- What the element has after its name, which was read or reported as missing.
  have hrest : ∀ t, Spells r t [(Slot.node "name").optional]
        (node (some "name") .qualifiedMarkupName) →
      Yields (name.mapM Completed.text) t (fun _ u => u = t) →
      Yields (do
        if ← sees .colon then
          let tag ← name.mapM Completed.text
          embedRest descend tag
        else plainRest descend
        marker.complete .element) t fun node u => Makes p u node none {.element} ∧ Takes p u := by
    intro t hname htext
    have hle := hname.room_le
    have hbound' : 4 * t.room < bound := hdeep.element.trans_le' (by omega)
    have hend : ∀ u (form : ElementForm), Spells t u form.rest (plainPart + embedPart) →
        Yields (marker.complete .element) u fun node v =>
          Makes p v node none {.element} ∧ Takes p v := by
      intro u form hu
      have hall : Spells q u form.slots (production .element) := (hless.trans hname).trans hu
      refine (Marker.yields_spelled hstarted hall (by decide) (le_refl _) fun parts hparts =>
        Outline.fits_of_fills rfl hparts).mono ?_
      intro node v hpost
      obtain ⟨hbuilds, hv, -⟩ := hpost
      exact ⟨hbuilds.makes, htakes.trans ((hname.trans hu).adds.reaches.trans hv.reaches)⟩
    refine .sees fun sees hsees => .ite (fun h => ?_) fun _ => ?_
    · refine htext.bind ?_
      rintro tag _ rfl
      refine (yields_embedRest hw hname.live (Nat.le_of_lt hbound') (hsees.mp h) tag).bind ?_
      rintro _ u ⟨body, hu⟩
      exact hend u (.embedded body) (hu.mono le_add_self)
    · refine (yields_plainRest hw hname.live hbound').bind ?_
      rintro _ u ⟨form, hu⟩
      exact hend u form (hu.mono le_self_add)
  cases name with
  | none =>
    refine .ite (fun _ => ?_) fun h => absurd rfl h
    refine (yields_reportWith hfinds.1.live (by decide) _).bind ?_
    intro _ t hpost
    obtain ⟨hreport, hfail, -⟩ := hpost
    exact hrest t ((Spells.nothing (hfinds.1.trans hreport) _).of_failed hfail) (.pure rfl)
  | some name =>
    obtain ⟨hmakes, hname⟩ := hfinds
    have hbehind : name.offset ≤ s.done := by
      rw [hoffset name rfl]
      exact Nat.le_of_lt (hname.position_lt_done hless.live)
    refine .ite (fun h => nomatch h) fun _ => hrest s hmakes.spells.optional ?_
    exact (Completed.yields_text hmakes hname hbehind).map fun _ _ h => h.1

/-- An element, into a field. -/
theorem yields_element (hw : Works descend bound) (hp : p.Live) (hbound : 4 * p.room ≤ bound)
    (hkind : p.kind = .lessThan) (field : Option String) :
    Yields (element descend field) p fun node q =>
      Makes p q node field plainKinds ∧ Takes p q := by
  unfold element
  refine yields_nested (fun q hq => ?_) fun q hq => ?_
  · have hgrows := hq.grows hp
    have hless : q.kind = .lessThan := hq.kind.trans hkind
    refine (yields_nestingTooDeep hgrows.live (by rw [hless]; decide) (by rw [hless]; decide)
      field).mono ?_
    exact fun node r hr => ⟨hr.1.after hgrows, hq.takes hr.2⟩
  · have hgrows := hq.grows hp
    have hbound' : 4 * q.room ≤ bound := by
      rw [hq.room hp]
      exact hbound
    refine (yields_elementNode hw hgrows.live hbound' (hq.kind.trans hkind)).bind ?_
    intro node r hpost
    obtain ⟨hmakes, htakes⟩ := hpost
    refine (Completed.yields_setField hmakes field).mono ?_
    intro _ s hpost
    obtain ⟨rfl, hmakes, hs⟩ := hpost
    have hleave := quiet_leaveNesting s
    exact ⟨((hmakes.after hgrows).quiet hleave).mono (Set.singleton_subset_iff.mpr rfl),
      (hq.takes htakes).trans (hs.reaches.trans hleave.reaches)⟩

end MarkupSyntax.Grammar
