import MarkupSyntax.Grammar.Basic
import MarkupSyntax.Proofs.Parse.Recovering

/-!
# `MarkupSyntax.Proofs.Grammar.Basic`: names, literals and shared rules

A rule that may find nothing either makes a node, which consumes the
current token, or leaves everything as it was (`Finds`).

`Works descend bound` is what the other rules assume of the parsers of
the recursive constructs. Each works where the source leaves little
enough to consume: four times that, and the rank of the construct, has
to stay below the bound. So a rule may descend into any construct once
it has consumed a token, and into one of lower rank at once.
-/

set_option autoImplicit false

namespace MarkupSyntax

open Grammar Parse

variable {p q r : Parser}

/-- What a rule answers that may find nothing: a node that consumes the
current token, or nothing with everything left as it was. -/
def Finds (p : Parser) (field : Option String) (kinds : Set SyntaxKind) :
    Option Completed → Parser → Prop
  | some node, q => Makes p q node field kinds ∧ Takes p q
  | none, q => Grows p q [] ∧ Still p q

/-- The same of an expression with operators that bind at least this
tightly, with what is known of its outline. -/
def Operates (precedence : Nat) (p : Parser) : Option Completed → Parser → Prop
  | some node, q => Forms p q node {outline | outline.Concludes precedence q.kind} ∧ Takes p q
  | none, q => Grows p q [] ∧ Still p q

/-- A part of an operator expression is found, whatever the precedence. -/
theorem Operates.finds {precedence : Nat} {part : Option Completed}
    (h : Operates precedence p part q) : Finds p none Set.univ part q := by
  cases part with
  | some node => exact ⟨h.1.makes fun _ _ => Set.mem_univ _, h.2⟩
  | none => exact h

/-- An operand, or an error in its place. -/
theorem yields_operand {precedence : Nat} {part : Option Completed} {code : Code}
    (h : Operates precedence p part q) (field : String) (hcode : code.isOfGrammar = true) :
    Yields (orMissing part field code) q fun _ r => ∃ operand, Grows p r [operand] ∧
      operand.field = some field ∧ operand.outline.Concludes precedence r.kind ∧
      (r.errorCount = 0 → operand.Obeys production) := by
  cases part with
  | some node =>
    obtain ⟨⟨sprout, hgrows, hpoints, -, hconcludes, hclean⟩, -⟩ := h
    unfold orMissing Completed.into
    refine (Completed.yields_move hgrows hpoints (some field)).bind ?_
    intro _ r hpost
    obtain ⟨-, hgrows, -, hstill, hmarks⟩ := hpost
    refine .pure ⟨_, hgrows, Sprout.field_withField .., ?_, fun hr => ?_⟩
    · rw [Sprout.outline_withField, Outline.concludes_withField, hstill.kind]
      exact hconcludes
    · exact (hclean (hmarks.calm.errorCount ▸ hr)).withField _
  | none =>
    refine (yields_missingNode h.1.live (some field) hcode).bind ?_
    intro _ r hpost
    obtain ⟨hgrows, -, hfail, -⟩ := hpost
    -- The empty error node is no operand, so whatever follows is none of its operators.
    exact .pure ⟨_, h.1.trans hgrows, rfl, ⟨nofun, .inl rfl⟩, fun hr => absurd hr hfail⟩

/-- A rule that stays where it is finds nothing. -/
theorem Finds.nothing (hp : p.Live) (field : Option String) (kinds : Set SyntaxKind) :
    Finds p field kinds none p :=
  ⟨.refl hp, .refl p⟩

namespace Grammar

/-- The parsers of the recursive constructs work where the source leaves
little enough for the bound. -/
structure Works (descend : Descent) (bound : Nat) : Prop where
  value : ∀ (field : Option String) (p : Parser), p.Live → 4 * p.room + 2 < bound →
    Yields (descend (.value field)) p (Finds p field Set.univ)
  operators : ∀ (precedence : Nat) (p : Parser), p.Live → 4 * p.room + 1 < bound →
    Yields (descend (.operators precedence)) p (Operates precedence p)
  element : ∀ (field : Option String) (p : Parser), p.Live → p.kind = .lessThan →
    4 * p.room < bound → Yields (descend (.element field)) p fun result q =>
      ∃ node, result = some node ∧ Makes p q node field plainKinds ∧ Takes p q
  body : ∀ (domain : Domain) (field : String) (p : Parser), p.Live → 4 * p.room + 3 < bound →
    Yields (descend (.body domain field)) p fun result q =>
      match result with
      | some node => Makes p q node (some field) Set.univ
      | none => Grows p q []

/-! ### Nesting -/

/-- One round of skipping a group consumes a token, except at the end of
the source and at a brace that closes the group around it. -/
theorem yields_skipGroup (hp : p.Live) (depth : Nat) :
    Yields (skipGroup depth) p fun round q =>
      Adds p q ⊤ ∧ match round with
      | .again _ => Takes p q
      | .done _ => p.kind = .eof ∨ p.kind ∈ groupClosers ∨ Takes p q := by
  have hidle := (Adds.refl hp).anything
  unfold skipGroup
  refine .sees fun atEnd hend => .ite (fun h => .pure ⟨hidle, .inl (hend.mp h)⟩) fun h => ?_
  have notEnd : p.kind ≠ .eof := fun hkind => h (hend.mpr hkind)
  refine .seesAny fun isOpener _ => .seesAny fun isCloser hcloser => ?_
  refine .ite (fun h => .pure ⟨hidle, .inr (.inl ?_)⟩) fun _ => ?_
  -- A brace outside of all groups closes the group around.
  · rw [Bool.and_eq_true] at h
    exact hcloser.mp h.1
  refine (yields_bump hp notEnd .normal none).bind ?_
  intro _ q hpost
  obtain ⟨hadds, htakes, -⟩ := hpost
  -- The group that was entered may be closed by this token.
  exact .ite (fun _ => .pure ⟨hadds.anything, .inr (.inr htakes)⟩) fun _ =>
    .pure ⟨hadds.anything, htakes⟩

/-- What is nested too deeply becomes an error node, from the current
token on. -/
theorem yields_nestingTooDeep (hp : p.Live) (notEnd : p.kind ≠ .eof)
    (notCloser : p.kind ∉ groupClosers) (field : Option String) :
    Yields (nestingTooDeep field) p fun node q =>
      Makes p q node field plainKinds ∧ Takes p q := by
  unfold nestingTooDeep
  refine (yields_reportHere hp (by decide)).bind ?_
  intro _ q hpost
  obtain ⟨hreport, hfail, hq⟩ := hpost
  refine (yields_start hreport.live).bind ?_
  intro marker r hstarted
  have hr : Still p r := hq.trans hstarted.toStill
  have hloop : Yields (loop skipGroup 0) r fun _ s => Adds r s ⊤ ∧ Takes r s := by
    -- The invariant: either a token was consumed, or nothing happened yet. Only the first round
    -- starts with the latter.
    refine yields_loop (fun _ s => Adds r s ⊤ ∧ (Takes r s ∨ Still r s)) (fun _ s => s.room) ?_
      ⟨(Adds.refl hstarted.live).anything, .inr (.refl r)⟩ (by unfold Parser.room; omega)
    intro depth s hpost
    obtain ⟨hadds, hway⟩ := hpost
    refine (yields_skipGroup hadds.live depth).mono ?_
    rintro (_ | _) t ⟨hadds', hround⟩
    · refine ⟨⟨hadds.more hadds', .inl ?_⟩, Takes.room_lt hround hadds.live⟩
      rcases hway with htakes | hstill
      · exact htakes.trans hadds'.reaches
      · exact hstill.takes hround
    -- In the first round it does not end before the token is consumed, because that is neither
    -- the end nor a closing brace.
    · refine ⟨hadds.more hadds', ?_⟩
      rcases hway with htakes | hstill
      · exact htakes.trans hadds'.reaches
      · have hkind : s.kind = p.kind := hstill.kind.trans hr.kind
        rcases hround with hend | hcloser | htakes
        · exact absurd (hkind ▸ hend) notEnd
        · exact absurd (hkind ▸ hcloser) notCloser
        · exact hstill.takes htakes
  refine hloop.bind ?_
  intro _ s hpost
  obtain ⟨hadds, htakes⟩ := hpost
  -- The report before the node excuses the node's children.
  have hfail' : s.errorCount ≠ 0 := fun hs => hfail ((hstarted.adds hadds).moves.errorCount_start hs)
  refine (yields_completeInto ((hstarted.adds hadds).of_failed hfail') (by decide)
    (le_refl _) field).mono ?_
  intro node t hpost
  obtain ⟨hmakes, ht, -⟩ := hpost
  have hfail'' : t.errorCount ≠ 0 := fun h => hfail (hmakes.moves.errorCount_start h)
  exact ⟨(hmakes.after hreport).of_failed (Set.singleton_subset_iff.mpr rfl) hfail'', hr.takes (htakes.trans ht.reaches)⟩

/-! ### Repetition -/

open scoped Computability

/-- A step that is repeated as long as it consumes the current token
adds a word each time. -/
theorem yields_many {step : Parse Bool} (word : Language Role) (hp : p.Live)
    (hstep : ∀ q, q.Live → q.room ≤ p.room → Yields step q fun again r =>
      if again then Adds q r word ∧ Takes q r else Grows q r []) :
    Yields (whileTrue step) p fun _ q => Adds p q (word∗) := by
  -- A round that goes on leaves less of the source, which bounds the rounds.
  refine yields_whileTrue (fun q => Adds p q (word∗)) Parser.room ?_
    ((Adds.refl hp).mono one_le_kstar) (by unfold Parser.room; omega)
  intro q hq
  refine (hstep q hq.live hq.room_le).mono ?_
  rintro (_ | _) r hr
  · exact hq.stays hr
  · exact ⟨(hq.trans hr.1).mono kstar_mul_le_kstar, hr.2.room_lt hq.live⟩

/-! ### Names and literals -/

/-- A literal. -/
theorem yields_literal (hp : p.Live) (field : Option String) :
    Yields (literal field) p (Finds p field plainKinds) := by
  unfold literal
  refine .get ?_
  cases hkind : literalKind? p.kind with
  | none => exact .pure (.nothing hp field plainKinds)
  | some kind =>
    have notEnd : p.kind ≠ .eof := fun h => by rw [h] at hkind; cases hkind
    -- Each kind of literal is a plain kind, and its production is free.
    have hplain : kind.isNode = true ∧ kind ∈ plainKinds ∧ ⊤ ≤ production kind := by
      revert hkind
      cases p.kind <;> intro hkind <;> cases hkind <;> exact ⟨rfl, rfl, le_refl _⟩
    refine .startWith_spells hp rfl notEnd ?_
    intro marker q r hstarted hspells htakes _
    refine (Marker.yields_spelled hstarted hspells hplain.1 (le_top.trans hplain.2.2)
      fun parts hfills => Outline.fits_of_literalKind? hfills.eq_leaf hkind).bind ?_
    intro node s hpost
    obtain ⟨hbuilds, hs, -⟩ := hpost
    refine (Completed.yields_setField hbuilds.makes field).bind ?_
    intro _ t hpost
    obtain ⟨rfl, hmakes, ht⟩ := hpost
    exact .pure ⟨hmakes.mono (Set.singleton_subset_iff.mpr hplain.2.1),
      htakes.trans (hs.trans ht).reaches⟩

/-- `identifier ('.' identifier)*` -/
theorem yields_qualifiedName (hp : p.Live) (field : Option String) :
    Yields (qualifiedName field) p fun result q =>
      Finds p field {.qualifiedName} result q ∧ (result = none → p.kind ≠ .identifier) := by
  unfold qualifiedName
  refine .sees fun sees hsees => .ite (fun h => .pure ⟨.nothing hp field _, fun _ hkind => ?_⟩)
    fun h => ?_
  -- Nothing was found only where there is no identifier.
  · rw [hsees.mpr hkind] at h
    cases h
  have hkind : p.kind = .identifier := hsees.mp (by simpa using h)
  refine .startWith hp hkind (by decide) ?_
  intro marker q r hstarted hadds htakes _
  refine (yields_many ⊤ hadds.live ?_).bind ?_
  -- A dot and a name, if a name follows the dot.
  · intro s hs _
    refine .sees fun sees hsees => .ite (fun _ => .pure (.refl hs)) fun hdot => ?_
    have hkind : s.kind = .dot := hsees.mp (by simpa using hdot)
    refine ((settled_nthIs 1 .identifier).quiet hs).bind ?_
    intro _ t ht
    refine .ite (fun _ => .pure (ht.grows hs)) fun _ => ?_
    have ht' := ht.grows hs
    refine (yields_bump ht'.live (by rw [ht.kind, hkind]; decide) .normal none).bind ?_
    intro _ u hpost
    obtain ⟨hfirst, htakes, -⟩ := hpost
    refine (yields_bump_any hfirst.live .normal).bind ?_
    intro _ v hpost
    obtain ⟨hsecond, -⟩ := hpost
    exact .pure ⟨((Adds.of_grows ht').trans (hfirst.trans hsecond)).anything,
      ht.takes (htakes.trans hsecond.reaches)⟩
  · intro _ s hmore
    refine .completeInto (hstarted.adds (hadds.trans hmore).anything) (by decide) (le_refl _) ?_
    intro node t hmakes ht _
    exact .pure ⟨⟨hmakes, (htakes.trans hmore.reaches).trans ht.reaches⟩, nofun⟩

/-- The segments of a markup name are read as in a tag. -/
theorem yields_markupNameSegments (hp : p.Live) (hcontext : p.context = .tag) :
    Yields markupNameSegments p fun _ q => Adds p q ⊤ ∧ q.context = .tag := by
  unfold markupNameSegments
  refine yields_whileTrue (fun q => Adds p q ⊤ ∧ q.context = .tag) Parser.room ?_
    ⟨(Adds.refl hp).anything, hcontext⟩ (by unfold Parser.room; omega)
  intro q hpost
  obtain ⟨hq, hcontext⟩ := hpost
  refine .sees fun sees hsees => .ite (fun _ => .pure ⟨hq, hcontext⟩) fun h => ?_
  have hkind : q.kind = .dot := hsees.mp (by simpa using h)
  refine (yields_bump hq.live (by rw [hkind]; decide) .tag none).bind ?_
  intro _ r hpost
  obtain ⟨hdot, htakes, hcontext⟩ := hpost
  -- A segment that is missing is an error and ends the name.
  refine .seesAny fun sees _ => .ite (fun hname => ?_) fun _ => ?_
  · rename_i hmem
    have notEnd : r.kind ≠ .eof := by
      intro heof
      have hmem := hmem.mp hname
      rw [heof] at hmem
      exact absurd hmem (by decide)
    refine (yields_bump hdot.live notEnd .tag none).bind ?_
    intro _ s hpost
    obtain ⟨hname, htakes', hcontext'⟩ := hpost
    exact .pure ⟨⟨(hq.more hdot).more hname, hcontext'⟩,
      (htakes.trans htakes'.reaches).room_lt hq.live⟩
  · refine (yields_reportHere hdot.live (by decide)).bind ?_
    intro _ s hpost
    obtain ⟨hreport, -, hs⟩ := hpost
    exact .pure ⟨(hq.more hdot).stays hreport, hs.context.trans hcontext⟩

/-- A markup name where the current token is read as in a tag. -/
theorem yields_qualifiedMarkupName (hp : p.Live) (hcontext : p.context = .tag)
    (field : Option String) :
    Yields (qualifiedMarkupName field) p fun result q =>
      Finds p field {.qualifiedMarkupName} result q ∧ q.context = .tag ∧
        (result = none → p.kind ∉ markupNameTokens) ∧
        ∀ node ∈ result, node.offset = p.position := by
  unfold qualifiedMarkupName
  refine .modify ?_
  rw [Parser.relex_of_context hcontext]
  refine .seesAny fun sees hsees => .ite (fun h => ?_) fun h => ?_
  · refine .pure ⟨.nothing hp field _, hcontext, fun _ hmem => ?_, nofun⟩
    rw [hsees.mpr hmem] at h
    cases h
  -- None of the tokens that start a name is the end of the source.
  have notEnd : p.kind ≠ .eof := by
    intro heof
    have hmem := hsees.mp (by simpa using h)
    rw [heof] at hmem
    exact absurd hmem (by decide)
  refine .startWith hp rfl notEnd ?_
  intro marker q r hstarted hadds htakes hcontext
  refine (yields_markupNameSegments hadds.live hcontext).bind ?_
  intro _ s hpost
  obtain ⟨hmore, hcontext⟩ := hpost
  refine .completeInto (hstarted.adds (hadds.trans hmore).anything) (by decide) (le_refl _) ?_
  -- The node starts where the current token did, which a tag needs to read its text.
  intro node t hmakes ht hoffset
  refine .pure ⟨⟨hmakes, (htakes.trans hmore.reaches).trans ht.reaches⟩,
    ht.context.trans hcontext, nofun, fun other hmem => ?_⟩
  rw [← Option.some.inj hmem, hoffset, hstarted.offset]

end Grammar

end MarkupSyntax
