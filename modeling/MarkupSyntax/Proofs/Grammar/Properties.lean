import MarkupSyntax.Grammar.Properties
import MarkupSyntax.Proofs.Grammar.Operators

/-!
# `MarkupSyntax.Proofs.Grammar.Properties`: the properties of a tag

The specifications of the rules for interpolations, right-hand sides and
properties. A property is recognised by looking ahead for its `=`, and
that comes to an end: far enough ahead there is only the end of the
source (`settled_propertyName`).
-/

set_option autoImplicit false

namespace MarkupSyntax.Grammar

open Parse
open scoped Computability

variable {p q r : Parser} {descend : Descent} {bound : Nat}

/-! ### Values of properties and definitions -/

/-- A value in braces, which are of the kind that the node asks for. -/
theorem yields_interpolationAs (hw : Works descend bound) (hp : p.Live)
    (hbound : 4 * p.room ≤ bound) {kind : SyntaxKind} {brace : TokenKind}
    (hkind : p.kind = brace) (notEnd : brace ≠ .eof) (plain : kind.isLooseNode = true)
    (hword : mark brace * into "value" * mark .rBrace ≤ production kind) (after : LexContext) :
    Yields (interpolationAs descend kind after) p fun node q =>
      Makes p q node none {kind} ∧ Takes p q := by
  unfold interpolationAs
  refine .startWith hp hkind notEnd ?_
  intro marker q r hstarted hopen htakes _
  have hdeep : Deep bound r := .of_takes hp hbound htakes
  refine (yields_expectValue hw hopen.live hdeep.value (some "value")).bind ?_
  intro _ s hvalue
  refine (yields_expect hvalue.live (by decide) after none).bind ?_
  intro _ t hpost
  obtain ⟨hclose, -, -⟩ := hpost
  have hbraces := (hopen.trans hvalue.adds).trans hclose
  have htakes := htakes.trans (hvalue.adds.trans hclose).reaches
  exact Marker.yields_finish hstarted hbraces htakes plain hword (Set.mem_singleton _)

/-- A value in braces, into a field. -/
theorem yields_interpolation (hw : Works descend bound) (hp : p.Live)
    (hbound : 4 * p.room ≤ bound) (hkind : p.kind = .lBrace) (field : Option String) :
    Yields (interpolation descend field) p fun node q =>
      Makes p q node field Set.univ ∧ Takes p q := by
  unfold interpolation
  refine (yields_interpolationAs hw hp hbound hkind (by decide) (by decide) (le_refl _)
    .normal).bind ?_
  intro node q hpost
  obtain ⟨hmakes, htakes⟩ := hpost
  refine (Completed.yields_setField hmakes field).mono ?_
  intro _ r hpost
  obtain ⟨rfl, hmakes, hr⟩ := hpost
  exact ⟨hmakes.mono (Set.subset_univ _), htakes.trans hr.reaches⟩

/-- The value of a property or definition, or an error in its place. -/
theorem yields_rightSide (hw : Works descend bound) (hp : p.Live) (hdeep : Deep bound p)
    (field : String) :
    Yields (rightSide descend (some field)) p fun _ q => Adds p q (into field) := by
  have hrelex := p.grows_relex hp .normal
  have hlive := hrelex.live
  have hdeep' : Deep bound (p.relex .normal) := hdeep.later hrelex.room_le
  unfold rightSide
  refine .modify (.get ?_)
  split
  · rename_i hkind
    refine (hw.element (some field) _ hlive hkind hdeep'.element).mono ?_
    intro _ q hpost
    obtain ⟨node, rfl, hmakes, -⟩ := hpost
    exact (hmakes.after hrelex).fills
  · rename_i hkind
    refine (yields_interpolation hw hlive hdeep'.le hkind (some field)).bind ?_
    exact fun node q hq => .pure (hq.1.after hrelex).adds
  · refine (yields_literal hlive (some field)).bind ?_
    intro node q hq
    cases node with
    | none =>
      refine (yields_missing hq.1.live (some field) (by decide) Set.univ).bind ?_
      rintro node r ⟨hmakes, -, -⟩
      exact .pure (hmakes.after (hrelex.trans hq.1)).adds
    | some node =>
      exact .pure (hq.1.after hrelex).fills

/-! ### Recognising a property -/

/-- What the token `n` places ahead says is settled, and where it says to
go on there are that many characters. -/
theorem settled_propertyNameRound {p : Parser} (hp : p.Live) (n : Nat) :
    ∃ round, (∀ q, Still p q → Yields (propertyNameRound n) q fun round' r =>
      round' = round ∧ Quiet q r) ∧
      ∀ m, round = .again m → m = n + 1 ∧ n ≤ p.text.length + 1 := by
  obtain ⟨seam, hseam⟩ := hp
  obtain ⟨apart, hapart⟩ := settled_nthAfterTrivia n p ⟨seam, hseam⟩
  have hkind : ∀ q, Still p q → Yields (nthKind n) q fun kind r =>
      kind = seam.kindAhead p.context n ∧ Quiet q r := fun q hq => by
    rw [← hq.context]
    exact yields_nthKind (hq.at_ hseam) n
  unfold propertyNameRound
  -- The round is decided by the kind `n` places ahead and by whether trivia stands in front of
  -- it. Both belong to the seam, not to what has been read ahead so far.
  by_cases hequal : seam.kindAhead p.context n = .equal
  · refine ⟨.done true, fun q hq => ?_, nofun⟩
    refine (hkind q hq).bind ?_
    intro _ r hpost
    obtain ⟨rfl, hr⟩ := hpost
    rw [if_pos hequal]
    exact .pure ⟨rfl, hr⟩
  by_cases hname : nameContinuation.contains (seam.kindAhead p.context n) = true
  · refine ⟨if apart then .done false else .again (n + 1), fun q hq => ?_, ?_⟩
    · refine (hkind q hq).bind ?_
      intro _ r hpost
      obtain ⟨rfl, hr⟩ := hpost
      rw [if_neg hequal, if_neg (by rw [hname]; decide)]
      refine (hapart r (hq.trans hr.toStill)).bind ?_
      intro answer s hpost
      obtain ⟨hanswer, hs⟩ := hpost
      subst answer
      exact .ite (fun h => .pure ⟨by rw [if_pos h], hr.trans hs⟩) fun h =>
        .pure ⟨by rw [if_neg h], hr.trans hs⟩
    · have hne : seam.kindAhead p.context n ≠ .eof := by
        intro heof
        rw [heof] at hname
        exact absurd hname (by decide)
      -- The loop ends: so far ahead there is only the end of the source.
      have hn := Seam.le_of_kindAhead_ne_eof hseam.inside hne
      rw [← hseam.text] at hn
      intro m hm
      cases apart with
      | true => cases hm
      | false => exact ⟨(Round.again.inj hm).symm, hn⟩
  · refine ⟨.done false, fun q hq => ?_, nofun⟩
    refine (hkind q hq).bind ?_
    intro _ r hpost
    obtain ⟨rfl, hr⟩ := hpost
    rw [if_neg hequal, if_pos (by simpa using hname)]
    exact .pure ⟨rfl, hr⟩

/-- Looking for the `=` after a name is settled. The induction is on the
rounds that are left: each looks one place further, and no round goes on
where the source has no more tokens. -/
theorem settled_propertyName {p : Parser} (hp : p.Live) :
    ∀ fuel n : Nat, n ≤ p.text.length + 2 → p.text.length + 3 ≤ fuel + n →
      ∃ answer, ∀ q, Still p q →
        Yields (rounds propertyNameRound fuel n) q fun answer' r => answer' = answer ∧ Quiet q r
  | 0, n, hle, henough => absurd henough (by omega)
  | fuel + 1, n, hle, henough => by
    obtain ⟨round, hround, hagain⟩ := settled_propertyNameRound hp n
    cases round with
    | done answer =>
      refine ⟨answer, fun q hq => ?_⟩
      unfold rounds
      refine (hround q hq).bind ?_
      intro _ r hpost
      obtain ⟨rfl, hr⟩ := hpost
      exact .pure ⟨rfl, hr⟩
    | again m =>
      obtain ⟨rfl, hn⟩ := hagain m rfl
      obtain ⟨answer, hanswer⟩ := settled_propertyName hp fuel (n + 1) (by omega) (by omega)
      refine ⟨answer, fun q hq => ?_⟩
      unfold rounds
      refine (hround q hq).bind ?_
      intro _ r hpost
      obtain ⟨rfl, hr⟩ := hpost
      refine (hanswer r (hq.trans hr.toStill)).mono ?_
      intro _ s hpost
      obtain ⟨rfl, hs⟩ := hpost
      exact ⟨rfl, hr.trans hs⟩

/-- The loop over the parts of a name, up to the `=`, is settled as long as the
current token stays. -/
theorem settled_propertyLoop : Settled (loop propertyNameRound 1) := by
  intro p hp
  obtain ⟨answer, hanswer⟩ :=
    settled_propertyName hp (p.text.length + 3) 1 (by omega) (by omega)
  refine ⟨answer, fun q hq => ?_⟩
  unfold loop
  refine .get ?_
  rw [hq.reaches.text hp]
  exact hanswer q hq

/-- So is the question whether a property follows. -/
theorem settled_seesProperty : Settled seesProperty :=
  (settled_seesAny markupNameTokens).bind fun _ => .ite settled_propertyLoop (.pure false)

/-- So is the question whether an item of a property list follows. -/
theorem settled_seesPropertyItem : Settled seesPropertyItem :=
  settled_seesProperty.bind fun _ => .ite (.pure true) (settled_seesAny _)

/-- A property starts with a name. -/
theorem yields_seesProperty (hp : p.Live) :
    Yields seesProperty p fun answer q =>
      (answer = true → p.kind ∈ markupNameTokens) ∧ Quiet p q := by
  unfold seesProperty
  refine .seesAny fun sees hsees => .ite (fun h => ?_) fun _ => .pure ⟨nofun, .refl p⟩
  exact (settled_propertyLoop.quiet hp).mono fun _ q hq => ⟨fun _ => hsees.mp h, hq⟩

/-! ### Properties -/

/-- `name=value`, where the name is read as in a tag. -/
theorem yields_property (hw : Works descend bound) (hp : p.Live) (hbound : 4 * p.room ≤ bound)
    (hcontext : p.context = .tag) (hkind : p.kind ∈ markupNameTokens) :
    Yields (property descend) p fun node q => Makes p q node none {.propertyValue} ∧ Takes p q := by
  unfold property
  refine (yields_start hp).bind ?_
  intro marker q hstarted
  refine (yields_qualifiedMarkupName hstarted.live (hstarted.context.trans hcontext)
    (some "name")).bind ?_
  rintro (_ | name) r ⟨hfinds, -, hnone, -⟩
  · exact absurd (hstarted.kind ▸ hkind) (hnone rfl)
  obtain ⟨hname, htakes⟩ := hfinds
  have htakes := hstarted.takes htakes
  have hdeep : Deep bound r := .of_takes hp hbound htakes
  refine (yields_expect hname.live (by decide) .normal none).bind ?_
  intro _ s hpost
  obtain ⟨hequal, -, -⟩ := hpost
  refine (yields_rightSide hw hequal.live (hdeep.later hequal.room_le) "value").bind ?_
  intro _ t hvalue
  have hall := (hname.adds.trans hequal).trans hvalue
  have htakes := htakes.trans (hequal.trans hvalue).reaches
  exact Marker.yields_finish hstarted hall htakes (by decide) (le_refl _)
    (Set.mem_singleton _)

/-- An item of a property list. -/
theorem yields_propertyItem (hw : Works descend bound) (hp : p.Live)
    (hbound : 4 * p.room ≤ bound) (hcontext : p.context = .tag) :
    Yields (propertyItem descend) p fun result q =>
      Adds p q ⊤ ∧ (if result.isSome then Takes p q else Still p q) := by
  unfold propertyItem
  refine (yields_seesProperty hp).bind ?_
  intro answer q hpost
  obtain ⟨hanswer, hq⟩ := hpost
  have hgrows := hq.grows hp
  have hlive := hgrows.live
  have hbound' : 4 * q.room ≤ bound := by rw [hq.room hp]; exact hbound
  have hfound : ∀ (node : Completed) (r : Parser) (kinds : Set SyntaxKind),
      Makes q r node none kinds → Takes q r → Adds p r ⊤ ∧ Takes p r :=
    fun node r kinds hmakes htakes =>
      ⟨(Adds.of_grows hgrows).anything.more hmakes.adds, hq.takes htakes⟩
  refine .ite (fun h => ?_) fun _ => .get ?_
  · refine (yields_property hw hlive hbound' (hq.context.trans hcontext)
      (hq.kind ▸ hanswer h)).bind ?_
    exact fun node r hr => .pure (hfound node r _ hr.1 hr.2)
  split
  · rename_i hkind
    refine (yields_ifExpression hw hlive hbound' hkind .properties).bind ?_
    exact fun node r hr => .pure (hfound node r _ (makes_of_controls hr.1) hr.2)
  · rename_i hkind
    refine (yields_forExpression hw hlive hbound' hkind .properties).bind ?_
    exact fun node r hr => .pure (hfound node r _ (makes_of_controls hr.1) hr.2)
  · exact .pure ⟨(Adds.of_grows hgrows).anything, hq.toStill⟩

/-- A list takes its items where the source has no more left than at its
start. -/
theorem fits_propertyList (hw : Works descend bound) (hbound : 4 * p.room ≤ bound) (inArm : Bool) :
    ItemList.Fits
      { nodeKind := .propertyList
        context := .tag
        ends := seesAny [.greaterThan, .slash, .eof, .rBrace]
        item := propertyItem descend
        recovery := propertyRecovery
        yields := if inArm then seesAny armStartTokens else pure false } p where
  ends := settled_seesAny _
  yields := .ite (settled_seesAny _) (.pure false)
  resumes := settled_seesPropertyItem
  plain := rfl
  skipPlain := rfl
  free := le_refl _
  item q hq hcontext hle := yields_propertyItem hw hq (by omega) hcontext

/-- One or more properties, or nothing. -/
theorem yields_propertyList (hw : Works descend bound) (hp : p.Live)
    (hbound : 4 * p.room ≤ bound) (field : Option String) (inArm : Bool) :
    Yields (propertyList descend field inArm) p fun result q =>
      match result with
      | some node => Makes p q node field {.propertyList}
      | none => Grows p q [] := by
  have hrelex := p.grows_relex hp .tag
  unfold propertyList
  refine .modify ((settled_seesPropertyItem.quiet hrelex.live).bind ?_)
  intro answer q hq
  have hq' := hrelex.trans (hq.grows hrelex.live)
  refine .ite (fun _ => .pure hq') fun _ => ?_
  have hle := hq'.room_le
  refine (ItemList.yields_parse (fits_propertyList hw (by omega) inArm) hq'.live).bind ?_
  intro node r hmakes
  refine (Completed.yields_setField (hmakes.after hq') field).bind ?_
  intro _ s hpost
  obtain ⟨rfl, hmakes, -⟩ := hpost
  exact .pure hmakes

end MarkupSyntax.Grammar
