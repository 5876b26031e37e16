import MarkupSyntax.Grammar.Control
import MarkupSyntax.Proofs.Grammar.Basic

/-!
# `MarkupSyntax.Proofs.Grammar.Control`: control constructs

The specifications of the rules for `if` and `for`, for any parsers of
the recursive constructs that work. A rule that only descends once it
has consumed a token needs the bound to cover the source from its own
token on; one that descends later, after a token, needs less (`Deep`).

Telling the two forms of `if` apart reads on in speculation and goes
back. It goes back to a brace that was consumed in the context in which
it was read, so nothing of the parse changes (`yields_speculateIfForm`).
-/

set_option autoImplicit false

namespace MarkupSyntax.Grammar

open Parse
open scoped Computability

variable {p q r : Parser} {descend : Descent} {bound : Nat} {marker : Marker}

/-- Every recursive construct works from here on. -/
def Deep (bound : Nat) (p : Parser) : Prop := 4 * p.room + 3 < bound

/-- A parse that has taken a token may descend into any construct, if the bound
covers the source from that token on. -/
theorem Deep.of_takes (hp : p.Live) (hbound : 4 * p.room ≤ bound) (h : Takes p q) :
    Deep bound q := by
  have := h.room_lt hp
  unfold Deep
  omega

/-- A parse with no more of the source left may descend as far. -/
theorem Deep.later (h : Deep bound p) (hroom : q.room ≤ p.room) : Deep bound q := by
  unfold Deep at h ⊢
  omega

/-- There is enough depth for a value expression, which has the highest rank. -/
theorem Deep.value (h : Deep bound p) : 4 * p.room + 2 < bound := by
  unfold Deep at h
  omega

/-- There is enough depth for an expression with operators. -/
theorem Deep.operators (h : Deep bound p) : 4 * p.room + 1 < bound := by
  unfold Deep at h
  omega

/-- There is enough depth for an element. -/
theorem Deep.element (h : Deep bound p) : 4 * p.room < bound := by
  unfold Deep at h
  omega

/-- The bound covers the source from the current token on. -/
theorem Deep.le (h : Deep bound p) : 4 * p.room ≤ bound := by
  unfold Deep at h
  omega

/-- The nodes of control constructs may hold tokens and errors anywhere. -/
theorem control_plain (domain : Domain) (form : ControlForm) :
    (SyntaxKind.control domain form).isLooseNode = true := rfl

/-- The outlines of control constructs, those of arms left out. -/
def controls : Set Outline :=
  {outline | ∃ domain form, outline.kind = .control domain form ∧ form.isArm = false}

/-- A control construct has no operator. -/
theorem makes_of_controls {node : Completed} (h : Forms p q node controls) :
    Makes p q node none plainKinds := by
  refine h.makes fun outline hmem => ?_
  obtain ⟨domain, form, hkind, -⟩ := hmem
  rw [hkind]
  exact (Bool.and_eq_true_iff.mp (control_plain domain form)).2

/-- A value, or an error in its place. -/
theorem yields_expectValue (hw : Works descend bound) (hp : p.Live)
    (hroom : 4 * p.room + 2 < bound) (field : Option String) :
    Yields (expectValue descend field) p fun node q => Makes p q node field Set.univ := by
  unfold expectValue
  refine (hw.value field p hp hroom).bind ?_
  intro node q hq
  cases node with
  | none =>
    -- An error node stands in for the value.
    refine (yields_missing hq.1.live field (by decide) Set.univ).mono ?_
    rintro node r ⟨hmakes, -, -⟩
    exact hmakes.after hq.1
  | some node =>
    exact .pure hq.1

/-! ### Bodies -/

/-- A body, into a field. -/
theorem yields_body (hw : Works descend bound) (hp : p.Live) (hdeep : Deep bound p)
    (domain : Domain) (field : String) :
    Yields (body descend domain field) p fun _ q => Adds p q (bodyPart domain field) := by
  have hrelex := p.grows_relex hp (bodyContext domain)
  -- Only properties may be absent, so a body that is there always fits.
  have hinto : into field ≤ bodyPart domain field := by
    cases domain
    · exact le_refl _
    · exact le_refl _
    · exact optional_word _
  unfold body
  refine .modify ?_
  refine (hw.body domain field _ hrelex.live (hdeep.later hrelex.room_le)).bind ?_
  intro node q hq
  cases node with
  | none =>
    -- No body. That is an error unless the body holds properties.
    have hstays := hrelex.trans hq
    refine .ite (fun _ => ?_) fun h => ?_
    · refine (yields_missing hq.live (some field) (by decide) Set.univ).bind ?_
      rintro node r ⟨hmakes, -, -⟩
      exact .pure ((hmakes.after hstays).adds.mono hinto)
    · have hdomain : domain = .properties := by simpa using h
      rw [hdomain]
      exact .pure ((Adds.of_grows hstays).mono (optional_one _))
  | some node =>
    refine .ite (fun h => ?_) fun _ => .pure ((hq.after hrelex).adds.mono hinto)
    cases h

/-- The brace after a body. -/
theorem yields_closingBrace (hp : p.Live) :
    Yields closingBrace p fun _ q => Adds p q (mark .rBrace) := by
  have hrelex := p.grows_relex hp .normal
  unfold closingBrace
  refine .modify ((yields_expect hrelex.live (by decide) .normal none).bind ?_)
  intro _ q hpost
  obtain ⟨hadds, -, -⟩ := hpost
  -- Reading the token anew adds nothing to the word.
  have hadds := (Adds.of_grows hrelex).trans hadds
  rw [one_mul] at hadds
  exact .pure hadds

/-- A body in braces. -/
theorem yields_bracedBody (hw : Works descend bound) (hp : p.Live) (hdeep : Deep bound p)
    (domain : Domain) (field : String) :
    Yields (bracedBody descend domain field) p fun _ q => Adds p q (bracedPart domain field) := by
  unfold bracedBody
  refine (yields_expect hp (by decide) (bodyContext domain) none).bind ?_
  rintro (_ | _) q ⟨hopen, -, hfail⟩
  -- Without the opening brace the body is left out, and that was reported.
  · exact .pure (hopen.of_failed (hfail rfl))
  · refine (yields_body hw hopen.live (hdeep.later hopen.room_le) domain field).bind ?_
    intro _ r hbody
    refine (yields_closingBrace hbody.live).mono ?_
    intro _ s hclose
    exact (hopen.trans hbody).trans hclose

/-! ### Arms -/

/-- A pattern. -/
theorem yields_pattern (hp : p.Live) :
    Yields pattern p (Finds p (some "pattern") {.pattern}) := by
  -- Whatever was found inside, the pattern ends in one of two ways.
  have hend : ∀ (q r : Parser) (marker : Marker) (found : Option Completed),
      Started p marker q → Finds q none Set.univ found r →
      Yields (if found.isNone then do
          marker.abandon
          return none
        else do
          let node ← marker.complete .pattern
          return some (← node.setField "pattern")) r (Finds p (some "pattern") {.pattern}) := by
    intro q r marker node hstarted hr
    cases node with
    | none =>
      -- Nothing was found, so the node is given up.
      refine (Marker.yields_abandon hstarted hr.1).bind ?_
      rintro _ s ⟨hgrows, hs⟩
      exact .pure ⟨hgrows, (hstarted.trans hr.2).trans hs⟩
    | some node =>
      refine .completeInto (hstarted.adds hr.1.adds.anything) (by decide) (le_refl _) ?_
      intro node s hmakes hs _
      exact .pure ⟨hmakes, hstarted.takes (hr.2.trans hs.reaches)⟩
  unfold pattern
  refine (yields_start hp).bind ?_
  intro marker q hstarted
  refine (yields_literal hstarted.live none).bind ?_
  dsimp only
  intro node r hr
  cases node with
  | none =>
    -- It is no literal, so perhaps a name.
    refine (yields_qualifiedName hr.1.live none).bind ?_
    rintro (_ | node) s ⟨hs, -⟩
    · exact hend q s marker none hstarted ⟨hr.1.trans hs.1, hr.2.trans hs.2⟩
    · exact hend q s marker (some node) hstarted
        ⟨(hs.1.after hr.1).mono (Set.subset_univ _), hr.2.takes hs.2⟩
  | some node =>
    exact hend q r marker (some node) hstarted ⟨hr.1.mono (Set.subset_univ _), hr.2⟩

/-- An arm separator is a colon or an arrow. -/
theorem yields_seesArmSeparator {α : Type} {f : Bool → Parse α} {post : α → Parser → Prop}
    (h : ∀ answer, (answer = true → p.kind = .colon ∨ p.kind = .fatArrow) →
      Yields (f answer) p post) : Yields (seesArmSeparator >>= f) p post := by
  refine h _ fun hanswer => ?_
  simp only [Bool.or_eq_true, Bool.and_eq_true, decide_eq_true_eq] at hanswer
  rcases hanswer with hcolon | harrow
  · exact .inl hcolon.2
  · exact .inr harrow.2

/-- The separator of an arm and the arm's body. -/
theorem yields_armTail (hw : Works descend bound) (hp : p.Live) (hdeep : Deep bound p)
    (domain : Domain) (field : String) :
    Yields (armTail descend domain field) p fun _ q => Adds p q (tailPart domain field) := by
  unfold armTail
  dsimp only
  refine yields_seesArmSeparator fun answer hanswer => .ite (fun h => ?_) fun _ => ?_
  -- The separator is there.
  · have hkind := hanswer h
    have notEnd : p.kind ≠ .eof := by rcases hkind with hkind | hkind <;> rw [hkind] <;> decide
    refine (yields_bump hp notEnd (bodyContext domain) none).bind ?_
    intro _ q hpost
    obtain ⟨hseparator, -, -⟩ := hpost
    have hseparator : Adds p q (mark .colon + mark .fatArrow) := by
      rcases hkind with hkind | hkind <;> rw [hkind] at hseparator
      · exact hseparator.mono le_self_add
      · exact hseparator.mono le_add_self
    refine (yields_body hw hseparator.live (hdeep.later hseparator.room_le) domain field).mono ?_
    intro _ r hbody
    exact hseparator.trans hbody
  -- It is missing, which is an error; the body follows all the same.
  · refine (yields_reportExpected hp .fatArrow).bind ?_
    intro _ q hpost
    obtain ⟨hreport, hfail, -⟩ := hpost
    refine (yields_body hw hreport.live (hdeep.later hreport.room_le) domain field).mono ?_
    intro _ r hbody
    exact ((Adds.of_grows hreport).trans hbody).of_failed fun hr =>
      hfail (hbody.moves.errorCount_start hr)

/-- An arm of a match. -/
theorem yields_matchArm (hw : Works descend bound) (hp : p.Live) (hbound : 4 * p.room ≤ bound)
    (domain : Domain) :
    Yields (matchArm descend domain) p (Finds p none {.control domain .matchArm}) := by
  unfold matchArm
  refine (yields_start hp).bind ?_
  intro marker q hstarted
  refine (yields_pattern hstarted.live).bind ?_
  intro node r hr
  cases node with
  | none =>
    -- No pattern, no arm.
    refine (Marker.yields_abandon hstarted hr.1).bind ?_
    rintro _ s ⟨hgrows, hs⟩
    exact .pure ⟨hgrows, (hstarted.trans hr.2).trans hs⟩
  | some node =>
    obtain ⟨hfirst, htakes⟩ := hr
    -- The pattern consumed a token, so what follows may descend to any depth.
    have htakes := hstarted.takes htakes
    have hdeep := Deep.of_takes hp hbound htakes
    refine (yields_many (mark .comma * Grammar.node (some "pattern") .pattern) hfirst.live ?_).bind ?_
    -- Each further pattern follows a comma.
    · intro s hs _
      refine .sees fun sees hsees => .ite (fun _ => .pure (.refl hs)) fun h => ?_
      have hkind : s.kind = .comma := hsees.mp (by simpa using h)
      refine (yields_bump hs (by rw [hkind]; decide) .normal none).bind ?_
      rintro _ t ⟨hcomma, htakes, -⟩
      rw [hkind] at hcomma
      refine (yields_pattern hcomma.live).bind ?_
      rintro (_ | other) u hu
      -- After a comma a pattern is due.
      · refine (yields_missing hu.1.live (some "pattern") (by decide) {.pattern}).bind ?_
        rintro other v ⟨hmakes, -, -⟩
        exact .pure ⟨hcomma.trans (hmakes.after hu.1).adds,
          htakes.trans (hmakes.after hu.1).moves.reaches⟩
      · exact .pure ⟨hcomma.trans hu.1.adds, htakes.trans hu.1.moves.reaches⟩
    · intro _ s hmore
      have hword := hfirst.adds.trans hmore
      refine (yields_armTail hw hmore.live (hdeep.later hmore.room_le) domain "body").bind ?_
      intro _ t htail
      have htakes := (htakes.trans hmore.reaches).trans htail.reaches
      refine (Marker.yields_finish hstarted (hword.trans htail) htakes (control_plain _ _)
        (le_refl _) (Set.mem_singleton _)).bind ?_
      exact fun node u hu => .pure hu

/-- An arm of a list of conditions. -/
theorem yields_conditionArm (hw : Works descend bound) (hp : p.Live)
    (hroom : 4 * p.room + 2 < bound) (domain : Domain) :
    Yields (conditionArm descend domain) p (Finds p none {.control domain .conditionArm}) := by
  unfold conditionArm
  refine (yields_start hp).bind ?_
  intro marker q hstarted
  have hroom' : 4 * q.room + 2 < bound := by rw [hstarted.room hp]; exact hroom
  refine (hw.value (some "condition") q hstarted.live hroom').bind ?_
  intro node r hr
  cases node with
  | none =>
    -- No condition, no arm.
    refine (Marker.yields_abandon hstarted hr.1).bind ?_
    rintro _ s ⟨hgrows, hs⟩
    exact .pure ⟨hgrows, (hstarted.trans hr.2).trans hs⟩
  | some node =>
    obtain ⟨hcondition, htakes⟩ := hr
    have htakes := hstarted.takes htakes
    -- The condition consumed a token.
    have hdeep : Deep bound r := .of_takes hp (by omega) htakes
    refine (yields_armTail hw hcondition.live hdeep domain "body").bind ?_
    intro _ s htail
    refine (Marker.yields_finish hstarted (hcondition.adds.trans htail)
      (htakes.trans htail.reaches) (control_plain _ _) (le_refl _) (Set.mem_singleton _)).bind ?_
    exact fun node t ht => .pure ht

/-- Whether an arm starts is answered without a look at the state. -/
theorem settled_armRecovery : Settled armRecovery.resumes := .pure false

/-- One round of a loop over arms. Without errors each round but the
last adds an arm, and the last one adds nothing or an `else` arm. -/
theorem yields_armsRound (hw : Works descend bound) (hdeep : Deep bound p) {domain : Domain}
    {form : ControlForm} {arm : Parse (Option Completed)} {state : ArmsState} (hp : p.Live)
    (harm : ∀ q, q.Live → q.room ≤ p.room →
      Yields arm q (Finds q none {.control domain form}))
    (hbehind : Behind state.progress p) :
    Yields (armsRound descend domain arm state) p fun round q =>
      match round with
      | .again next => Behind next.progress q ∧ q.room < p.room ∧
          Adds p q (node none (.control domain form)) ∧
          (next.hasArm = true ∨ q.errorCount ≠ 0)
      | .done hasArm => Adds p q (mark .elseKeyword * tailPart domain "else") ∧ hasArm = true ∨
          (Adds p q 1 ∨ q.errorCount ≠ 0 ∧ Adds p q ⊤) ∧ hasArm = state.hasArm := by
  have hrelex := p.grows_relex hp .normal
  have hq := hrelex.live
  unfold armsRound
  refine .modify (.seesAny fun ended _ => .ite (fun _ => ?_) fun hended => ?_)
  -- The arms end at a brace or at the end of the source.
  · exact .pure (.inr ⟨.inl (.of_grows hrelex), rfl⟩)
  refine .mustProgress hq (hbehind.reaches hrelex.reaches hp) fun next hnext => ?_
  refine .sees fun sees hsees => .ite (fun h => ?_) fun _ => ?_
  -- An `else` arm is the last one.
  · have hkind := hsees.mp h
    refine (yields_bump hq (by rw [hkind]; decide) .normal none).bind ?_
    intro _ r hpost
    obtain ⟨helse, -, -⟩ := hpost
    rw [hkind] at helse
    have helse := (Adds.of_grows hrelex).trans helse
    rw [one_mul] at helse
    refine (yields_armTail hw helse.live (hdeep.later helse.room_le) domain "else").bind ?_
    intro _ s htail
    exact .pure (.inl ⟨helse.trans htail, rfl⟩)
  -- Any other arm starts with a pattern or a condition.
  refine (harm _ hq hrelex.room_le).bind ?_
  intro node r hr
  cases node with
  | none =>
    -- What is no arm is skipped and reported.
    refine (armRecovery.yields_skipUnexpected settled_armRecovery (by decide) hr.1.live
      (node none (.control domain form))).bind ?_
    rintro skipped s ⟨hskip, hfail, hway⟩
    have hs := (Adds.of_grows (hrelex.trans hr.1)).trans hskip
    refine .ite (fun h => ?_) fun _ => .pure (.inr ⟨.inr ⟨hfail, hs.anything⟩, rfl⟩)
    rw [if_pos h] at hway
    have htakes := hr.2.takes hway
    exact .pure ⟨behind_of_takes hnext htakes hq,
      Nat.lt_of_lt_of_le (htakes.room_lt hq) hrelex.room_le, hs.of_failed hfail, .inr hfail⟩
  | some node =>
    exact .pure ⟨behind_of_takes hnext hr.2 hq,
      Nat.lt_of_lt_of_le (hr.2.room_lt hq) hrelex.room_le, (hr.1.after hrelex).adds, .inl rfl⟩

/-- The arms of a match or of a list of conditions: without errors there
is at least one. -/
theorem yields_arms (hw : Works descend bound) (hp : p.Live) (hdeep : Deep bound p)
    {domain : Domain} {form : ControlForm} {arm : Parse (Option Completed)}
    (harm : ∀ q, q.Live → q.room ≤ p.room →
      Yields arm q (Finds q none {.control domain form})) :
    Yields (arms descend domain arm) p fun _ q => Adds p q (armParts domain form) := by
  have hstar : ∀ {q r : Parser}, Adds p q ((node none (.control domain form))∗) →
      Adds q r (node none (.control domain form)) →
      Adds p r ((node none (.control domain form))∗ * node none (.control domain form)) :=
    fun h h' => h.trans h'
  have hloop : Yields (loop (armsRound descend domain arm) {}) p fun hasArm q =>
      Adds p q (armParts domain form) ∨ hasArm = false ∧ Adds p q ⊤ := by
    refine yields_loop (fun state q => Behind state.progress q ∧
      Adds p q ((node none (.control domain form))∗) ∧ (state.hasArm = true →
        Adds p q ((node none (.control domain form))∗ * node none (.control domain form))))
      (fun _ q => q.room) ?_ ⟨behind_first p, (Adds.refl hp).mono one_le_kstar, nofun⟩
      (by unfold Parser.room; omega)
    -- The arms so far are a word of the star, and of the whole word once there is one.
    intro state q hpost
    obtain ⟨hbehind, hword, harms⟩ := hpost
    have harm' : ∀ r, r.Live → r.room ≤ q.room →
        Yields arm r (Finds r none {.control domain form}) := fun r hr hroom =>
      harm r hr (Nat.le_trans hroom hword.room_le)
    refine (yields_armsRound hw (hdeep.later hword.room_le) hword.live harm' hbehind).mono ?_
    rintro (next | hasArm) r hr
    · obtain ⟨hbehind, hroom, harm, hhas⟩ := hr
      refine ⟨⟨hbehind, (hstar hword harm).mono kstar_mul_le_kstar, fun _ => hstar hword harm⟩,
        hroom⟩
    · rcases hr with ⟨helse, rfl⟩ | ⟨hnothing, rfl⟩
      · exact .inl ((hword.trans helse).mono (mul_le_mul_right le_add_self _))
      · cases hhas : state.hasArm with
        -- There was no arm; that is reported after the loop.
        | false =>
          refine .inr ⟨rfl, ?_⟩
          rcases hnothing with hnothing | ⟨-, hnothing⟩
          · exact hword.anything.more hnothing
          · exact hword.anything.more hnothing
        | true =>
          left
          rcases hnothing with hnothing | ⟨hfail, hnothing⟩
          · have hall := (harms hhas).trans hnothing
            rw [mul_one] at hall
            exact hall.mono (mul_le_mul_right le_self_add _)
          · exact (hword.trans hnothing).of_failed hfail
  unfold arms
  refine hloop.bind ?_
  rintro (_ | _) q hq
  -- A construct without arms is an error.
  · have hlive : Adds p q ⊤ := by
      rcases hq with hq | ⟨-, hq⟩
      · exact hq.anything
      · exact hq
    refine (yields_reportWith hlive.live (by decide) _).mono ?_
    intro _ r hpost
    obtain ⟨hreport, hfail, -⟩ := hpost
    exact (hlive.stays hreport).of_failed hfail
  · rcases hq with hq | ⟨hfalse, -⟩
    · exact .pure hq
    · cases hfalse

/-! ### The forms of `if` -/

/-- What the rest of a control construct comes to. -/
def Ends (p q : Parser) (node : Completed) (r : Parser) : Prop :=
  Forms p r node controls ∧ Reaches q r

/-- Completing a control construct. -/
theorem yields_completeControl {word : Language Role} {domain : Domain} {form : ControlForm}
    (h : Opened p marker q word) (hform : form.isArm = false)
    (hword : word ≤ production (.control domain form)) :
    Yields (marker.complete (.control domain form)) q (Ends p q) := by
  obtain ⟨first, rest, h⟩ := h
  have hkind : (Sprout.close first (.control domain form) rest).outline.kind
      = .control domain form := by
    rw [Sprout.kind_outline]
    cases first <;> rfl
  have hplain := (Bool.and_eq_true_iff.mp (control_plain domain form)).2
  refine (Marker.yields_form h rfl hword (Outline.fits_of_isLoose (by rw [hkind, hplain]))).mono ?_
  intro node r hpost
  obtain ⟨hforms, hr, -⟩ := hpost
  exact ⟨hforms.mono (Set.singleton_subset_iff.mpr ⟨domain, form, hkind, hform⟩), hr.reaches⟩

/-- A simple `if` makes a node of the parts that its production allows. The
hypothesis `Opened` says that the keyword and the condition are there. -/
theorem yields_simpleRest (hw : Works descend bound) (hdeep : Deep bound q) {domain : Domain}
    (h : Opened p marker q (mark .ifKeyword * into "condition")) :
    Yields (simpleRest descend domain marker) q (Ends p q) := by
  unfold simpleRest
  refine (yields_bracedBody hw h.live hdeep domain "then").bind ?_
  intro _ r hthen
  refine (yields_eat hthen.live (by decide) .normal none).bind ?_
  dsimp only
  rintro (_ | _) s hs
  -- Without `else` the construct ends with its first body.
  · rw [hs]
    refine (yields_completeControl (h.adds hthen) rfl (le_trans ?_ (mul_le_mul_right
      (optional_one _) _))).mono ?_
    · rw [mul_one]
    · exact fun node t ht => ⟨ht.1, hthen.reaches.trans ht.2⟩
  -- With `else` comes a second body.
  · obtain ⟨helse, -, -⟩ := hs
    have hdeep' := hdeep.later (Nat.le_trans helse.room_le hthen.room_le)
    refine (yields_bracedBody hw helse.live hdeep' domain "else").bind ?_
    intro _ t hbody
    have hadds := hthen.trans ((helse.trans hbody).mono (optional_word _))
    have hopened := h.adds hadds
    rw [← mul_assoc] at hopened
    refine (yields_completeControl hopened rfl (le_refl _)).mono ?_
    exact fun node u hu => ⟨hu.1, hadds.reaches.trans hu.2⟩

/-- A match makes such a node, from the keyword and possibly a scrutinee on; the
current token is `is`. -/
theorem yields_matchRest (hw : Works descend bound) (hdeep : Deep bound q) {domain : Domain}
    (hkind : q.kind = .isKeyword)
    (h : Opened p marker q (mark .ifKeyword * optional (into "scrutinee"))) :
    Yields (matchRest descend domain marker) q (Ends p q) := by
  unfold matchRest
  refine (yields_bump h.live (by rw [hkind]; decide) .normal none).bind ?_
  intro _ r hpost
  obtain ⟨his, -, -⟩ := hpost
  rw [hkind] at his
  refine (yields_expect his.live (by decide) .normal none).bind ?_
  dsimp only
  rintro (_ | _) s ⟨hopen, -, hfail⟩
  -- Without the brace there are no arms, and that was reported.
  · refine (yields_completeControl (((h.adds his).adds hopen).of_failed (hfail rfl)) rfl
      (le_refl _)).mono ?_
    exact fun node t ht => ⟨ht.1, (his.reaches.trans hopen.reaches).trans ht.2⟩
  -- The arms start behind `is` and the brace, so they may descend to any depth.
  · have hdeep' := hdeep.later (Nat.le_trans hopen.room_le his.room_le)
    refine (yields_arms hw hopen.live hdeep' fun t ht hroom =>
      yields_matchArm hw ht (hdeep'.later hroom).le domain).bind ?_
    intro _ t harms
    refine (yields_closingBrace harms.live).bind ?_
    intro _ u hclose
    refine (yields_completeControl ((((h.adds his).adds hopen).adds harms).adds hclose) rfl
      (le_refl _)).mono ?_
    exact fun node v hv => ⟨hv.1, (((his.reaches.trans hopen.reaches).trans
      harms.reaches).trans hclose.reaches).trans hv.2⟩

/-- A list of conditions makes such a node, from the keyword and possibly a
scrutinee on; the current token is a brace. -/
theorem yields_conditionListRest (hw : Works descend bound) (hdeep : Deep bound q)
    {domain : Domain} (hkind : q.kind = .lBrace)
    (h : Opened p marker q (mark .ifKeyword * optional (into "scrutinee"))) :
    Yields (conditionListRest descend domain marker) q (Ends p q) := by
  unfold conditionListRest
  refine (yields_bump h.live (by rw [hkind]; decide) .normal none).bind ?_
  intro _ r hpost
  obtain ⟨hopen, -, -⟩ := hpost
  rw [hkind] at hopen
  have hdeep' := hdeep.later hopen.room_le
  refine (yields_arms hw hopen.live hdeep' fun s hs hroom =>
    yields_conditionArm hw hs (hdeep'.later hroom).value domain).bind ?_
  intro _ s harms
  refine (yields_closingBrace harms.live).bind ?_
  intro _ t hclose
  refine (yields_completeControl (((h.adds hopen).adds harms).adds hclose) rfl (le_refl _)).mono ?_
  exact fun node u hu => ⟨hu.1, ((hopen.reaches.trans harms.reaches).trans
    hclose.reaches).trans hu.2⟩

/-- Telling the forms of `if` apart changes nothing: the parse goes back
to the brace it started at. Of the decisions that it reached on the way
only those on the form of an `if` are kept. -/
theorem yields_speculateIfForm (hw : Works descend bound) (hp : p.Live)
    (hbound : 4 * p.room ≤ bound) (hkind : p.kind = .lBrace) :
    Yields (speculateIfForm descend) p fun outcome q => outcome.IsIn q.text.length ∧ Quiet p q ∧
      q.depth = p.depth ∧ (0 ≤ p.speculation → ∃ fresh, q.memo = fresh ++ p.memo ∧
        ∀ entry ∈ fresh, entry.1.1 = "if_form") := by
  have hinside : Yields (do
      bump
      if ← sees .elseKeyword then
        bump
        seesArmSeparator
      else if (← descend (.value none)).isSome then seesArmSeparator
      else return false) p.enterSpeculation fun _ q =>
        Adds p.enterSpeculation q ⊤ ∧ Takes p.enterSpeculation q := by
    have hlive := (Parser.still_enterSpeculation p).reaches.live hp
    have hend : ∀ q : Parser, Adds p.enterSpeculation q ⊤ → Takes p.enterSpeculation q →
        Yields seesArmSeparator q fun _ r =>
          Adds p.enterSpeculation r ⊤ ∧ Takes p.enterSpeculation r :=
      fun q hadds htakes => ⟨hadds, htakes⟩
    -- The speculation consumes the brace first, so what follows it may descend.
    refine (yields_bump hlive (by rw [show p.enterSpeculation.kind = .lBrace from hkind]; decide)
      .normal none).bind ?_
    intro _ q hpost
    obtain ⟨hopen, htakes, -⟩ := hpost
    refine .sees fun sees hsees => .ite (fun h => ?_) fun _ => ?_
    -- An `else` can only start an arm.
    · refine (yields_bump hopen.live (by rw [hsees.mp h]; decide) .normal none).bind ?_
      intro _ r hpost
      obtain ⟨helse, -, -⟩ := hpost
      exact hend r (hopen.anything.more helse) (htakes.trans helse.reaches)
    -- A value in front of a separator is the condition of an arm.
    · refine (hw.value none q hopen.live (Deep.of_takes hlive hbound htakes).value).bind ?_
      intro node r hr
      cases node with
      | none =>
        exact .ite (fun h => nomatch h) fun _ =>
          .pure ⟨hopen.anything.stays hr.1, htakes.trans hr.1.reaches⟩
      | some node =>
        exact .ite (fun _ => hend r (hopen.anything.more hr.1.adds) (htakes.trans hr.1.moves.reaches))
          fun h => absurd rfl h
  unfold speculateIfForm
  have hspeculation : Yields (speculating _) p fun _ q => ∃ r, q = Parser.leaveSpeculation r ∧
      Adds p.enterSpeculation r ⊤ ∧ Takes p.enterSpeculation r :=
    yields_speculating (hinside.mono fun _ q hq => ⟨q, rfl, hq⟩)
  refine .get (hspeculation.bind ?_)
  rintro _ _ ⟨q, rfl, ⟨sprouts, hgrows, -⟩, htakes⟩
  -- The brace was consumed on the way, so going back to it changes nothing.
  obtain ⟨hquiet, hmemo⟩ := Parser.quiet_rewind_speculation hgrows htakes
  exact .modify (.pure ⟨trivial, hquiet, rfl, hmemo⟩)

/-- What follows `if` without an expression. -/
theorem yields_ifWithoutCondition (hw : Works descend bound) (hdeep : Deep bound q)
    {domain : Domain} (h : Opened p marker q (mark .ifKeyword)) :
    Yields (ifWithoutCondition descend domain marker) q (Ends p q) := by
  unfold ifWithoutCondition
  refine .sees fun sees hsees => .ite (fun his => ?_) fun _ => ?_
  -- A match needs no scrutinee.
  · refine yields_matchRest hw hdeep (hsees.mp his) (h.mono ?_)
    exact le_trans (mul_one _).ge (mul_le_mul_right (optional_one _) _)
  -- Otherwise the condition is missing. An error node fills its field.
  refine (yields_reportWith h.live (by decide) _).bind ?_
  intro _ r hpost
  obtain ⟨hreport, -, -⟩ := hpost
  refine (yields_missing hreport.live (some "condition") (by decide) Set.univ).bind ?_
  intro node s hpost
  obtain ⟨hmissing, hfail, -⟩ := hpost
  have hadds := (hmissing.after hreport).adds
  have hopened := h.adds hadds
  refine .sees fun sees hsees => .ite (fun _ => ?_) fun _ => ?_
  · refine (yields_simpleRest hw (hdeep.later hadds.room_le) hopened).mono ?_
    exact fun node t ht => ⟨ht.1, hadds.reaches.trans ht.2⟩
  · refine (yields_completeControl (hopened.of_failed hfail) rfl (le_refl _)).mono ?_
    exact fun node t ht => ⟨ht.1, hadds.reaches.trans ht.2⟩

/-- What follows `if` and an expression. -/
theorem yields_ifWithExpression (hw : Works descend bound) (hdeep : Deep bound q)
    {domain : Domain} {leading : Completed} (h : Opened p marker q (mark .ifKeyword))
    (hleading : Makes q r leading none Set.univ) :
    Yields (ifWithExpression descend domain marker leading) r (Ends p r) := by
  -- Each of the forms below starts where the expression ends.
  have hend : ∀ {s : Parser} {m : Parse Completed}, Reaches r s → Yields m s (Ends p s) →
      Yields m s (Ends p r) := fun hs hm =>
    hm.mono fun node t ht => ⟨ht.1, hs.trans ht.2⟩
  have hdeep' : ∀ {s : Parser}, s.room ≤ r.room → Deep bound s := fun hs =>
    hdeep.later (Nat.le_trans hs hleading.room_le)
  unfold ifWithExpression
  refine .sees fun sees hsees => .ite (fun his => ?_) fun _ => ?_
  -- A match on the expression.
  · refine (Completed.yields_into hleading "scrutinee").bind ?_
    intro _ s hpost
    obtain ⟨hscrutinee, hs⟩ := hpost
    refine hend hs.reaches (yields_matchRest hw (hdeep' (hs.room hleading.live).le)
      (hs.kind.trans (hsees.mp his)) ?_)
    exact (h.adds hscrutinee.adds).mono (mul_le_mul_right (optional_word _) _)
  refine .sees fun sees hsees => .ite (fun _ => ?_) fun hopen => ?_
  -- No brace follows, so the body is missing.
  · refine (Completed.yields_into hleading "condition").bind ?_
    intro _ s hpost
    obtain ⟨hcondition, hs⟩ := hpost
    refine .get ((yields_reportWith hcondition.live (by decide) _).bind ?_)
    intro _ t hpost
    obtain ⟨hreport, hfail, ht⟩ := hpost
    have hopened := (h.adds hcondition.adds).stays hreport
    exact hend (hs.reaches.trans ht.reaches)
      (yields_completeControl (hopened.of_failed hfail) rfl (le_refl _))
  -- A brace follows. Which form it opens is found out by reading on and going back.
  have hkind : r.kind = .lBrace := hsees.mp (by simpa using hopen)
  have hspeculate := yields_speculateIfForm hw hleading.live (hdeep' (le_refl _)).le hkind
  refine (yields_memoized (hspeculate.mono fun _ _ hs => ⟨hs.1, hs.2.1⟩)).bind ?_
  intro outcome s hs
  have hleading' := hleading.quiet hs
  -- In one form the expression is the condition of one body.
  have hsimple : Yields (do
      leading.into "condition"
      simpleRest descend domain marker) s (Ends p r) := by
    refine (Completed.yields_into hleading' "condition").bind ?_
    intro _ t hpost
    obtain ⟨hcondition, ht⟩ := hpost
    have hreach := hs.reaches.trans ht.reaches
    exact hend hreach (yields_simpleRest hw (hdeep' (hreach.room_le hleading.live))
      (h.adds hcondition.adds))
  -- In the other it is the scrutinee of a list of conditions.
  have hlist : Yields (do
      leading.into "scrutinee"
      conditionListRest descend domain marker) s (Ends p r) := by
    refine (Completed.yields_into hleading' "scrutinee").bind ?_
    intro _ t hpost
    obtain ⟨hscrutinee, ht⟩ := hpost
    have hreach := hs.reaches.trans ht.reaches
    refine hend hreach (yields_conditionListRest hw (hdeep' (hreach.room_le hleading.live))
      ((hs.toStill.trans ht).kind.trans hkind) ?_)
    exact (h.adds hscrutinee.adds).mono (mul_le_mul_right (optional_word _) _)
  -- An outcome of another kind counts as the first form.
  cases outcome with
  | ifForm form =>
    cases form with
    | simple => exact hsimple
    | conditionList => exact hlist
  | content => exact hsimple
  | note => exact hsimple

/-- An `if` of any form. -/
theorem yields_ifExpression (hw : Works descend bound) (hp : p.Live)
    (hbound : 4 * p.room ≤ bound) (hkind : p.kind = .ifKeyword) (domain : Domain) :
    Yields (ifExpression descend domain) p fun node q =>
      Forms p q node controls ∧ Takes p q := by
  unfold ifExpression
  refine .startWith hp hkind (by decide) ?_
  intro marker q r hstarted hif htakes _
  have hdeep : Deep bound r := .of_takes hp hbound htakes
  have hopened := hstarted.adds hif
  have hend : ∀ {s : Parser} {m : Parse Completed}, Reaches r s → Yields m s (Ends p s) →
      Yields m s fun node q => Forms p q node controls ∧ Takes p q := fun hs hm =>
    hm.mono fun node t ht => ⟨ht.1, htakes.trans (hs.trans ht.2)⟩
  refine .sees fun sees hsees => .ite (fun hopen => ?_) fun _ => ?_
  -- A list of conditions needs no scrutinee.
  · refine hend (.refl r) (yields_conditionListRest hw hdeep (hsees.mp hopen) (hopened.mono ?_))
    exact le_trans (mul_one _).ge (mul_le_mul_right (optional_one _) _)
  refine (hw.value none r hif.live hdeep.value).bind ?_
  intro leading s hs
  cases leading with
  | none =>
    exact hend hs.1.reaches
      (yields_ifWithoutCondition hw (hdeep.later hs.1.room_le) (hopened.stays hs.1))
  | some leading =>
    exact hend hs.1.moves.reaches (yields_ifWithExpression hw hdeep hopened hs.1)

/-! ### `for` -/

/-- A name, or an error in its place. -/
theorem yields_expectNameInto (hp : p.Live) (field : String) :
    Yields (expectNameInto field) p fun _ q => Adds p q (token (some field) .identifier) := by
  unfold expectNameInto
  refine .sees fun sees hsees => .ite (fun h => ?_) fun _ => ?_
  · have hkind := hsees.mp h
    refine (yields_bump hp (by rw [hkind]; decide) .normal (some field)).mono ?_
    intro _ q hpost
    obtain ⟨hname, -, -⟩ := hpost
    rwa [hkind] at hname
  · refine (yields_reportHere hp (by decide)).mono ?_
    intro _ q hpost
    obtain ⟨hreport, hfail, -⟩ := hpost
    exact (Adds.of_grows hreport).of_failed hfail

/-- A `for`. -/
theorem yields_forExpression (hw : Works descend bound) (hp : p.Live)
    (hbound : 4 * p.room ≤ bound) (hkind : p.kind = .forKeyword) (domain : Domain) :
    Yields (forExpression descend domain) p fun node q =>
      Forms p q node controls ∧ Takes p q := by
  unfold forExpression
  refine .startWith hp hkind (by decide) ?_
  intro marker q r hstarted hfor htakes _
  have hdeep : Deep bound r := .of_takes hp hbound htakes
  refine (yields_expectNameInto hfor.live "item").bind ?_
  intro _ s hitem
  refine (yields_eat hitem.live (by decide) .normal none).bind ?_
  dsimp only
  -- What follows is the same with and without a name for the index.
  have hrest : ∀ t, Adds s t (optional (mark .comma * token (some "index") .identifier)) →
      Yields (do
        let _ ← expect .inKeyword
        let _ ← expectValue descend "iterable"
        bracedBody descend domain "body"
        marker.complete (.control domain .forLoop)) t fun node q =>
          Forms p q node controls ∧ Takes p q := by
    intro t hindex
    refine (yields_expect hindex.live (by decide) .normal none).bind ?_
    intro _ u hpost
    obtain ⟨hin, -, -⟩ := hpost
    have hhead := ((hfor.trans hitem).trans hindex).trans hin
    have hdeep' : Deep bound u :=
      hdeep.later (((hitem.trans hindex).trans hin).room_le)
    refine (yields_expectValue hw hin.live hdeep'.value (some "iterable")).bind ?_
    intro node v hiterable
    refine (yields_bracedBody hw hiterable.live (hdeep'.later hiterable.room_le) domain
      "body").bind ?_
    intro _ w hbody
    refine (yields_completeControl (hstarted.adds ((hhead.trans hiterable.adds).trans hbody)) rfl
      (le_refl _)).mono ?_
    intro node x hx
    refine ⟨hx.1, htakes.trans (Reaches.trans ?_ hx.2)⟩
    exact ((((hitem.trans hindex).trans hin).trans hiterable.adds).trans hbody).reaches
  rintro (_ | _) t ht
  · rw [ht]
    exact hrest s ((Adds.refl hitem.live).mono (optional_one _))
  -- A comma announces the name of the index.
  · obtain ⟨hcomma, -, -⟩ := ht
    refine (yields_expectNameInto hcomma.live "index").bind ?_
    intro _ u hname
    exact hrest u ((hcomma.trans hname).mono (optional_word _))

end MarkupSyntax.Grammar
