import MarkupSyntax.Grammar.Definitions
import MarkupSyntax.Proofs.Grammar.Element

/-!
# `MarkupSyntax.Proofs.Grammar.Definitions`: modules

The specifications of the rules for types, definitions and modules. An
item of a module consumes the token it starts with, so a module comes to
its end, also where a safe token starts no item: that one becomes an
error node by itself (`yields_module`).
-/

set_option autoImplicit false

namespace MarkupSyntax.Grammar

open Parse
open scoped Computability

variable {p q r : Parser} {descend : Descent} {bound : Nat}

/-! ### Types -/

/-- The name of a type. -/
theorem yields_typeName (hp : p.Live) (hkind : p.kind = .identifier) :
    Yields typeName p fun _ q =>
      Adds p q (node none .primitiveType + node none .userDefinedType) ∧ Takes p q := by
  -- Whichever of the two the name is taken for, it starts at the current token.
  have hrest : ∀ (isPrimitive : Bool) (q : Parser), Quiet p q → Yields (do
      let marker ← start
      if isPrimitive then
        bump
        let _ ← marker.complete .primitiveType
      else
        let _ ← qualifiedName (some "name")
        let _ ← marker.complete .userDefinedType) q fun _ r =>
          Adds p r (node none .primitiveType + node none .userDefinedType) ∧ Takes p r := by
    intro isPrimitive q hq
    have hgrows := hq.grows hp
    refine (yields_start hgrows.live).bind ?_
    intro marker r hstarted
    have hr : Still p r := hq.toStill.trans hstarted.toStill
    have hkind' : r.kind = .identifier := hr.kind.trans hkind
    -- A primitive type is this one token; any other type is a qualified name.
    refine .ite (fun _ => ?_) fun _ => ?_
    · refine (yields_bump hstarted.live (by rw [hkind']; decide) .normal none).bind ?_
      intro _ s hpost
      obtain ⟨hname, htakes, -⟩ := hpost
      rw [hkind'] at hname
      refine (Marker.yields_complete (hstarted.adds hname) (by decide)
        (le_refl (production .primitiveType))).bind ?_
      intro node t hpost
      obtain ⟨hmakes, ht, -⟩ := hpost
      exact .pure ⟨(hmakes.after hgrows).adds.mono le_self_add,
        hr.takes (htakes.trans ht.reaches)⟩
    · refine (yields_qualifiedName hstarted.live (some "name")).bind ?_
      rintro (_ | name) s ⟨hfinds, hnone⟩
      -- The current token is a name, so there is a qualified name.
      · exact absurd hkind' (hnone rfl)
      obtain ⟨hname, htakes⟩ := hfinds
      refine (Marker.yields_complete (hstarted.adds hname.adds) (by decide)
        (le_refl (production .userDefinedType))).bind ?_
      intro node t hpost
      obtain ⟨hmakes, ht, -⟩ := hpost
      exact .pure ⟨(hmakes.after hgrows).adds.mono le_add_self,
        hr.takes (htakes.trans ht.reaches)⟩
  unfold typeName
  refine .get (.ite (fun _ => ?_) fun _ => hrest false p (.refl p))
  exact ((settled_nthIs 1 .dot).quiet hp).bind fun answer q hq => hrest (!answer) q hq

/-- A type, or nothing. -/
theorem yields_type (hp : p.Live) (field : Option String) :
    Yields (type field) p (Finds p field {.typeReference}) := by
  unfold type
  refine .sees fun sees hsees => .ite (fun _ => .pure (.nothing hp field _)) fun h => ?_
  have hkind : p.kind = .identifier := hsees.mp (by simpa using h)
  refine (yields_start hp).bind ?_
  intro marker q hstarted
  refine (yields_typeName hstarted.live (hstarted.kind.trans hkind)).bind ?_
  intro _ r hpost
  obtain ⟨hname, htakes⟩ := hpost
  -- What stands behind the name is one of the two suffixes, or nothing.
  have hend : ∀ s, Adds r s
      (optional (token (some "nullable") .question + mark .lBracket * mark .rBracket)) →
      Yields (do
        let node ← marker.complete .typeReference
        return some (← node.setField field)) s (Finds p field {.typeReference}) := by
    intro s hs
    refine .completeInto (hstarted.adds (hname.trans hs)) (by decide)
      (le_refl (production .typeReference)) ?_
    intro node t hmakes ht _
    exact .pure ⟨hmakes, hstarted.takes (htakes.trans (hs.reaches.trans ht.reaches))⟩
  refine .sees fun sees hsees => .ite (fun h => ?_) fun _ => ?_
  · have hquestion := hsees.mp h
    refine (yields_bump hname.live (by rw [hquestion]; decide) .normal (some "nullable")).bind ?_
    intro _ s hpost
    obtain ⟨hs, -, -⟩ := hpost
    rw [hquestion] at hs
    exact hend s (hs.mono (le_trans le_self_add (optional_word _)))
  refine (yields_eat hname.live (by decide) .normal none).bind ?_
  rintro (_ | _) s hbracket
  · cases hbracket
    exact hend r ((Adds.refl hname.live).mono (optional_one _))
  · refine (yields_expect hbracket.1.live (by decide) .normal none).bind ?_
    intro _ t hpost
    obtain ⟨hclose, -, -⟩ := hpost
    exact hend t ((hbracket.1.trans hclose).mono (le_trans le_add_self (optional_word _)))

/-- A type, or an error in its place. -/
theorem yields_expectType (hp : p.Live) (field : Option String) :
    Yields (expectType field) p fun node q => Makes p q node field {.typeReference} := by
  unfold expectType
  refine (yields_type hp field).bind ?_
  intro node q hq
  cases node with
  | none =>
    refine (yields_missing hq.1.live field (by decide) {.typeReference}).mono ?_
    rintro node r ⟨hmakes, -, -⟩
    exact hmakes.after hq.1
  | some node =>
    exact .pure hq.1

/-- A type after a colon, if there is one. -/
theorem yields_annotated (hp : p.Live) (field : String) :
    Yields ( typeAnnotation field) p fun _ q => Adds p q (annotationPart field) := by
  unfold typeAnnotation
  refine (yields_eat hp (by decide) .normal none).bind ?_
  rintro (_ | _) q hcolon
  · cases hcolon
    exact .pure ((Adds.refl hp).mono (optional_one _))
  · refine (yields_expectType hcolon.1.live (some field)).bind ?_
    intro node r hr
    exact .pure ((hcolon.1.trans hr.adds).mono (optional_word _))

/-! ### Definitions -/

/-- What the rule of an item makes of it. -/
def Item (p : Parser) (node : Completed) (q : Parser) : Prop :=
  Makes p q node none Set.univ ∧ Takes p q

/-- A keyword that was consumed, and a name. -/
theorem yields_importStatement (hp : p.Live) (hkind : p.kind = .importKeyword) :
    Yields importStatement p (Item p) := by
  unfold importStatement
  refine .startWith hp hkind (by decide) ?_
  intro marker q r hstarted hkeyword htakes _
  have hend : ∀ s, Adds r s (node (some "name") .qualifiedName) →
      Yields (marker.complete .importStatement) s (Item p) := by
    intro s hs
    exact Marker.yields_finish hstarted (hkeyword.trans hs) (htakes.trans hs.reaches) (by decide)
      (le_refl (production .importStatement)) (Set.mem_univ _)
  refine (yields_qualifiedName hkeyword.live (some "name")).bind ?_
  rintro (_ | name) s ⟨hfinds, -⟩
  -- A module name that is missing is reported, which excuses its absence.
  · refine .ite (fun _ => ?_) fun h => absurd rfl h
    refine (yields_reportWith hfinds.1.live (by decide) _).bind ?_
    intro _ t hpost
    obtain ⟨hreport, hfail, -⟩ := hpost
    exact hend t ((Adds.of_grows (hfinds.1.trans hreport)).of_failed hfail)
  · exact .ite (fun h => nomatch h) fun _ => hend s hfinds.1.adds

/-- The start of a definition: its keyword and its name. -/
theorem yields_keywordAndName (hp : p.Live) {keyword : TokenKind} (hkind : p.kind = keyword)
    (notEnd : keyword ≠ .eof) {rest : Marker → Parse Completed}
    (hrest : ∀ marker q r, Started p marker q →
      Adds q r (mark keyword * token (some "name") .identifier) → Takes p r →
      Yields (rest marker) r (Item p)) :
    Yields (do
      let marker ← start
      bump
      expectNameInto "name"
      rest marker) p (Item p) := by
  refine .startWith hp hkind notEnd ?_
  intro marker q r hstarted hkeyword htakes _
  refine (yields_expectNameInto hkeyword.live "name").bind ?_
  intro _ s hname
  exact hrest marker q s hstarted (hkeyword.trans hname) (htakes.trans hname.reaches)

/-- The definition of a type is an item of a module, and takes its keyword. -/
theorem yields_typeDefinition (hp : p.Live) (hkind : p.kind = .typeKeyword) :
    Yields typeDefinition p (Item p) := by
  unfold typeDefinition
  refine yields_keywordAndName hp hkind (by decide) ?_
  intro marker q r hstarted hhead htakes
  refine (yields_expect hhead.live (by decide) .normal none).bind ?_
  intro _ s hpost
  obtain ⟨hequal, -, -⟩ := hpost
  refine (yields_expectType hequal.live (some "type")).bind ?_
  intro _ t htype
  exact Marker.yields_finish hstarted ((hhead.trans hequal).trans htype.adds)
    (htakes.trans (hequal.trans htype.adds).reaches) (by decide)
    (le_refl (production .typeDefinition)) (Set.mem_univ _)

/-- A member of an enumeration, or an error in its place. -/
theorem yields_enumMember (hp : p.Live) :
    Yields enumMember p fun _ q => Adds p q (node none .enumMember) := by
  unfold enumMember
  refine .sees fun sees hsees => .ite (fun h => ?_) fun _ => ?_
  · have hkind := hsees.mp h
    refine .startWith hp hkind (by decide) ?_
    intro marker q r hstarted hname _ _
    refine (Marker.yields_complete (hstarted.adds hname) (by decide)
      (le_refl (production .enumMember))).bind ?_
    intro node s hpost
    obtain ⟨hmakes, -, -⟩ := hpost
    exact .pure hmakes.adds
  · refine (yields_reportWith hp (by decide) _).mono ?_
    intro _ q hpost
    obtain ⟨hreport, hfail, -⟩ := hpost
    exact (Adds.of_grows hreport).of_failed hfail

/-- The members of an enumeration: a member, and one after every `|`. -/
theorem yields_enumMemberList (hp : p.Live) :
    Yields enumMemberList p fun _ q => Adds p q (node (some "members") .enumMemberList) := by
  unfold enumMemberList
  refine (yields_start hp).bind ?_
  intro marker q hstarted
  -- A `|` in front of the first member is allowed.
  have hpipe : Yields (eat .pipe) q fun _ r => Adds q r (optional (mark .pipe)) := by
    refine (yields_eat hstarted.live (by decide) .normal none).mono ?_
    rintro (_ | _) r hr
    · cases hr
      exact (Adds.refl hstarted.live).mono (optional_one _)
    · exact hr.1.mono (optional_word _)
  refine hpipe.bind ?_
  intro _ r hfirst
  refine (yields_enumMember hfirst.live).bind ?_
  intro _ s hmember
  refine (yields_many (mark .pipe * node none .enumMember) hmember.live ?_).bind ?_
  -- Each further member follows a `|`.
  · intro t ht _
    refine (yields_eat ht (by decide) .normal none).bind ?_
    rintro (_ | _) u hu
    · cases hu
      exact .pure (.refl ht)
    · refine (yields_enumMember hu.1.live).bind ?_
      exact fun _ v hv => .pure ⟨hu.1.trans hv, hu.2.1.trans hv.reaches⟩
  · intro _ t hmore
    refine (Marker.yields_complete (hstarted.adds ((hfirst.trans hmember).trans hmore)) (by decide)
      (le_refl (production .enumMemberList))).bind ?_
    intro node u hpost
    obtain ⟨hmakes, -, -⟩ := hpost
    refine (Completed.yields_into hmakes "members").mono ?_
    intro _ v hpost
    obtain ⟨hmakes, -⟩ := hpost
    exact hmakes.adds

/-- An enumeration is an item of a module, and takes its keyword. -/
theorem yields_enumDefinition (hp : p.Live) (hkind : p.kind = .enumKeyword) :
    Yields enumDefinition p (Item p) := by
  unfold enumDefinition
  refine yields_keywordAndName hp hkind (by decide) ?_
  intro marker q r hstarted hhead htakes
  refine (yields_expect hhead.live (by decide) .normal none).bind ?_
  intro _ s hpost
  obtain ⟨hequal, -, -⟩ := hpost
  refine (yields_enumMemberList hequal.live).bind ?_
  intro _ t hmembers
  exact Marker.yields_finish hstarted ((hhead.trans hequal).trans hmembers)
    (htakes.trans (hequal.trans hmembers).reaches) (by decide)
    (le_refl (production .enumDefinition)) (Set.mem_univ _)

/-- The definition of a value is an item of a module, and takes its keyword. The
bound covers the source, so its value may descend as far as it goes. -/
theorem yields_valueDefinition (hw : Works descend bound) (hp : p.Live)
    (hbound : 4 * p.room ≤ bound) (hkind : p.kind = .letKeyword) :
    Yields (valueDefinition descend) p (Item p) := by
  unfold valueDefinition
  refine yields_keywordAndName hp hkind (by decide) ?_
  intro marker q r hstarted hhead htakes
  refine (yields_annotated hhead.live "type").bind ?_
  intro _ s htype
  refine (yields_expect htype.live (by decide) .normal none).bind ?_
  intro _ t hpost
  obtain ⟨hequal, -, -⟩ := hpost
  have hreach := (htype.trans hequal).reaches
  -- The keyword was consumed, so the value may descend to any depth.
  have hdeep : Deep bound t := .of_takes hp hbound (htakes.trans hreach)
  refine (yields_rightSide hw hequal.live hdeep "value").bind ?_
  intro _ u hvalue
  exact Marker.yields_finish hstarted (((hhead.trans htype).trans hequal).trans hvalue)
    (htakes.trans (hreach.trans hvalue.reaches)) (by decide)
    (le_refl (production .valueDefinition)) (Set.mem_univ _)

/-! ### Functions -/

/-- A parameter. It consumes the current token where that is a name in a
tag. -/
theorem yields_propertyDefinition (hw : Works descend bound) (hp : p.Live) (hdeep : Deep bound p) :
    Yields (propertyDefinition descend) p fun node q =>
      Makes p q node (some "parameter") {.propertyDefinition} ∧
        (p.context = .tag → p.kind ∈ markupNameTokens → Takes p q) := by
  unfold propertyDefinition
  refine (yields_start hp).bind ?_
  intro marker q hstarted
  have hrelex := q.grows_relex hstarted.live .tag
  -- What the parameter has after its name.
  have hrest : ∀ r, Adds q r (part (some "name") (Set.range SyntaxKind.token)) →
      (p.context = .tag → p.kind ∈ markupNameTokens → Takes p r) →
      Yields (do
        let _ ← expect .colon
        let _ ← expectType (some "type")
        if ← eat .equal then let _ ← rightSide descend (some "default")
        let node ← marker.complete .propertyDefinition
        node.setField "parameter") r fun node s =>
          Makes p s node (some "parameter") {.propertyDefinition} ∧
            (p.context = .tag → p.kind ∈ markupNameTokens → Takes p s) := by
    intro r hname htakes
    refine (yields_expect hname.live (by decide) .normal none).bind ?_
    intro _ s hpost
    obtain ⟨hcolon, -, -⟩ := hpost
    refine (yields_expectType hcolon.live (some "type")).bind ?_
    intro _ t htype
    have hhead := (hname.trans hcolon).trans htype.adds
    have hend : ∀ u, Adds t u (optional (mark .equal * into "default")) →
        Yields (do
          let node ← marker.complete .propertyDefinition
          node.setField "parameter") u fun node v =>
            Makes p v node (some "parameter") {.propertyDefinition} ∧
              (p.context = .tag → p.kind ∈ markupNameTokens → Takes p v) := by
      intro u hu
      refine (yields_completeInto (hstarted.adds (hhead.trans hu)) (by decide)
        (le_refl (production .propertyDefinition)) (some "parameter")).mono ?_
      intro node v hpost
      obtain ⟨hmakes, hv, -⟩ := hpost
      refine ⟨hmakes, fun hcontext hkind => (htakes hcontext hkind).trans ?_⟩
      exact ((hcolon.trans htype.adds).trans hu).reaches.trans hv.reaches
    refine (yields_eat htype.live (by decide) .normal none).bind ?_
    rintro (_ | _) u hu
    · cases hu
      exact hend t ((Adds.refl htype.live).mono (optional_one _))
    · have hle := ((hstarted.adds hhead).adds hu.1).room_le
      refine (yields_rightSide hw hu.1.live (hdeep.later hle) "default").bind ?_
      exact fun _ v hv => hend v ((hu.1.trans hv).mono (optional_word _))
  refine .modify (.seesAny fun sees hsees => .ite (fun h => ?_) fun h => ?_)
  -- The name is read as in a tag, and any token that may start one there will do.
  · have notEnd : (q.relex .tag).kind ≠ .eof := by
      intro heof
      have hmem := hsees.mp h
      rw [heof] at hmem
      exact absurd hmem (by decide)
    refine (yields_bump hrelex.live notEnd .normal (some "name")).bind ?_
    intro _ r hpost
    obtain ⟨hname, htakes, -⟩ := hpost
    refine hrest r ?_ fun hcontext _ => ?_
    · have hadds := (Adds.of_grows hrelex).trans hname
      rw [one_mul] at hadds
      refine hadds.mono ?_
      -- Any such token is a name to the production.
      intro word hpost
      obtain ⟨kind, hkind, rfl⟩ := hpost
      exact ⟨kind, ⟨_, hkind.symm⟩, rfl⟩
    · rw [Parser.relex_of_context (hstarted.context.trans hcontext)] at htakes
      exact hstarted.takes htakes
  · refine (yields_reportWith hrelex.live (by decide) _).bind ?_
    intro _ r hpost
    obtain ⟨hreport, hfail, -⟩ := hpost
    refine hrest r ((Adds.of_grows (hrelex.trans hreport)).of_failed hfail) fun hcontext hkind => ?_
    rw [Parser.relex_of_context (hstarted.context.trans hcontext)] at hsees
    rw [hsees, hstarted.kind] at h
    exact absurd hkind h

/-- A parameter after marks is one more parameter. -/
theorem parameterParts_more :
    marks * node (some "parameter") .propertyDefinition * parameterParts ≤ parameterParts := by
  unfold parameterParts
  rw [← mul_assoc]
  exact mul_le_mul' mul_kstar_le_kstar (le_refl _)

/-- Punctuation may stand between parameters. -/
theorem marks_le_parameterParts : marks ≤ parameterParts :=
  le_mul_of_one_le_left' one_le_kstar

/-- The parameters of a component, each read in the tag. -/
theorem yields_componentParameters (hw : Works descend bound) (hp : p.Live)
    (hdeep : Deep bound p) (hcontext : p.context = .tag) :
    Yields (loop (componentParameter descend) {}) p fun _ q =>
      Adds p q ((marks * node (some "parameter") .propertyDefinition)∗) := by
  -- The invariant has the context too, because a name ends a parameter list only where it is read
  -- as in a tag.
  refine yields_loop (fun progress q => Adds p q
      ((marks * node (some "parameter") .propertyDefinition)∗) ∧ Behind progress q ∧
        q.context = .tag) (fun _ q => q.room) ?_
    ⟨(Adds.refl hp).mono one_le_kstar, behind_first p, hcontext⟩ (by unfold Parser.room; omega)
  intro progress q hpost
  obtain ⟨hadds, hbehind, hcontext⟩ := hpost
  have hlive := hadds.live
  unfold componentParameter
  refine .seesAny fun sees hsees => .ite (fun _ => .pure hadds) fun h => ?_
  have hname : q.kind ∈ markupNameTokens := hsees.mp (by simpa using h)
  refine .mustProgress hlive hbehind fun next hnext => ?_
  refine (yields_propertyDefinition hw hlive (hdeep.later hadds.room_le)).bind ?_
  intro node r hpost
  obtain ⟨hmakes, htakes⟩ := hpost
  have hrelex := r.grows_relex hmakes.live .tag
  have htakes' := (htakes hcontext hname).trans hrelex.reaches
  -- The parameter consumed its name, since the current token starts one.
  refine .modify (.pure ⟨⟨?_, behind_of_takes hnext htakes' hlive, Parser.context_relex _⟩,
    htakes'.room_lt hlive⟩)
  refine (hadds.trans (hmakes.adds.stays hrelex)).mono (le_trans ?_ kstar_mul_le_kstar)
  exact mul_le_mul' (le_refl _) (le_mul_of_one_le_left' one_le_kstar)

/-- The head of a component. -/
theorem yields_componentHead (hw : Works descend bound) (hp : p.Live) (hdeep : Deep bound p)
    (hkind : p.kind = .lessThan) :
    Yields (componentHead descend) p fun _ q => Adds p q headPart := by
  unfold componentHead
  refine (yields_bump hp (by rw [hkind]; decide) .tag none).bind ?_
  intro _ q hpost
  obtain ⟨hless, -, hcontext⟩ := hpost
  rw [hkind] at hless
  -- The name may be missing; what follows is the same.
  have hrest : ∀ r, Adds q r (node (some "name") .qualifiedMarkupName) → r.context = .tag →
      Yields (do
        loop (componentParameter descend) {}
        let _ ← expect .slash .tag
        let _ ← expect .greaterThan) r fun _ s => Adds p s headPart := by
    intro r hname hcontext
    have hle := (hless.trans hname).room_le
    refine (yields_componentParameters hw hname.live (hdeep.later hle) hcontext).bind ?_
    intro _ s hparameters
    refine (yields_expect hparameters.live (by decide) .tag none).bind ?_
    intro _ t hpost
    obtain ⟨hslash, -, -⟩ := hpost
    refine (yields_expect hslash.live (by decide) .normal none).bind ?_
    intro _ u hpost
    obtain ⟨hgreater, -, -⟩ := hpost
    -- The production knows the two closing tokens only as tokens.
    have hclose : Adds s u marks := (hslash.trans hgreater).mono
      (le_trans (mul_le_mul' (le_refl _) (mark_le_marks _)) (mark_mul_marks _))
    exact .pure (((hless.trans hname).trans (hparameters.trans hclose)).mono
      (mul_le_mul' le_self_add (le_refl _)))
  refine (yields_qualifiedMarkupName hless.live hcontext (some "name")).bind ?_
  rintro (_ | name) r ⟨hfinds, hcontext, -, -⟩
  · refine .ite (fun _ => ?_) fun h => absurd rfl h
    refine (yields_reportWith hfinds.1.live (by decide) _).bind ?_
    intro _ s hpost
    obtain ⟨hreport, hfail, hs⟩ := hpost
    exact hrest s ((Adds.of_grows (hfinds.1.trans hreport)).of_failed hfail)
      (hs.context.trans hcontext)
  · exact .ite (fun h => nomatch h) fun _ => hrest r hfinds.1.adds hcontext

/-- The head of a function with parameters in parentheses. -/
theorem yields_functionHead (hw : Works descend bound) (hp : p.Live) (hdeep : Deep bound p)
    (hkind : p.kind = .identifier) :
    Yields (functionHead descend) p fun _ q => Adds p q headPart := by
  unfold functionHead
  refine (yields_bump hp (by rw [hkind]; decide) .normal (some "name")).bind ?_
  intro _ q hpost
  obtain ⟨hname, -, -⟩ := hpost
  rw [hkind] at hname
  refine (yields_bump_any hname.live .normal).bind ?_
  intro _ r hpost
  obtain ⟨hopen, -⟩ := hpost
  -- The parameters, however many there are, are followed by the end of the list.
  have hend : ∀ s, Adds q s parameterParts →
      Yields (do let _ ← expect .rParen) s fun _ t => Adds p t headPart := by
    intro s hs
    refine (yields_expect hs.live (by decide) .normal none).bind ?_
    intro _ t hpost
    obtain ⟨hclose, -, -⟩ := hpost
    refine .pure ((hname.trans (hs.trans hclose)).mono (mul_le_mul' le_add_self ?_))
    unfold parameterParts
    rw [mul_assoc]
    exact mul_le_mul' (le_refl _) (marks_mul_mark _)
  have hle := (hname.trans hopen).room_le
  -- There are no parameters.
  refine .sees fun sees _ => .ite (fun _ => ?_) fun _ => hend r (hopen.mono marks_le_parameterParts)
  refine (yields_propertyDefinition hw hopen.live (hdeep.later hle)).bind ?_
  intro _ s hpost
  obtain ⟨hfirst, -⟩ := hpost
  refine (yields_many (mark .comma * node (some "parameter") .propertyDefinition) hfirst.live
    ?_).bind ?_
  · intro t ht hroom
    refine (yields_eat ht (by decide) .normal none).bind ?_
    rintro (_ | _) u hu
    · cases hu
      exact .pure (.refl ht)
    · have hle' : u.room ≤ p.room := by
        have := hu.1.room_le
        have := hfirst.room_le
        omega
      refine (yields_propertyDefinition hw hu.1.live (hdeep.later hle')).bind ?_
      intro node v hpost
      obtain ⟨hmakes, -⟩ := hpost
      exact .pure ⟨hu.1.trans hmakes.adds, hu.2.1.trans hmakes.adds.reaches⟩
  · intro _ t hmore
    -- The opening token and the commas stand between the parameters, and the production counts
    -- all of them as tokens.
    refine hend t ((hopen.trans (hfirst.adds.trans hmore)).mono ?_)
    rw [← mul_assoc]
    refine le_trans (mul_le_mul' (le_refl _) ?_) parameterParts_more
    refine le_trans (kstar_mono ?_) (le_mul_of_one_le_right' one_le_kstar)
    exact mul_le_mul' (mark_le_marks _) (le_refl _)

/-- Looking at what follows `let`: the head of a function starts with `<`
or a name. -/
theorem yields_seesFunctionHead {seam : Seam} (hp : p.At seam) :
    Yields seesFunctionHead p fun answer q =>
      (answer = true → seam.kindAhead p.context 1 = .lessThan ∨
        seam.kindAhead p.context 1 = .identifier) ∧ Quiet p q := by
  -- Looking ahead does not move, so each answer is about the same place.
  have hnth : ∀ q n kind, Quiet p q → Yields (nthIs n kind) q fun answer r =>
      (answer = true → seam.kindAhead p.context n = kind) ∧ Quiet p r := by
    intro q n kind hq
    refine (yields_nthIs (hq.at_ hp) n kind).mono fun _ r hr => ⟨fun h => ?_, hq.trans hr.2⟩
    rw [← hq.context]
    exact hr.1 h
  unfold seesFunctionHead
  refine (hnth p 1 .lessThan (.refl p)).bind ?_
  intro answer q hpost
  obtain ⟨hless, hq⟩ := hpost
  refine .ite (fun h => .pure ⟨fun _ => .inl (hless h), hq⟩) fun _ => ?_
  refine (hnth q 1 .identifier hq).bind ?_
  intro answer r hpost
  obtain ⟨hname, hr⟩ := hpost
  refine .ite (fun h => ?_) fun _ => .pure ⟨nofun, hr⟩
  exact (hnth r 2 .lParen hr).mono fun _ s hs => ⟨fun _ => .inr (hname h), hs.2⟩

/-- The definition of a function is an item of a module, and takes its keyword.
What stands behind the keyword was looked at before: a tag, or a name, and one
of them must be there for the head to be read. -/
theorem yields_functionDefinition (hw : Works descend bound) {seam : Seam} (hp : p.At seam)
    (hbound : 4 * p.room ≤ bound) (hkind : p.kind = .letKeyword)
    (hahead : seam.kindAhead p.context 1 = .lessThan ∨
      seam.kindAhead p.context 1 = .identifier) :
    Yields (functionDefinition descend) p (Item p) := by
  unfold functionDefinition
  refine (yields_start ⟨seam, hp⟩).bind ?_
  intro marker q hstarted
  refine (yields_bump_ahead (hstarted.at_ hp) (by rw [hstarted.kind, hkind]; decide)).bind ?_
  intro _ r hpost
  obtain ⟨hlet, htakes, hnext⟩ := hpost
  rw [hstarted.kind, hkind] at hlet
  rw [hstarted.context] at hnext
  have htakes := hstarted.takes htakes
  have hdeep : Deep bound r := .of_takes ⟨seam, hp⟩ hbound htakes
  -- What the function has after its head, which comes in two forms.
  have hrest : ∀ s, Adds r s headPart → Yields (do
      typeAnnotation "return_type"
      let _ ← expect .equal
      let _ ← rightSide descend (some "body")
      marker.complete .functionDefinition) s (Item p) := by
    intro s hhead
    refine (yields_annotated hhead.live "return_type").bind ?_
    intro _ t htype
    refine (yields_expect htype.live (by decide) .normal none).bind ?_
    intro _ u hpost
    obtain ⟨hequal, -, -⟩ := hpost
    have hmiddle := (hhead.trans htype).trans hequal
    refine (yields_rightSide hw hequal.live (hdeep.later hmiddle.room_le) "body").bind ?_
    intro _ v hbody
    refine Marker.yields_finish hstarted (hlet.trans (hmiddle.trans hbody))
      (htakes.trans (hmiddle.trans hbody).reaches) (by decide) (le_of_eq ?_) (Set.mem_univ _)
    simp only [production, mark, mul_assoc]
  refine .sees fun sees hsees => .ite (fun h => ?_) fun h => ?_
  · exact (yields_componentHead hw hlet.live hdeep (hsees.mp h)).bind fun _ s hs => hrest s hs
  -- The lookahead saw one of the two behind the keyword, and it is not `<`.
  · have hname : r.kind = .identifier := by
      rw [← hnext] at hahead
      exact hahead.resolve_left fun hless => h (hsees.mpr hless)
    exact (yields_functionHead hw hlet.live hdeep hname).bind fun _ s hs => hrest s hs

/-! ### Modules -/

/-- The places to go on at that the grammar knows. -/
def recoveries : List Recovery :=
  [moduleRecovery, elementsRecovery, propertyRecovery, armRecovery]

/-- An item of a module, or nothing. -/
theorem yields_moduleItem (hw : Works descend bound) (hp : p.Live) (hroom : 4 * p.room < bound) :
    Yields (moduleItem descend) p fun result q =>
      Adds p q ⊤ ∧ (if result.isSome then Takes p q else Still p q) := by
  have hbound := Nat.le_of_lt hroom
  -- An item that was made behind a lookahead was made here.
  have hitem : ∀ (rule : Parse Completed) (q : Parser), Quiet p q → Yields rule q (Item q) →
      Yields (do return some (← rule)) q fun result r =>
        Adds p r ⊤ ∧ (if result.isSome then Takes p r else Still p r) := by
    intro rule q hq h
    refine h.bind ?_
    intro node r hpost
    obtain ⟨hmakes, htakes⟩ := hpost
    exact .pure ⟨(hmakes.after (hq.grows hp)).adds.anything, hq.takes htakes⟩
  have hnone : ∀ q, Quiet p q → Adds p q ⊤ ∧ Still p q := fun q hq =>
    ⟨(Adds.of_grows (hq.grows hp)).anything, hq.toStill⟩
  unfold moduleItem
  refine .get ?_
  split
  · rename_i hkind
    exact hitem _ p (.refl p) (yields_importStatement hp hkind)
  · rename_i hkind
    exact hitem _ p (.refl p) (yields_typeDefinition hp hkind)
  · rename_i hkind
    exact hitem _ p (.refl p) (yields_enumDefinition hp hkind)
  -- A `let` starts a function or a value, which the lookahead tells apart.
  · rename_i hkind
    obtain ⟨seam, hseam⟩ := hp
    refine (yields_seesFunctionHead hseam).bind ?_
    intro answer q hpost
    obtain ⟨hanswer, hq⟩ := hpost
    have hkind' : q.kind = .letKeyword := hq.kind.trans hkind
    have hbound' : 4 * q.room ≤ bound := by
      rw [hq.room ⟨seam, hseam⟩]
      exact hbound
    refine .ite (fun h => hitem _ q hq ?_) fun _ => hitem _ q hq ?_
    · refine yields_functionDefinition hw (hq.at_ hseam) hbound' hkind' ?_
      rw [hq.context]
      exact hanswer h
    · exact yields_valueDefinition hw ⟨seam, hq.at_ hseam⟩ hbound' hkind'
  -- An element; `</` closes nothing here.
  · rename_i hkind
    refine ((settled_nthIs 1 .slash).quiet hp).bind ?_
    intro answer q hq
    refine .ite (fun _ => .pure (hnone q hq)) fun _ => ?_
    have hroom' : 4 * q.room < bound := by
      rw [hq.room hp]
      exact hroom
    refine (hw.element (some "element") q (hq.grows hp).live (hq.kind.trans hkind) hroom').mono ?_
    intro _ r hpost
    obtain ⟨node, rfl, hmakes, htakes⟩ := hpost
    exact ⟨(hmakes.after (hq.grows hp)).adds.anything, hq.takes htakes⟩
  · rename_i hkind
    refine (yields_interpolation hw hp hbound hkind (some "value")).bind ?_
    intro node q hpost
    obtain ⟨hmakes, htakes⟩ := hpost
    exact .pure ⟨hmakes.adds.anything, htakes⟩
  · exact .pure (hnone p (.refl p))

/-- A round of a module consumes a token, except at the end of the
source. -/
theorem yields_moduleRound (hw : Works descend bound) (hp : p.Live) (hroom : 4 * p.room < bound)
    {progress : Progress} (hbehind : Behind progress p) :
    Yields (moduleRound descend progress) p fun round q =>
      match round with
      | .again next => Adds p q ⊤ ∧ Behind next q ∧ q.room < p.room
      | .done _ => Adds p q ⊤ ∧ q.kind = .eof := by
  unfold moduleRound
  refine .sees fun atEnd hend => .ite (fun h => ?_) fun h => ?_
  · exact .pure ⟨(Adds.refl hp).anything, hend.mp h⟩
  have notEnd : p.kind ≠ .eof := fun heof => h (hend.mpr heof)
  refine .mustProgress hp hbehind fun next hnext => ?_
  refine (yields_moduleItem hw hp hroom).bind ?_
  -- Nothing starts at this token, so what follows is skipped up to something that does.
  rintro (_ | item) q ⟨hadds, hway⟩
  · refine .ite (fun h => nomatch h) fun _ => ?_
    have hstill : Still p q := hway
    refine (moduleRecovery.yields_skipUnexpected (.pure false)
      (rfl : SyntaxKind.error.isLooseNode = true) hadds.live ⊤).bind ?_
    intro skipped r hpost
    obtain ⟨hskip, hfail, hway⟩ := hpost
    have hmore := hadds.more hskip
    have hreach : ∀ s, Adds r s ⊤ → Takes q s → Advances p (.again next) s := fun s hs htakes =>
      advances_again hnext (Adds.refl hp) (hmore.more hs) (hstill.takes htakes)
    cases skipped with
    -- Something was skipped, which is progress.
    | true => exact .pure (hreach r (Adds.refl hmore.live).anything hway)
    | false =>
      -- A safe token that starts no item is an error node by itself.
      have hr : Still q r := hway
      refine (yields_start hmore.live).bind ?_
      intro marker s hstarted
      have hs : Still q s := hr.trans hstarted.toStill
      refine (yields_bump hstarted.live (by rw [hs.kind, hstill.kind]; exact notEnd) .normal
        none).bind ?_
      intro _ t hpost
      obtain ⟨hbump, htakes, -⟩ := hpost
      have hopened := hstarted.adds hbump
      have hfail' : t.errorCount ≠ 0 := fun ht => hfail (hopened.moves.errorCount_start ht)
      refine (Marker.yields_complete (hopened.of_failed hfail') (by decide)
        (le_refl (production .error))).bind ?_
      intro node u hpost
      obtain ⟨hmakes, hu, -⟩ := hpost
      exact .pure (hreach u hmakes.adds.anything (hs.takes (htakes.trans hu.reaches)))
  · exact .pure (advances_again hnext (Adds.refl hp) hadds hway)

/-- A module comes to the end of the source, whatever that holds. -/
theorem yields_module (hw : Works descend bound) (hp : p.Live) (hroom : 4 * p.room < bound) :
    Yields (module descend) p fun node q =>
      Builds p q node none {.moduleDefinition} ∧ q.kind = .eof := by
  unfold module
  refine (yields_start hp).bind ?_
  intro marker q hstarted
  have hle := hstarted.moves.room_le
  have hloop : Yields (loop (moduleRound descend) {}) q fun _ r => Adds q r ⊤ ∧ r.kind = .eof := by
    refine yields_loop (fun progress r => Adds q r ⊤ ∧ Behind progress r) (fun _ r => r.room) ?_
      ⟨(Adds.refl hstarted.live).anything, behind_first q⟩ (by unfold Parser.room; omega)
    intro progress r hpost
    obtain ⟨hadds, hbehind⟩ := hpost
    have hle' := hadds.room_le
    refine (yields_moduleRound hw hadds.live (by omega) hbehind).mono ?_
    rintro (next | _) s hs
    · exact ⟨⟨hadds.more hs.1, hs.2.1⟩, hs.2.2⟩
    · exact ⟨hadds.more hs.1, hs.2⟩
  refine hloop.bind ?_
  intro _ r hpost
  obtain ⟨hadds, hend⟩ := hpost
  refine (Marker.yields_complete_builds (hstarted.adds hadds) (by decide) (le_refl _)).mono ?_
  intro node s hpost
  obtain ⟨hbuilds, hs, -⟩ := hpost
  exact ⟨hbuilds, hs.kind.trans hend⟩

end MarkupSyntax.Grammar
