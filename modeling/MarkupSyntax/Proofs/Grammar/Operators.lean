import MarkupSyntax.Grammar.Operators
import MarkupSyntax.Proofs.Grammar.Control

/-!
# `MarkupSyntax.Proofs.Grammar.Operators`: value expressions

The specifications of the rules for value expressions. What follows an
operand is put around it: the loops over postfixes and operators keep
that one node was made since the start of the expression, and each round
makes a new one around the last.
-/

set_option autoImplicit false

namespace MarkupSyntax.Grammar

open Parse
open scoped Computability
open Sprout hiding node token

variable {p q r : Parser} {descend : Descent} {bound : Nat}

/-! ### Primary expressions -/

/-- `()` or a value in parentheses. -/
theorem yields_parenthesized (hw : Works descend bound) (hp : p.Live)
    (hbound : 4 * p.room ≤ bound) (hkind : p.kind = .lParen) :
    Yields (parenthesized descend) p fun node q =>
      Makes p q node none plainKinds ∧ Takes p q := by
  unfold parenthesized
  refine .startWith hp hkind (by decide) ?_
  intro marker q r hstarted hopen htakes _
  have hdeep : Deep bound r := .of_takes hp hbound htakes
  refine .sees fun sees hsees => .ite (fun h => ?_) fun _ => ?_
  -- `()` is the unit literal.
  · refine (yields_bump hopen.live (by rw [hsees.mp h]; decide) .normal none).bind ?_
    intro _ s hpost
    obtain ⟨hclose, -, -⟩ := hpost
    exact Marker.yields_finish hstarted (hopen.trans hclose).anything
      (htakes.trans hclose.reaches) rfl (le_refl _) rfl
  -- A value that is missing is an error of its own, and so is the parenthesis.
  · refine (yields_expectValue hw hopen.live hdeep.value (some "expression")).bind ?_
    intro _ s hvalue
    refine (yields_expect hvalue.live (by decide) .normal none).bind ?_
    intro _ t hpost
    obtain ⟨hclose, -, -⟩ := hpost
    have hword := (hopen.trans hvalue.adds).trans hclose
    have htakes := htakes.trans (hvalue.adds.trans hclose).reaches
    exact Marker.yields_finish hstarted hword htakes rfl (le_refl _) rfl

/-- An expression without operators. -/
theorem yields_primary (hw : Works descend bound) (hp : p.Live) (hroom : 4 * p.room < bound) :
    Yields (primary descend) p (Finds p none plainKinds) := by
  unfold primary
  refine (yields_literal hp none).bind ?_
  intro node q hq
  cases node with
  | none =>
    obtain ⟨hgrows, hstill⟩ := hq
    have hlive := hgrows.live
    have hroom' : 4 * q.room < bound := by rw [hstill.room hp]; exact hroom
    -- What consumes the current token of `q` is found at `p`.
    have hfound : ∀ node r, Makes q r node none plainKinds ∧ Takes q r →
        Finds p none plainKinds (some node) r := fun node r hr =>
      ⟨hr.1.after hgrows, hstill.takes hr.2⟩
    refine .get ?_
    split
    -- A name by itself.
    · rename_i hkind
      refine .startWith hlive hkind (by decide) ?_
      intro marker r s hstarted hname htakes _
      refine (Marker.yields_finish hstarted hname.anything htakes rfl (le_refl _)
        (show _ ∈ plainKinds from rfl)).bind ?_
      exact fun node t ht => .pure (hfound node t ht)
    · rename_i hkind
      refine (yields_parenthesized hw hlive (by omega) hkind).bind ?_
      exact fun node r hr => .pure (hfound node r hr)
    -- An element starts with a token of its own, so it has the rank for the bound already.
    · rename_i hkind
      refine (hw.element none q hlive hkind hroom').mono ?_
      rintro _ r ⟨node, rfl, hr⟩
      exact hfound node r hr
    · rename_i hkind
      refine (yields_ifExpression hw hlive (by omega) hkind .value).bind ?_
      exact fun node r hr => .pure (hfound node r ⟨makes_of_controls hr.1, hr.2⟩)
    · rename_i hkind
      refine (yields_forExpression hw hlive (by omega) hkind .value).bind ?_
      exact fun node r hr => .pure (hfound node r ⟨makes_of_controls hr.1, hr.2⟩)
    -- Nothing starts here.
    · exact .pure ⟨hgrows, hstill⟩
  | some node =>
    exact .pure hq

/-! ### Calls and member access -/

/-- The arguments of a call. -/
theorem yields_argumentList (hw : Works descend bound) (hp : p.Live)
    (hbound : 4 * p.room ≤ bound) (hkind : p.kind = .lParen) :
    Yields (argumentList descend) p fun _ q =>
      Adds p q (node (some "arguments") .argumentList) ∧ Takes p q := by
  unfold argumentList
  refine .startWith hp hkind (by decide) ?_
  intro marker q r hstarted hopen htakes _
  have hdeep : Deep bound r := .of_takes hp hbound htakes
  -- The arguments, however many there are, are followed by the end of the list.
  have hclose : ∀ s, Adds r s (optional (into "argument" * (mark .comma * into "argument")∗)) →
      Yields (do
        let _ ← expect .rParen
        (← marker.complete .argumentList).into "arguments") s fun _ t =>
          Adds p t (node (some "arguments") .argumentList) ∧ Takes p t := by
    intro s harguments
    refine (yields_expect harguments.live (by decide) .normal none).bind ?_
    intro _ t hpost
    obtain ⟨hclose, -, -⟩ := hpost
    have hword := (hopen.trans harguments).trans hclose
    refine (Marker.yields_complete (hstarted.adds hword) (by decide) (le_refl _)).bind ?_
    intro node u hpost
    obtain ⟨hmakes, hu, -⟩ := hpost
    refine (Completed.yields_into hmakes "arguments").mono ?_
    intro _ v hpost
    obtain ⟨hmakes, hv⟩ := hpost
    exact ⟨hmakes.adds, htakes.trans
      (((harguments.trans hclose).reaches.trans hu.reaches).trans hv.reaches)⟩
  dsimp only
  refine .sees fun sees hsees => .ite (fun _ => ?_) fun _ =>
    hclose r ((Adds.refl hopen.live).mono (optional_one _))
  refine (yields_expectValue hw hopen.live hdeep.value (some "argument")).bind ?_
  intro _ s hfirst
  refine (yields_many (mark .comma * into "argument") hfirst.live ?_).bind ?_
  -- Each further argument follows a comma, which consumed a token.
  · intro t ht hroom
    refine .sees fun sees hsees => .ite (fun _ => .pure (.refl ht)) fun h => ?_
    have hkind : t.kind = .comma := hsees.mp (by simpa using h)
    refine (yields_bump ht (by rw [hkind]; decide) .normal none).bind ?_
    intro _ u hpost
    obtain ⟨hcomma, htakes, -⟩ := hpost
    rw [hkind] at hcomma
    have hdeep' : Deep bound u :=
      hdeep.later (Nat.le_trans hcomma.room_le (Nat.le_trans hroom hfirst.room_le))
    refine (yields_expectValue hw hcomma.live hdeep'.value (some "argument")).bind ?_
    intro _ v hvalue
    exact .pure ⟨hcomma.trans hvalue.adds, htakes.trans hvalue.moves.reaches⟩
  · intro _ t hmore
    exact hclose t ((hfirst.adds.trans hmore).mono (optional_word _))

/-- One node was made since the start of an expression, and its outline
and the current token go together. -/
def Holds (outlines : TokenKind → Set Outline) (p : Parser) (node : Completed) (q : Parser) :
    Prop :=
  Forms p q node (outlines q.kind) ∧ Takes p q

/-- What a round of a loop over an expression answers: one node since
the start of the expression. A further round has consumed a token. -/
def Wraps (during after : TokenKind → Set Outline) (p q : Parser) :
    Round Completed Completed → Parser → Prop
  | .again next, r => Holds during p next r ∧ r.room < q.room
  | .done next, r => Holds after p next r

variable {during after : TokenKind → Set Outline}

/-- A node around the last one makes a further round. -/
theorem wraps_again {next : Completed} (hforms : Forms p r next (during r.kind))
    (htakes : Takes p q) (hlive : q.Live) (hway : Takes q r) :
    Wraps during after p q (.again next) r :=
  ⟨⟨hforms, htakes.trans hway.reaches⟩, hway.room_lt hlive⟩

/-- A loop that wraps a node ends with one node. -/
theorem yields_wrapping {round : Completed → Parse (Round Completed Completed)} {node : Completed}
    (h : Holds during p node q)
    (hround : ∀ node q, Holds during p node q → Yields (round node) q (Wraps during after p q)) :
    Yields (loop round node) q (Holds after p) := by
  refine yields_loop (Holds during p) (fun _ q => q.room) ?_ h (by unfold Parser.room; omega)
  intro node q h
  refine (hround node q h).mono ?_
  rintro (next | next) r hr <;> exact hr

/-- Expressions that bind tighter than all binary operators. -/
def tight : Set Outline := {outline | outline.level? = none}

/-- Expressions without an operator bind tighter than all binary operators. -/
theorem tight_of_isPlain {outline : Outline} (h : outline.kind.isPlain = true) :
    outline ∈ tight := Outline.level?_of_isPlain h

/-- Nodes without an operator do. -/
theorem Makes.tight {node : Completed} (h : Makes p q node none plainKinds) :
    Forms p q node tight := by
  refine .of_makes h fun outline hmem => tight_of_isPlain ?_
  rwa [Set.union_self] at hmem

/-- A node put around a finished one starts with it. -/
theorem startsWith_close {property : Outline → Prop} {first : Sprout} {outline : Outline}
    {field : String} {kind : SyntaxKind} {rest : List Sprout}
    (hfirst : first.outline = outline.withField (some field))
    (h : property (outline.withField (some field))) :
    (close (some first) kind rest).outline.StartsWith field property :=
  ⟨_, _, rfl, by rw [hfirst, Outline.field_withField], hfirst ▸ h⟩

/-- One member access or call: a node around the last one. -/
theorem yields_postfixRound (hw : Works descend bound) (hdeep : Deep bound q) {node : Completed}
    (h : Holds (fun _ => tight) p node q) :
    Yields (postfixRound descend node) q (Wraps (fun _ => tight) (fun _ => tight) p q) := by
  obtain ⟨hforms, htakes⟩ := h
  have hlive := hforms.moves.live
  unfold postfixRound
  refine .get ?_
  dsimp only
  split
  -- `.member`, where the name may be missing.
  · rename_i hkind
    refine Completed.yields_wrap hforms "target" ?_
    intro marker s first outline hopened htight hfirst hstill
    have hlive' := hopened.1.toMoves.live
    refine (yields_bump hlive' (by rw [hstill.kind, hkind]; decide) .normal none).bind ?_
    intro _ t hpost
    obtain ⟨hdot, hdot', -⟩ := hpost
    rw [hstill.kind, hkind] at hdot
    have htakes' := hstill.takes hdot'
    have hend : ∀ u, Adds t u (token (some "member") .identifier) →
        Yields (do
          let node ← marker.complete .memberAccessExpression
          return .again node) u (Wraps (fun _ => tight) (fun _ => tight) p q) := by
      intro u hmember
      obtain ⟨dot, hdot, hdot'⟩ := hdot
      obtain ⟨member, hmember', hmember''⟩ := hmember
      refine (Marker.yields_form ((hopened.grows hdot hdot').grows hmember' hmember'') (by decide)
        (le_refl _) ?_).bind ?_
      · exact startsWith_close hfirst ((Outline.level?_withField ..).trans htight)
      intro next v hpost
      obtain ⟨hforms, hv, -⟩ := hpost
      refine .pure (wraps_again (hforms.mono (Set.singleton_subset_iff.mpr rfl)) htakes hlive ?_)
      exact (htakes'.trans hmember'.toMoves.reaches).trans hv.reaches
    refine .sees fun sees hsees => .ite (fun h => ?_) fun _ => ?_
    · have hname := hsees.mp h
      refine (yields_bump hdot.live (by rw [hname]; decide) .normal (some "member")).bind ?_
      intro _ u hpost
      obtain ⟨hmember, -, -⟩ := hpost
      rw [hname] at hmember
      exact hend u hmember
    · refine (yields_reportHere hdot.live (by decide)).bind ?_
      intro _ u hpost
      obtain ⟨hreport, hfail, -⟩ := hpost
      exact hend u ((Adds.of_grows hreport).of_failed hfail)
  -- A call.
  · rename_i hkind
    refine Completed.yields_wrap hforms "callee" ?_
    intro marker s first outline hopened htight hfirst hstill
    have hlive' := hopened.1.toMoves.live
    refine (yields_argumentList hw hlive' (hdeep.later (hstill.room hlive).le).le
      (hstill.kind.trans hkind)).bind ?_
    intro _ t hpost
    obtain ⟨⟨arguments, hgrows, hclean⟩, htakes'⟩ := hpost
    refine (Marker.yields_form (hopened.grows hgrows hclean) (by decide) (le_refl _) ?_).bind ?_
    · exact startsWith_close hfirst ((Outline.level?_withField ..).trans htight)
    intro next u hpost
    obtain ⟨hforms, hu, -⟩ := hpost
    exact .pure (wraps_again (hforms.mono (Set.singleton_subset_iff.mpr rfl)) htakes hlive
      ((hstill.takes htakes').trans hu.reaches))
  · exact .pure ⟨hforms, htakes⟩

/-- What a rule answers that finds a tight expression or nothing. -/
def FindsTight (p : Parser) : Option Completed → Parser → Prop
  | some node, q => Holds (fun _ => tight) p node q
  | none, q => Grows p q [] ∧ Still p q

/-- A primary expression with what follows it. -/
theorem yields_postfixExpression (hw : Works descend bound) (hp : p.Live)
    (hroom : 4 * p.room < bound) :
    Yields (postfixExpression descend) p (FindsTight p) := by
  unfold postfixExpression
  refine (yields_primary hw hp hroom).bind ?_
  rintro (_ | node) q hq
  · exact .pure hq
  have htight : Holds (fun _ => tight) p node q := ⟨Makes.tight hq.1, hq.2⟩
  obtain ⟨sprout, hgrows, hpoints, -⟩ := hq.1
  refine (Completed.yields_kind hgrows hpoints).bind ?_
  intro kind _ hpost
  obtain ⟨rfl, -⟩ := hpost
  -- Only some expressions can be called or have members.
  refine .ite (fun _ => ?_) fun _ => .pure htight
  refine (yields_wrapping htight fun node q h =>
    yields_postfixRound hw (.of_takes hp (by omega) h.2) h).bind ?_
  exact fun node r hr => .pure hr

/-! ### Operators -/

/-- A token by itself is a word. -/
theorem obeys_token (kind : TokenKind) (stop : Nat) (field : Option String) :
    ObeysList production [.token (.token kind) stop field] ∧
      [Sprout.token (.token kind) stop field].map role ∈ token field kind :=
  ⟨⟨trivial, trivial⟩, _, rfl, rfl⟩

/-- An operand by itself is a word. -/
theorem map_role_mem_into {operand : Sprout} {field : String}
    (hfield : operand.field = some field) : [operand].map role ∈ into field :=
  ⟨operand.kind, Set.mem_univ _, by rw [← hfield]; rfl⟩

/-- A minus and its operand. -/
theorem yields_negation (hw : Works descend bound) (hp : p.Live) (hbound : 4 * p.room ≤ bound)
    (hkind : p.kind = .minus) :
    Yields (negation descend) p fun node q => Holds (fun _ => tight) p node q := by
  unfold negation
  refine (yields_start hp).bind ?_
  intro marker q hstarted
  have hkind' : q.kind = .minus := hstarted.kind.trans hkind
  obtain ⟨hminus, htakes, -⟩ := q.grows_bump hstarted.live .normal (some "operator") none
    (by rw [hkind']; decide) rfl
  rw [hkind'] at hminus
  have htakes' := hstarted.takes htakes
  have hdeep : Deep bound _ := .of_takes hp hbound htakes'
  refine .modify ((hw.operators unaryPrecedence _ hminus.live hdeep.operators).bind ?_)
  intro part s hs
  refine (yields_operand hs "operand" (by decide)).bind ?_
  rintro _ t ⟨operand, hoperand, hfield, hconcludes, hclean⟩
  have hopened := (hstarted.openedAs.grows hminus fun _ => obeys_token ..).grows hoperand
    fun ht => ⟨⟨hclean ht, trivial⟩, map_role_mem_into hfield⟩
  refine (Marker.yields_form hopened (by decide) ?_ ?_).mono ?_
  · rw [one_mul]
    exact le_refl _
  · exact ⟨_, _, rfl, rfl, by rw [field_outline, hfield], hconcludes.level?_eq_none⟩
  intro node u hpost
  obtain ⟨hforms, hu, -⟩ := hpost
  exact ⟨hforms.mono (Set.singleton_subset_iff.mpr rfl),
    htakes'.trans (hoperand.toMoves.reaches.trans hu.reaches)⟩

/-- An operand of a binary operator. -/
theorem yields_unary (hw : Works descend bound) (hp : p.Live) (hroom : 4 * p.room < bound) :
    Yields (unary descend) p (FindsTight p) := by
  unfold unary
  refine .sees fun sees hsees => .ite (fun h => ?_) fun _ => yields_postfixExpression hw hp hroom
  have hkind := hsees.mp h
  have hnested : Yields (nested (nestingTooDeep none) (negation descend)) p
      fun node q => Holds (fun _ => tight) p node q := by
    -- Nesting is too deep already.
    refine yields_nested (fun q hq => ?_) fun q hq => ?_
    · have hgrows := hq.grows hp
      have hminus : q.kind = .minus := hq.kind.trans hkind
      refine (yields_nestingTooDeep hgrows.live (by rw [hminus]; decide) (by rw [hminus]; decide)
        none).mono ?_
      exact fun node r hr => ⟨Makes.tight (hr.1.after hgrows), hq.takes hr.2⟩
    -- The operand is one level further in, and the level is left again behind it.
    · have hgrows := hq.grows hp
      have hbound : 4 * q.room ≤ bound := by
        rw [hq.room hp]
        omega
      refine (yields_negation hw hgrows.live hbound (hq.kind.trans hkind)).mono ?_
      intro node r hr
      have hleave := quiet_leaveNesting r
      exact ⟨(hr.1.after hgrows).quiet hleave, (hq.takes hr.2).trans hleave.reaches⟩
  exact hnested.bind fun node q hq => .pure hq

/-- An expression of operators that bind at least this tightly, as far as
a loop over them has come. -/
def Going (precedence : Nat) (next : TokenKind) : Set Outline :=
  {outline | outline.Continues precedence next}

/-- The expression behind the loop. -/
def Over (precedence : Nat) (next : TokenKind) : Set Outline :=
  {outline | outline.Concludes precedence next}

/-- What follows the condition of a conditional. -/
theorem yields_conditionalRest (hw : Works descend bound) (hdeep : Deep bound q)
    {condition : Completed} {precedence : Nat} (h : Holds (Going precedence) p condition q)
    (hkind : q.kind = .question) (hprecedence : precedence ≤ conditionalPrecedence) :
    Yields (conditionalRest descend condition) q fun node r =>
      Wraps (Going precedence) (Over precedence) p q (.again node) r := by
  obtain ⟨hforms, htakes⟩ := h
  have hlive := hforms.moves.live
  unfold conditionalRest
  refine Completed.yields_wrap hforms "condition" ?_
  intro marker s first outline hopened hgoing hfirst hstill
  have hlive' := hopened.1.toMoves.live
  refine (yields_bump hlive' (by rw [hstill.kind, hkind]; decide) .normal none).bind ?_
  intro _ t hpost
  obtain ⟨hquestion, htakes', -⟩ := hpost
  rw [hstill.kind, hkind] at hquestion
  have htakes' := hstill.takes htakes'
  have hdeep' : Deep bound t := hdeep.later (htakes'.room_lt hlive).le
  refine (yields_expectValue hw hquestion.live hdeep'.value (some "consequent")).bind ?_
  intro _ u hconsequent
  refine (yields_expect hconsequent.live (by decide) .normal none).bind ?_
  intro _ v hpost
  obtain ⟨hcolon, -, -⟩ := hpost
  -- The condition and the `?` are consumed, so both branches may descend to any depth.
  have hdeep'' : Deep bound v := hdeep'.later (hconsequent.adds.trans hcolon).room_le
  refine (hw.operators conditionalPrecedence v hcolon.live hdeep''.operators).bind ?_
  intro part w hpart
  refine (yields_operand hpart "alternative" (by decide)).bind ?_
  rintro _ x ⟨alternative, halternative, hfield, hconcludes, hclean⟩
  obtain ⟨middle, hmiddle, hmiddle'⟩ := (hquestion.trans hconsequent.adds).trans hcolon
  have hopened := (hopened.grows hmiddle hmiddle').grows halternative
    fun hx => ⟨⟨hclean hx, trivial⟩, map_role_mem_into hfield⟩
  refine (Marker.yields_form hopened (by decide) ?_ ?_).mono ?_
  · show _ ≤ into "condition" * mark .question * into "consequent" * mark .colon *
      into "alternative"
    simp only [mul_assoc]
    exact le_refl _
  · refine startsWith_close hfirst ?_
    rw [Outline.leads_withField]
    exact hgoing.2 _ (by rw [hkind]; rfl)
  intro node y hpost
  obtain ⟨hforms, hy, -⟩ := hpost
  refine wraps_again (hforms.mono (Set.singleton_subset_iff.mpr ?_)) htakes hlive
    ((htakes'.trans ((hconsequent.adds.trans hcolon).reaches.trans
      halternative.toMoves.reaches)).trans hy.reaches)
  rw [hy.kind]
  refine Outline.continues_conditional rfl ?_ hconcludes hprecedence
  show (outlines (first :: (middle ++ [alternative]))).getLast? = _
  rw [← List.cons_append, outlines_append]
  exact List.getLast?_concat

/-- What follows the left operand of a binary operator. -/
theorem yields_binaryRest (hw : Works descend bound) (hdeep : Deep bound q) {left : Completed}
    {precedence binding : Nat} (h : Holds (Going precedence) p left q)
    (hquestion : q.kind ≠ .question) (hbinding : binaryPrecedence? q.kind = some binding)
    (hprecedence : precedence ≤ binding) :
    Yields (binaryRest descend left binding) q fun node r =>
      Wraps (Going precedence) (Over precedence) p q (.again node) r := by
  obtain ⟨hforms, htakes⟩ := h
  have hlive := hforms.moves.live
  -- Only the tokens of operators bind, and the end of the source is none.
  have notEnd : q.kind ≠ .eof := fun heof => by rw [heof] at hbinding; cases hbinding
  have hbinding' : Outline.binding? q.kind = some binding := by
    rw [Outline.binding?, if_neg hquestion, hbinding]
  unfold binaryRest
  refine Completed.yields_wrap hforms "left" ?_
  intro marker s first outline hopened hgoing hfirst hstill
  obtain ⟨hoperator, htakes', -⟩ := s.grows_bump hopened.1.toMoves.live .normal (some "operator")
    none (hstill.kind ▸ notEnd) rfl
  have htakes' := hstill.takes htakes'
  have hdeep' : Deep bound _ := hdeep.later (htakes'.room_lt hlive).le
  refine .modify ((hw.operators (binding + 1) _ hoperator.live hdeep'.operators).bind ?_)
  intro part u hpart
  refine (yields_operand hpart "right" (by decide)).bind ?_
  rintro _ v ⟨right, hright, hfield, hconcludes, hclean⟩
  -- Each operator has a token kind of its own; the field is all that the production knows of it.
  have hword : [Sprout.token (.token s.kind) s.range.stop (some "operator")].map role
      ∈ Grammar.part (some "operator") (Set.range SyntaxKind.token) := ⟨_, ⟨s.kind, rfl⟩, rfl⟩
  have hopened := (hopened.grows hoperator fun _ => ⟨⟨trivial, trivial⟩, hword⟩).grows hright
    fun hv => ⟨⟨hclean hv, trivial⟩, map_role_mem_into hfield⟩
  have hleft : first.outline.field = some "left" := by rw [hfirst, Outline.field_withField]
  have hlevel : (close (some first) .binaryExpression
      ([] ++ [.token (.token s.kind) s.range.stop (some "operator")] ++ [right])).outline.level?
        = some binding := by
    rw [Outline.level?_binary rfl rfl hleft rfl rfl, hstill.kind, hbinding]
  refine (Marker.yields_form hopened (by decide) (le_refl _) ?_).mono ?_
  · refine ⟨_, _, _, _, rfl, hleft, rfl, ?_, hlevel, ?_, ?_⟩
    · rw [field_outline, hfield]
    · rw [hfirst, Outline.leads_withField]
      exact hgoing.2 binding hbinding'
    · exact fun level hmem => hconcludes.1 level hmem
  intro node w hpost
  obtain ⟨hforms, hw, -⟩ := hpost
  refine wraps_again (hforms.mono (Set.singleton_subset_iff.mpr ?_)) htakes hlive
    ((htakes'.trans hright.toMoves.reaches).trans hw.reaches)
  rw [hw.kind]
  exact Outline.continues_binary hlevel rfl hconcludes (Outline.binaryPrecedence_bounds hbinding).1
    hprecedence

/-- One operator: a node around the last one. -/
theorem yields_operatorRound (hw : Works descend bound) (hdeep : Deep bound q)
    {left : Completed} {precedence : Nat} (h : Holds (Going precedence) p left q) :
    Yields (operatorRound descend precedence left) q
      (Wraps (Going precedence) (Over precedence) p q) := by
  -- The loop ends at a token that is no operator, or none that binds so tightly.
  have hdone : (∀ binding ∈ Outline.binding? q.kind, binding < precedence) →
      Holds (Over precedence) p left q := fun hlt =>
    ⟨h.1.mono fun outline hmem => ⟨hmem.1, .inr hlt⟩, h.2⟩
  unfold operatorRound
  refine .get ?_
  dsimp only
  refine .ite (fun hkind => ?_) fun hkind => ?_
  -- A conditional binds loosest of all.
  · refine .ite (fun hlt => .pure (hdone fun binding hmem => ?_)) fun hle => ?_
    · rw [Outline.binding?, if_pos hkind] at hmem
      exact Option.some.inj hmem ▸ hlt
    · exact (yields_conditionalRest hw hdeep h hkind (by omega)).bind fun node r hr => .pure hr
  · have hnext : Outline.binding? q.kind = binaryPrecedence? q.kind := if_neg hkind
    cases hbinding : binaryPrecedence? q.kind with
    | none =>
      refine .pure (hdone fun binding hmem => ?_)
      rw [hnext, hbinding] at hmem
      cases hmem
    | some binding =>
      refine .ite (fun hlt => .pure (hdone fun binding' hmem => ?_)) fun hle => ?_
      · rw [hnext, hbinding] at hmem
        exact Option.some.inj hmem ▸ hlt
      · exact (yields_binaryRest hw hdeep h hkind hbinding (by omega)).bind
          fun node r hr => .pure hr

/-- An expression with its operators. -/
theorem yields_operators (hw : Works descend bound) (hp : p.Live) (hroom : 4 * p.room < bound)
    (precedence : Nat) : Yields (operators descend precedence) p (Operates precedence p) := by
  unfold operators
  refine (yields_unary hw hp hroom).bind ?_
  rintro (_ | node) q hq
  · exact .pure hq
  obtain ⟨sprout, hgrows, hpoints, hfield, htight, hclean⟩ := hq.1
  refine (Completed.yields_kind hgrows hpoints).bind ?_
  intro kind _ hpost
  obtain ⟨rfl, rfl⟩ := hpost
  -- A node that is no operand takes no operator either.
  refine .ite (fun h => .pure ⟨?_, hq.2⟩) fun _ => ?_
  · refine ⟨sprout, hgrows, hpoints, hfield, ⟨fun level hlevel => ?_, .inl ?_⟩, hclean⟩
    · rw [show sprout.outline.level? = none from htight] at hlevel
      cases hlevel
    · rw [Outline.isForeign, kind_outline, h, Bool.true_or]
  have hgoing : Holds (Going precedence) p node q := by
    refine ⟨hq.1.mono fun outline hmem => ?_, hq.2⟩
    have hnone : outline.level? = none := hmem
    constructor
    · rw [hnone]
      exact nofun
    · intro _ _
      right
      rw [hnone]
      exact nofun
  refine (yields_wrapping hgoing fun node q h =>
    yields_operatorRound hw (.of_takes hp (by omega) h.2) h).bind ?_
  exact fun node r hr => .pure hr

/-- A value expression, one level of nesting. -/
theorem yields_value (hw : Works descend bound) (hp : p.Live) (hroom : 4 * p.room + 1 < bound)
    (field : Option String) : Yields (value descend field) p (Finds p field Set.univ) := by
  unfold value
  refine .seesAny fun sees hsees => .ite (fun _ => .pure (.nothing hp field _)) fun h => ?_
  have hkind : p.kind ∈ expressionStart := hsees.mp (by simpa using h)
  -- So an error node for the whole expression would consume a token.
  have hstart : p.kind ≠ .eof ∧ p.kind ∉ groupClosers := by
    revert hkind
    cases p.kind <;> decide
  refine (yields_enterNesting p).bind ?_
  intro entered q hq
  have hgrows := hq.grows hp
  refine .ite (fun _ => ?_) fun _ => ?_
  -- Nesting is too deep already.
  · refine (yields_nestingTooDeep hgrows.live (hq.kind ▸ hstart.1) (hq.kind ▸ hstart.2)
      field).bind ?_
    exact fun node r hr =>
      .pure ⟨(hr.1.after hgrows).mono (Set.subset_univ _), hq.takes hr.2⟩
  -- Inside, the source has as much left as before: entering a level consumes nothing.
  have hroom' : 4 * q.room + 1 < bound := by rw [hq.room hp]; exact hroom
  have hinside : Yields (ensuring Parser.leaveNesting (descend (.operators 0))) q
      (Finds p none Set.univ) := by
    refine .ensuring ((hw.operators 0 q hgrows.live hroom').mono ?_)
    intro node r hr
    have hr := hr.finds
    cases node with
    | none =>
      have hleave := quiet_leaveNesting r
      exact ⟨hgrows.trans (hr.1.trans (hleave.grows hr.1.live)),
        (hq.toStill.trans hr.2).trans hleave.toStill⟩
    | some node =>
      have hleave := quiet_leaveNesting r
      exact ⟨(hr.1.after hgrows).quiet hleave, (hq.takes hr.2).trans hleave.reaches⟩
  refine hinside.bind ?_
  rintro (_ | node) r hr
  -- Nothing was found, and nothing goes into the field.
  · exact .pure hr
  refine (Completed.yields_setField hr.1 field).bind ?_
  intro _ s hpost
  obtain ⟨rfl, hmakes, hs⟩ := hpost
  exact .pure ⟨hmakes, hr.2.trans hs.reaches⟩

end MarkupSyntax.Grammar
