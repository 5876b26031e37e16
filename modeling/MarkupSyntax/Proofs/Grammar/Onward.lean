import MarkupSyntax.Proofs.Grammar.Definitions
import MarkupSyntax.Proofs.Grammar.Starts
import MarkupSyntax.Proofs.Parse.Onward

/-!
# `MarkupSyntax.Proofs.Grammar.Onward`: rules that begin with the current token

Of most rules it is known already that they consume the current token, or
nothing. Here are those that may do neither, since they begin with a part
that may be missing, and those that read the current token anew first.

The body of a plain element is the one rule that may end with a node whose
marker was started in another context: what is mixed content is read as
text, and its marker stands where code would begin (`BodyOnward`).
-/

set_option autoImplicit false

namespace MarkupSyntax

open Grammar Parse

variable {p q r : Parser} {descend : Descent} {bound : Nat} {context : LexContext}

namespace Parse

/-- A rule whose node takes tokens goes on. -/
theorem goesOn_of_takes {m : Parse Completed} {made : Completed → Parser → Prop}
    (h : Yields m p fun node q => made node q ∧ Takes p q) : GoesOn m p :=
  h.leaves.mono fun _ _ hq => hq.2.onward

/-- A rule that finds its node, or finds nothing and stays, goes on. -/
theorem goesOn_of_finds {m : Parse (Option Completed)} {field : Option String}
    {kinds : Set SyntaxKind} (h : Yields m p (Finds p field kinds)) : GoesOn m p :=
  .of_yields (h.mono fun result q hq => by cases result <;> exact hq.2)

/-- What stands for a missing part has no tokens, and the parser stays. -/
theorem goesOn_missing (hp : p.Live) (field : Option String) (code : Code) :
    GoesOn (missing field code) p :=
  .stays (stays_reportHere code) fun _ _ hq => .start (hq.reaches.live hp) fun marker _ _ =>
    goesOn_completeInto marker _ field

/-- A part that may be missing goes on: the part is there already, or its
placeholder takes nothing. -/
theorem goesOn_orMissing (hp : p.Live) (part : Option Completed) (field : String) (code : Code) :
    GoesOn (orMissing part field code) p := by
  unfold orMissing
  split
  · exact (stays_into _ field).goesOn
  · exact (goesOn_missing hp _ code).bind fun _ _ _ => .pure _

end Parse

namespace Grammar

/-- The parse stands where all constructs can be parsed. -/
structure Roomy (bound : Nat) (p : Parser) : Prop where
  live : p.Live
  deep : Deep bound p

namespace Roomy

/-- There is room for the recursion later if there was before: a level that was
entered is left again. -/
theorem reaches (h : Roomy bound p) (h' : Reaches p q) : Roomy bound q :=
  ⟨h'.live h.live, h.deep.later (h'.room_le h.live)⟩

/-- There is still room after a rule that went on. -/
theorem onward (h : Roomy bound p) (h' : Onward context p q) : Roomy bound q := h.reaches h'.reaches

/-- There is still room after a rule that stayed. -/
theorem still (h : Roomy bound p) (h' : Still p q) : Roomy bound q := h.reaches h'.reaches

end Roomy

/-! ### Parts that may be missing -/

/-- What is nested too deep is skipped token by token, by the loop that counts
the brackets, up to a place where the rule around it may go on. -/
theorem goesOn_nestingTooDeep (hp : p.Live) (field : Option String) :
    GoesOn (nestingTooDeep field) p := by
  unfold nestingTooDeep
  refine .stays (stays_reportHere _) fun _ q hq => .start (hq.reaches.live hp) fun marker r hr => ?_
  have hloop : GoesOn (loop skipGroup 0) r := by
    refine .loop fun depth s hs => ?_
    unfold skipGroup
    refine .stays (stays_sees _) fun _ t ht => .ite (fun _ => .pure _) fun _ => ?_
    refine .stays (stays_seesAny _) fun _ u hu => .stays (stays_seesAny _) fun _ v hv => ?_
    have hlive := ((ht.trans hu).trans hv).reaches.live (hs.live hr.live)
    refine .ite (fun _ => .pure _) fun _ => (goesOn_bump hlive _ _).bind fun _ _ _ => ?_
    exact .ite (fun _ => .pure _) fun _ => .pure _
  exact hloop.bind fun _ _ _ => goesOn_completeInto marker _ field

/-- A type that is expected goes on, with or without a type. -/
theorem goesOn_expectType (hp : p.Live) (field : Option String) : GoesOn (expectType field) p := by
  unfold expectType
  refine (goesOn_of_finds (yields_type hp field)).bind fun result q hq => ?_
  split
  · exact .pure _
  · exact goesOn_missing (hq.live hp) field _

/-- A value that is expected goes on, with or without a value. -/
theorem goesOn_expectValue (hw : Works descend bound) (hp : Roomy bound p)
    (field : Option String) : GoesOn (expectValue descend field) p := by
  unfold expectValue
  refine (goesOn_of_finds (hw.value field p hp.live hp.deep.value)).bind fun result q hq => ?_
  split
  · exact .pure _
  · exact goesOn_missing (hq.live hp.live) field _

/-- A member of an enumeration goes on over its name. -/
theorem goesOn_enumMember (hp : p.Live) : GoesOn enumMember p := by
  unfold enumMember
  refine .stays (stays_sees _) fun _ q hq => .ite (fun _ => ?_) fun _ => ?_
  · refine .start (hq.reaches.live hp) fun marker r hr => ?_
    refine GoesOnIn.bind (goesOn_bump hr.live _ _) fun _ _ _ => ?_
    exact (goesOn_complete marker _).bind fun _ _ _ => .pure _
  · exact (stays_reportWith _ _).goesOn

/-- The members of an enumeration go on, one behind the other. -/
theorem goesOn_enumMembers (hp : p.Live) : GoesOn enumMembers p := by
  unfold enumMembers
  refine .start hp fun marker q hq => (goesOn_eat hq.live _ _ _).bind fun _ r hr => ?_
  have hlive := hr.live hq.live
  refine (goesOn_enumMember hlive).bind fun _ s hs => ?_
  refine GoesOnIn.bind (.whileTrue fun t ht => ?_) fun _ _ _ => goesOn_completeInto marker _ _
  have hlive' := ht.live (hs.live hlive)
  refine (goesOn_eat hlive' _ _ _).bind fun _ u hu => .ite (fun _ => .pure _) fun _ => ?_
  exact (goesOn_enumMember (hu.live hlive')).bind fun _ _ _ => .pure _

/-- Arguments go on, from parenthesis to parenthesis. -/
theorem goesOn_arguments (hw : Works descend bound) (hp : Roomy bound p) :
    GoesOn (arguments descend) p := by
  unfold arguments
  refine .start hp.live fun marker q hq => (goesOn_bump hq.live _ _).bind fun _ r hr => ?_
  have hr := (hp.still hq.toStill).onward hr
  have hclose : ∀ s, Roomy bound s → GoesOn (do
      let _ ← expect .rParen
      (← marker.complete .argumentList).setField "arguments") s := fun s hs =>
    (goesOn_expect hs.live _ _ _).bind fun _ _ _ => goesOn_completeInto marker _ _
  refine .stays (stays_sees _) fun _ s hs => ?_
  have hs := hr.still hs
  refine .ite (fun _ => ?_) fun _ => hclose s hs
  refine (goesOn_expectValue hw hs _).bind fun _ t ht => ?_
  have ht := hs.onward ht
  refine GoesOnIn.bind (.whileTrue fun u hu => ?_) fun _ u hu => hclose u (ht.onward hu)
  have hu := ht.onward hu
  refine .stays (stays_sees _) fun _ v hv => .ite (fun _ => .pure _) fun _ => ?_
  have hv := hu.still hv
  refine (goesOn_bump hv.live _ _).bind fun _ w hw' => ?_
  exact (goesOn_expectValue hw (hv.onward hw') _).bind fun _ _ _ => .pure _

/-! ### Values in braces -/

/-- A value in braces goes on over both braces. The closing one is read in the
context that follows it. -/
theorem goesOn_interpolationAs (hw : Works descend bound) (hp : Roomy bound p)
    (kind : SyntaxKind) (after : LexContext) :
    GoesOn (interpolationAs descend kind after) p := by
  unfold interpolationAs
  refine .start hp.live fun marker q hq => ?_
  have hq' := hp.still hq.toStill
  refine (goesOn_bump hq'.live _ _).bind fun _ r hr => ?_
  have hr' := hq'.onward hr
  refine (goesOn_expectValue hw hr' _).bind fun _ s hs => ?_
  exact (goesOn_expect (hr'.onward hs).live _ _ _).bind fun _ _ _ => goesOn_complete marker kind

/-- An interpolation goes on over its braces. -/
theorem goesOn_interpolation (hw : Works descend bound) (hp : Roomy bound p)
    (field : Option String) : GoesOn (interpolation descend field) p :=
  (goesOn_interpolationAs hw hp _ _).bind fun node _ _ => (stays_setField node field).goesOn

/-- The right side of a property goes on, behind reading its first token in
code. -/
theorem goesOn_rightSide (hw : Works descend bound) (hp : Roomy bound p)
    (field : Option String) : GoesOnIn .normal (rightSide descend field) p := by
  unfold rightSide
  have hread := hp.onward (Onward.of_relex p .normal)
  refine .relex (.get ?_)
  split
  · rename_i hkind
    refine (hw.element field _ hread.live hkind hread.deep.element).leaves.mono ?_
    rintro _ q ⟨node, -, -, htakes⟩
    exact htakes.onward
  · exact (goesOn_interpolation hw hread field).bind fun _ _ _ => .pure _
  · refine (goesOn_of_finds (yields_literal hread.live field)).bind fun result q hq => ?_
    split
    · exact .pure _
    · exact (goesOn_missing (hq.live hread.live) field _).bind fun _ _ _ => .pure _

/-! ### Parameters and modules -/

/-- A parameter begins with its name, read as in a tag. -/
theorem goesOn_propertyDefinition (hw : Works descend bound) (hp : Roomy bound p) :
    GoesOnIn .tag (propertyDefinition descend) p := by
  unfold propertyDefinition
  refine (yields_start hp.live).leaves.bind fun marker q hq => .modify ?_
  have hread : Onward .tag p (q.relex .tag) := .inr ⟨.relex hq.way .tag, Parser.context_relex .tag⟩
  -- Behind the name a token is read anew only after `=`, in the context that it has there.
  have hrest : ∀ r, Roomy bound r → GoesOn (do
      let _ ← expect .colon
      let _ ← expectType (some "type")
      if ← eat .equal then let _ ← rightSide descend (some "default")
      let node ← marker.complete .propertyDefinition
      node.setField "parameter") r := by
    intro r hr
    refine (goesOn_expect hr.live _ _ _).bind fun _ s hs => ?_
    have hs := hr.onward hs
    refine (goesOn_expectType hs.live _).bind fun _ t ht => ?_
    have ht := hs.onward ht
    refine (yields_eat ht.live (by decide) _ _).leaves.bind ?_
    rintro (_ | _) u hu
    · cases hu
      exact goesOn_completeInto marker _ _
    · obtain ⟨-, htakes, hcontext⟩ := hu
      have hside := goesOn_rightSide hw (ht.onward htakes.onward) (some "default")
      rw [← hcontext] at hside
      exact (hside.bind fun _ _ _ => goesOn_completeInto marker _ _).mono
        fun _ _ hv => htakes.onward.trans hv
  refine Leaves.mono (GoesOnIn.stays (stays_seesAny _) fun _ r hr => ?_) fun _ _ hs => hread.trans hs
  have hr := (hp.onward hread).still hr
  refine .ite (fun _ => ?_) fun _ => ?_
  · exact (goesOn_bump hr.live _ _).bind fun _ s hs => hrest s (hr.onward hs)
  · exact (stays_reportWith _ _).goesOn.bind fun _ s hs => hrest s (hr.onward hs)

/-- A module goes on up to the end of its source. -/
theorem goesOn_module (hw : Works descend bound) (hp : Roomy bound p) :
    GoesOn (module descend) p := by
  unfold module
  refine .start hp.live fun marker q hq => ?_
  refine GoesOnIn.bind (.loop fun progress r hr => ?_) fun _ _ _ => goesOn_complete marker _
  have hr := (hp.still hq.toStill).onward hr
  unfold moduleRound
  refine .stays (stays_sees _) fun _ s hs => .ite (fun _ => .pure _) fun _ => ?_
  refine .stays (stays_mustProgress _) fun _ t ht => ?_
  have ht := (hr.still hs).still ht
  have hitem : GoesOn (moduleItem descend) t :=
    .of_yields ((yields_moduleItem hw ht.live ht.deep.element).mono fun _ _ hu => hu.2)
  refine hitem.bind fun _ u hu => .ite (fun _ => .pure _) fun _ => ?_
  have hu := ht.onward hu
  refine (Recovery.goesOn_skipUnexpected (.pure false) hu.live).bind fun _ v hv => ?_
  refine .ite (fun _ => ?_) fun _ => .pure _
  -- A safe token that starts no item.
  refine .start (hu.onward hv).live fun marker w hw => ?_
  refine (goesOn_bump hw.live _ _).bind fun _ _ _ => ?_
  exact (goesOn_complete marker _).bind fun _ _ _ => .pure _

/-! ### Operators -/

/-- What follows a condition takes the `?` at least. -/
theorem goesOn_conditionalRest (hw : Works descend bound) (hp : Roomy bound p)
    (condition : Completed) : GoesOn (conditionalRest descend condition) p := by
  unfold conditionalRest
  refine .stays (stays_into _ _) fun _ q hq => ?_
  have hq := hp.still hq
  refine (goesOn_precede hq.live condition).bind fun marker r hr => ?_
  have hr := hq.onward hr
  refine (goesOn_bump hr.live _ _).bind fun _ s hs => ?_
  have hs := hr.onward hs
  refine (goesOn_expectValue hw hs _).bind fun _ t ht => ?_
  have ht := hs.onward ht
  refine (goesOn_expect ht.live _ _ _).bind fun _ u hu => ?_
  have hu := ht.onward hu
  refine GoesOnIn.bind (goesOn_of_finds ((hw.operators _ u hu.live hu.deep.operators).mono
    fun _ _ => Operates.finds)) fun _ v hv => ?_
  exact (goesOn_orMissing (hu.onward hv).live _ _ _).bind fun _ _ _ => goesOn_complete marker _

/-- What follows a left operand takes the operator at least. -/
theorem goesOn_binaryRest (hw : Works descend bound) (hp : Roomy bound p)
    (left : Completed) (precedence : Nat) : GoesOn (binaryRest descend left precedence) p := by
  unfold binaryRest
  refine .stays (stays_into _ _) fun _ q hq => ?_
  have hq := hp.still hq
  refine (goesOn_precede hq.live left).bind fun marker r hr => ?_
  have hr := hq.onward hr
  refine (goesOn_bump hr.live _ _).bind fun _ s hs => ?_
  have hs := hr.onward hs
  refine GoesOnIn.bind (goesOn_of_finds ((hw.operators _ s hs.live hs.deep.operators).mono
    fun _ _ => Operates.finds)) fun _ t ht => ?_
  exact (goesOn_orMissing (hs.onward ht).live _ _ _).bind fun _ _ _ => goesOn_complete marker _

/-- A round of the loop over operators takes an operator, or ends the loop. -/
theorem goesOn_operatorRound (hw : Works descend bound) (hp : Roomy bound p)
    (precedence : Nat) (left : Completed) : GoesOn (operatorRound descend precedence left) p := by
  unfold operatorRound
  refine .get (.ite (fun _ => .ite (fun _ => .pure _) fun _ => ?_) fun _ => ?_)
  · exact (goesOn_conditionalRest hw hp left).bind fun _ _ _ => .pure _
  · split
    · exact .pure _
    · refine .ite (fun _ => .pure _) fun _ => ?_
      exact (goesOn_binaryRest hw hp left _).bind fun _ _ _ => .pure _

/-! ### Lists -/

/-- A list of properties goes on, behind reading its first token in a tag. -/
theorem goesOn_propertyList (hw : Works descend bound) (hp : Roomy bound p)
    (field : Option String) (inArm : Bool) : GoesOnIn .tag (propertyList descend field inArm) p := by
  unfold propertyList
  have hread := hp.onward (Onward.of_relex p .tag)
  refine .relex (.stays (settled_seesPropertyItem.stays hread.live) fun _ q hq => ?_)
  refine .ite (fun _ => .pure _) fun _ => ?_
  have hq' := hread.still hq
  have hcontext : q.context = .tag := hq.context.trans (Parser.context_relex _)
  refine GoesOnIn.bind (ItemList.goesOn_parse (fits_propertyList hw hq'.deep.le inArm) hq'.live
    hcontext) fun node _ _ => ?_
  exact (stays_setField node field).goesOn.bind fun _ _ _ => .pure _

/-- A sequence of elements goes on, behind reading its first token in code. -/
theorem goesOn_elementsExpression (hw : Works descend bound) (hp : Roomy bound p)
    (field : Option String) (inArm : Bool) :
    GoesOnIn .normal (elementsExpression descend field inArm) p := by
  unfold elementsExpression
  have hread := hp.onward (Onward.of_relex p .normal)
  refine .relex (.stays (settled_seesElementsItem.stays hread.live) fun _ q hq => ?_)
  refine .ite (fun _ => .pure _) fun _ => ?_
  have hq' := hread.still hq
  have hcontext : q.context = .normal := hq.context.trans (Parser.context_relex _)
  refine GoesOnIn.bind (ItemList.goesOn_parse (fits_elementsExpression hw hq'.deep.element inArm)
    hq'.live hcontext) fun node _ _ => ?_
  exact (stays_setField node field).goesOn.bind fun _ _ _ => .pure _

/-! ### Bodies of elements -/

/-- A run of text goes on over the tokens of its kinds. -/
theorem goesOn_textNode (hp : p.Live) (kind : SyntaxKind) (tokens : List TokenKind)
    (context : LexContext) : GoesOn (textNode kind tokens context) p := by
  unfold textNode
  refine .start hp fun marker q hq => ?_
  refine GoesOnIn.bind (.whileTrue fun r hr => ?_) fun _ _ _ => goesOn_complete marker kind
  refine .stays (stays_seesAny _) fun _ s hs => .ite (fun _ => .pure _) fun _ => ?_
  exact (goesOn_bump (hs.reaches.live (hr.live hq.live)) _ _).bind fun _ _ _ => .pure _

/-- A run of text whose node is dropped goes on over the same tokens. -/
theorem goesOn_textRun (hp : p.Live) (kind : SyntaxKind) (tokens : List TokenKind)
    (context : LexContext) : GoesOn (textRun kind tokens context) p := by
  rw [textRun_eq]
  exact (goesOn_textNode hp kind tokens context).bind fun _ _ _ => .pure _

/-- A token that has no place in text is taken with an error. -/
theorem goesOn_strayToken (hp : p.Live) : GoesOn strayToken p := by
  unfold strayToken
  refine .stays stays_reportUnexpected fun _ q hq => .start (hq.reaches.live hp) fun marker r hr => ?_
  refine (goesOn_bump hr.live _ _).bind fun _ _ _ => ?_
  exact (goesOn_complete marker _).bind fun _ _ _ => .pure _

/-- The content of plain text goes on, item by item, in the context of text. The
hypothesis says that its first token is read as text already. -/
theorem goesOn_textContent (hw : Works descend bound) (hp : Roomy bound p)
    (hcontext : p.context = .text) : GoesOn (textContent descend) p := by
  unfold textContent
  refine .start hp.live fun marker q hq => ?_
  rw [GoesOn, hq.context, hcontext]
  refine (GoesOnIn.rereading fun progress r hr _ => ?_).bind
    fun _ _ _ => goesOn_completeInto marker _ _
  have hr := (hp.still hq.toStill).onward hr
  refine .stays (stays_seesAny _) fun _ s hs => .ite (fun _ => .pure _) fun _ => ?_
  refine .stays (stays_mustProgress _) fun _ t ht => .stays (stays_seesAny _) fun _ u hu => ?_
  have hu := ((hr.still hs).still ht).still hu
  refine .ite (fun _ => (goesOn_textRun hu.live _ _ _).bind fun _ _ _ => .pure _) fun _ => ?_
  refine .stays (stays_sees _) fun _ v hv => .ite (fun _ => ?_) fun _ => ?_
  · exact (goesOn_interpolation hw (hu.still hv) none).bind fun _ _ _ => .pure _
  · exact (goesOn_strayToken (hu.still hv).live).bind fun _ _ _ => .pure _

/-- The content of an embedded element goes on likewise, where its type decides
the context. -/
theorem goesOn_embedContent (hw : Works descend bound) (hp : Roomy bound p)
    (hcontext : p.context = .typedText) : GoesOn (embedContent descend) p := by
  unfold embedContent
  refine .start hp.live fun marker q hq => ?_
  rw [GoesOn, hq.context, hcontext]
  refine (GoesOnIn.rereading fun progress r hr _ => ?_).bind
    fun _ _ _ => goesOn_completeInto marker _ _
  have hr := (hp.still hq.toStill).onward hr
  refine .stays (stays_seesAny _) fun _ s hs => .ite (fun _ => .pure _) fun _ => ?_
  refine .stays (stays_mustProgress _) fun _ t ht => .stays (stays_sees _) fun _ u hu => ?_
  have hu := ((hr.still hs).still ht).still hu
  refine .ite (fun _ => ?_) fun _ => ?_
  · exact (goesOn_interpolationAs hw hu _ _).bind fun _ _ _ => .pure _
  · exact (goesOn_textRun hu.live _ _ _).bind fun _ _ _ => .pure _

/-- A raw body goes on over its raw text, or stays if it is empty. -/
theorem goesOn_rawTextRun (hp : p.Live) : GoesOn rawTextRun p := by
  unfold rawTextRun
  refine .start hp fun marker q hq => ?_
  refine GoesOnIn.bind (.whileTrue fun r hr => ?_) fun _ _ _ => goesOn_completeInto marker _ _
  refine .stays (stays_sees _) fun _ s hs => .ite (fun _ => .pure _) fun _ => .get ?_
  exact (goesOn_bump (hs.reaches.live (hr.live hq.live)) _ _).bind fun _ _ _ => .pure _

/-- Each item of mixed content is read as text. -/
theorem goesOn_mixedItems (hw : Works descend bound) (hp : Roomy bound p) :
    GoesOnIn .text (mixedItems descend) p := by
  refine .rereading fun progress q hq _ => ?_
  have hq := hp.onward hq
  refine .stays (stays_sees _) fun _ r hr => .ite (fun _ => .pure _) fun _ => ?_
  have hr := hq.still hr
  refine .stays (settled_seesCloseTag.stays hr.live) fun _ s hs => .ite (fun _ => .pure _) fun _ => ?_
  have hs := hr.still hs
  refine .stays (stays_mustProgress _) fun _ t ht => .stays (stays_seesAny _) fun _ u hu => ?_
  have hu := (hs.still ht).still hu
  refine .ite (fun _ => (goesOn_textRun hu.live _ _ _).bind fun _ _ _ => .pure _) fun _ => .get ?_
  split
  · rename_i hkind
    refine (hw.element none u hu.live hkind hu.deep.element).leaves.bind ?_
    rintro _ v ⟨node, -, -, htakes⟩
    exact .pure htakes.onward
  · exact (goesOn_interpolation hw hu none).bind fun _ _ _ => .pure _
  · exact (goesOn_strayToken hu.live).bind fun _ _ _ => .pure _

/-- Mixed content with its marker started already goes on in the context of
text, and its node is of this kind. -/
theorem goesOn_mixedEnd (hw : Works descend bound) (hp : Roomy bound p) (marker : Marker)
    (field : Option String) :
    Leaves (mixedItems descend >>= fun _ =>
      marker.complete .mixedContent >>= fun node => node.setField field) p
      fun node q => Onward .text p q ∧ node.IsOf .mixedContent q :=
  Leaves.bind (goesOn_mixedItems hw hp) fun _ _ hq =>
    (leaves_completeInto_still marker _ field _).mono fun _ _ hr =>
      ⟨hq.trans hr.1.onward, hr.2⟩

/-- Mixed content goes on, behind reading its first token as text. -/
theorem goesOn_mixedContent (hw : Works descend bound) (hp : Roomy bound p)
    (field : Option String) : GoesOnIn .text (mixedContent descend field) p :=
  (yields_start hp.live).leaves.bind fun marker _ hq =>
    (goesOn_mixedEnd hw (hp.still hq.toStill) marker field).mono
      fun _ _ hr => hr.1.behind hq.way

/-- Between `p` and `q` the body of a plain element was read: what was
consumed begins with the current token, read as code, or it is mixed
content, and begins with that token read as text. -/
def BodyOnward (p : Parser) (node : Completed) (q : Parser) : Prop :=
  Onward .normal p q ∨ Onward .text p q ∧ node.IsOf .mixedContent q

/-- Where nothing was consumed yet, the body begins with text. -/
theorem bodyOnward_mixedBody (hw : Works descend bound) (hq : Roomy bound q)
    (hcontext : p.context = .normal) (hway : Takes p q ∨ Still p q) (marker : Marker)
    (shape : ContentShape) :
    Leaves (mixedBody descend marker shape) q (BodyOnward p) := by
  have hend : ∀ r, Still q r → Leaves (mixedItems descend >>= fun _ =>
      marker.complete .mixedContent >>= fun node => node.setField (some "content")) r
        (BodyOnward p) := fun r hr =>
    (goesOn_mixedEnd hw (hq.still hr) marker _).mono fun _ s hs => by
      rcases hway with htakes | hstill
      · exact .inl (hcontext ▸ ((htakes.trans hr.reaches).trans hs.1.reaches).onward)
      · exact .inr ⟨hs.1.behind (hstill.trans hr).way, hs.2⟩
  unfold mixedBody
  split
  · exact .get (.modify (hend _ (.of_source rfl rfl rfl)))
  · exact hend q (.refl q)

/-- A body that is no list of elements is given back, wholly or from its
first control on, and read as mixed content. -/
theorem bodyOnward_bodyEnd (hw : Works descend bound) (hq : Roomy bound q)
    (hcontext : q.context = .normal) (marker : Marker) (offset : Nat) {state : BodyState}
    (isElements : Bool) (h : BodyRead q state.firstControl state.control p) :
    Leaves (do
      if isElements = true then
        modify fun p => p.remember "element_content" offset (.content { isElements := true })
        (← marker.complete .elementsExpression).setField "content"
      else
        let shape : ContentShape := { isElements := false, control := state.control }
        modify fun p => p.remember "element_content" offset (.content shape)
        if readsAsTextSince q.checkpoint (← get) then modify fun p => p.rewind q.checkpoint
        else if let some before := state.firstControl then modify fun p => p.rewind before
        mixedBody descend marker shape) p (BodyOnward q) := by
  have hmixed : ∀ t, Takes q t ∨ Still q t → Leaves (mixedBody descend marker
      { isElements := false, control := state.control }) t (BodyOnward q) := fun t ht =>
    bodyOnward_mixedBody hw (hq.reaches (ht.elim Takes.reaches Still.reaches)) hcontext ht _ _
  refine .ite (fun _ => .modify ?_) fun _ => .modify ?_
  -- A list of elements keeps what was read.
  · have hs := h.remember offset { isElements := true } nofun
    refine (leaves_completeInto_still marker _ _ _).mono fun _ t ht => .inl ?_
    rcases hs.way with htakes | hstill
    · exact hcontext ▸ (htakes.trans ht.1.reaches).onward
    · exact hcontext ▸ (hstill.trans ht.1).onward
  have hs := h.remember offset { isElements := false, control := state.control } fun _ => id
  obtain ⟨sprouts, hgrows, -⟩ := hs.adds
  refine .get (.ite (fun _ => .modify (hmixed _ ?_)) fun _ => ?_)
  -- Behind a rewind to the start nothing was consumed.
  · exact .inr (Parser.quiet_rewind hgrows hs.way).toStill
  split
  -- Behind a rewind to the first control the tokens before it are kept, if there are any.
  · rename_i before hbefore
    obtain ⟨b, rfl, hway, -, ⟨sprouts', hgrows', -⟩, htakes⟩ := hs.control before hbefore
    have hback := (Parser.quiet_rewind hgrows' (.inl htakes)).toStill
    refine .modify (hmixed _ ?_)
    exact hway.imp (·.trans hback.reaches) (·.trans hback)
  · exact hmixed _ hs.way

/-- The body of a plain element goes on in code or in text. `BodyOnward` says
which node it has in either case; the parser stands in code when the rule
begins. -/
theorem bodyOnward_classifiedBody (hw : Works descend bound) (hq : Roomy bound q)
    (hcontext : q.context = .normal) (marker : Marker) (offset : Nat) :
    Leaves (classifiedBody descend marker q.checkpoint offset) q (BodyOnward q) := by
  unfold classifiedBody
  refine (yields_bodyLoop hw hq.live hcontext hq.deep.element).leaves.bind fun state r h => .modify ?_
  have h := h.relex
  refine .ite (fun _ => ?_) fun _ => bodyOnward_bodyEnd hw hq hcontext marker offset false h
  exact (settled_seesCloseTag.quiet h.adds.live).leaves.bind fun answer s hs =>
    bodyOnward_bodyEnd hw hq hcontext marker offset answer (h.quiet hs)

/-- The body of a plain element. -/
theorem bodyOnward_elementContent (hw : Works descend bound) (hp : Roomy bound p) :
    Leaves (elementContent descend) p (BodyOnward p) := by
  have hread := hp.onward (Onward.of_relex p .normal)
  have hbehind : ∀ (q : Parser) (node : Completed) (r : Parser), Still (p.relex .normal) q →
      BodyOnward q node r → BodyOnward p node r := fun q node r hq hr => by
    have hway : Trace p [] q := (Trace.relex (.refl p) .normal).trans hq.way
    exact hr.imp (.behind hway) fun h => ⟨h.1.behind hway, h.2⟩
  unfold elementContent
  refine .modify (.get (.get ?_))
  split
  · refine (yields_start hread.live).leaves.bind fun marker q hq => ?_
    have hcontext : q.context = .normal := hq.context.trans (Parser.context_relex _)
    exact (bodyOnward_mixedBody hw (hread.still hq.toStill) hcontext (.inr (.refl q)) marker _).mono
      fun node r => hbehind q node r hq.toStill
  · refine (yields_start hread.live).leaves.bind fun marker q hq => .get ?_
    have hcontext : q.context = .normal := hq.context.trans (Parser.context_relex _)
    exact (bodyOnward_classifiedBody hw (hread.still hq.toStill) hcontext marker _).mono
      fun node r => hbehind q node r hq.toStill

end Grammar

end MarkupSyntax
