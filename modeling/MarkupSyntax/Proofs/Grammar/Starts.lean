import MarkupSyntax.Grammar.Definitions
import MarkupSyntax.Grammar.Descent
import MarkupSyntax.Proofs.Parse.Starts

/-!
# `MarkupSyntax.Proofs.Grammar.Starts`: where the nodes of the grammar start

Each rule that answers with a node started its marker at the token that
was current when the rule began, or it read that token anew in a context
of its own first (`Parse.MayStartIn`). What is put around an operand
starts where the operand does.
-/

set_option autoImplicit false

namespace MarkupSyntax

open Grammar Parse

namespace Parse

/-- The step reads the current token anew in this context, and answers with
a node that starts there, or stays there. -/
def MayStartIn (context : LexContext) (m : Parse (Option Completed)) : Prop :=
  ∀ p, Leaves m p (Found (p.relex context))

/-- A rule behind the limit of nesting starts where either of its two sides
does: the error node, or what is inside. -/
theorem Starts.nested {tooDeep inside : Parse Completed} (h : Starts tooDeep)
    (h' : Starts inside) : Starts (nested tooDeep inside) :=
  .after stands_enterNesting fun _ => .ite (fun p => .ensuring (h' p)) h

/-- A rule that reads the current token anew in a context starts there, in that
context, if what follows starts at the current token. -/
theorem MayStartIn.relex {context : LexContext} {f : Unit → Parse (Option Completed)}
    (h : ∀ answer, MayStart (f answer)) : MayStartIn context (relex context >>= f) :=
  fun p => .modify (h () (p.relex context))

end Parse

/-! ### Lists and skipping -/

/-- A list starts where its first marker does, at its opening token. -/
theorem ItemList.starts_parse (list : ItemList) : Starts list.parse :=
  .start fun marker => .after fun _ => answers_complete marker _

namespace Recovery

variable {recovery : Recovery}

/-- To ask whether it is safe to go on moves nothing, as long as the question of
the caller does not. -/
theorem stands_isSafe (h : Stands recovery.resumes) : Stands recovery.isSafe := by
  unfold isSafe
  refine (stands_seesAny _).bind fun _ => .ite (.pure _) (.ite ?_ h)
  exact stands_seesCloseTag.bind fun _ => .ite (.pure _) h

/-- The node of what was skipped, if there is one. -/
def skipped (recovery : Recovery) : Parse (Option Completed) := do
  return (← recovery.recover).toOption

/-- It starts at the first token that was skipped. -/
theorem mayStart_skipped (h : Stands recovery.resumes) : MayStart recovery.skipped := by
  unfold skipped recover
  rw [bind_assoc]
  refine .after (stands_sees _) fun _ => ?_
  split
  · exact .none_
  rw [bind_assoc]
  refine .after (stands_isSafe h) fun _ => ?_
  split
  · exact .none_
  rw [bind_assoc]
  refine .get fun _ => ?_
  split
  · exact .none_
  rw [bind_assoc]
  refine .start fun marker => ?_
  rw [bind_assoc]
  refine .after fun _ => ?_
  rw [bind_assoc]
  exact (answers_complete marker _).bind fun node hnode => .pure ⟨node, rfl, hnode⟩

end Recovery

namespace Grammar

/-! ### Rules that keep their node to themselves -/

/-- The members of an enumeration, as a node. -/
def enumMembers : Parse Completed := do
  let marker ← start
  let _ ← eat .pipe
  enumMember
  whileTrue do
    if !(← eat .pipe) then return false
    enumMember
    return true
  (← marker.complete .enumMemberList).setField "members"

/-- A rule that drops the node of its list is the rule of the list with its
answer left out. So what is known of the one is known of the other. -/
theorem enumMemberList_eq : enumMemberList = (do let _ ← enumMembers) := by
  unfold enumMemberList enumMembers Completed.into
  simp only [bind_assoc]

/-- The arguments of a call, as a node. -/
def arguments (descend : Descent) : Parse Completed := do
  let marker ← start
  bump
  if !(← sees .rParen) then
    let _ ← expectValue descend "argument"
    whileTrue do
      if !(← sees .comma) then return false
      bump
      let _ ← expectValue descend "argument"
      return true
  let _ ← expect .rParen
  (← marker.complete .argumentList).setField "arguments"

/-- The arguments of a call, likewise. -/
theorem argumentList_eq (descend : Descent) :
    argumentList descend = (do let _ ← arguments descend) := by
  unfold argumentList arguments Completed.into
  simp only [bind_assoc]
  refine bind_congr fun marker => bind_congr fun _ => bind_congr fun closes => ?_
  split <;> simp only [bind_assoc]

/-- A run of text, as a node. -/
def textNode (kind : SyntaxKind) (tokens : List TokenKind) (context : LexContext) :
    Parse Completed := do
  let marker ← start
  whileTrue do
    if !(← seesAny tokens) then return false
    bump context
    return true
  marker.complete kind

/-- A run of text, likewise. -/
theorem textRun_eq (kind : SyntaxKind) (tokens : List TokenKind) (context : LexContext) :
    textRun kind tokens context = (do let _ ← textNode kind tokens context) := by
  unfold textRun textNode
  simp only [bind_assoc]

/-! ### Names and literals -/

/-- What stands for a missing part is an empty node at the current token. -/
theorem starts_missing (field : Option String) (code : Code) : Starts (missing field code) :=
  .after (stands_reportHere code) fun _ => .start fun marker => answers_completeInto marker _ field

/-- What stands for a part that is nested too deep starts at the first token
that is skipped. -/
theorem starts_nestingTooDeep (field : Option String) : Starts (nestingTooDeep field) :=
  .after (stands_reportHere _) fun _ => .start fun marker => .after fun _ =>
    answers_completeInto marker _ field

/-- A literal starts at its only token. -/
theorem mayStart_literal (field : Option String) : MayStart (literal field) := by
  unfold literal
  refine .get fun p => ?_
  split
  · exact .none_
  · exact .start fun marker => .after fun _ => answers_offer marker _ field

/-- A name with dots starts at its first part. -/
theorem mayStart_qualifiedName (field : Option String) : MayStart (qualifiedName field) := by
  unfold qualifiedName
  refine .after (stands_sees _) fun _ => .ite .none_ ?_
  exact .start fun marker => .after fun _ => .after fun _ => answers_offer marker _ field

/-- A name in a tag starts at its first part, read in the context of tags. -/
theorem mayStart_qualifiedMarkupName (field : Option String) :
    MayStartIn .tag (qualifiedMarkupName field) := by
  unfold qualifiedMarkupName
  refine .relex fun _ => .after (stands_seesAny _) fun _ => .ite .none_ ?_
  exact .start fun marker => .after fun _ => .after fun _ => answers_offer marker _ field

/-! ### Parts that are started and given up -/

/-- To take the link to the child off a start event moves nothing. -/
theorem stands_unlink (marker : Marker) : Stands (match marker.child with
    | none => Pure.pure ()
    | some child => do
      match ← eventAt child with
      | .start kind _ field =>
        modify fun p => { p with events := p.events.setIfInBounds child (.start kind none field) }
      | _ => Pure.pure () : Parse Unit) := by
  split
  · exact .pure _
  · refine .bind (fun p => .get ?_) fun _ => ?_
    · split
      · exact .pure rfl
      · exact .throw
    · split
      · exact .modify fun _ => rfl
      · exact .pure _

/-- To give up a marker moves nothing: its events are dropped, and the source
stays where it is. -/
theorem stands_abandon (marker : Marker) : Stands marker.abandon := by
  unfold Marker.abandon
  intro p
  refine .get ?_
  dsimp only
  split
  · split
    · exact .set ((stands_unlink marker _).mono fun _ _ hq => hq)
    · exact stands_unlink marker p
  · exact stands_unlink marker p

/-- A marker is given up where the part that it was started for is
missing. -/
theorem leaves_orAbandon {p q : Parser} {marker : Marker} {part : Option Completed}
    {rest : Parse (Option Completed)} (hmarker : marker.offset = p.position) (h : Found p part q)
    (hrest : Answers rest (StartsAt marker.offset)) :
    Leaves (if part.isNone = true then do
        marker.abandon
        return none
      else rest) q (Found p) := by
  cases part with
  | none => exact (stands_abandon marker q).bind fun _ r hr => .pure (hr.trans h)
  | some node => exact (hrest q).mono fun _ _ hstarts => (hmarker ▸ hstarts).found

/-- A pattern starts at its literal or its name; without one its marker is given
up. -/
theorem mayStart_pattern : MayStart pattern := by
  intro p
  unfold pattern
  refine (leaves_marker p).bind fun marker q hq => ?_
  have hpart : ∀ part r, Found p part r → Leaves (if part.isNone = true then do
        marker.abandon
        return none
      else do
        let node ← marker.complete .pattern
        return some (← node.setField "pattern")) r (Found p) := fun part r hr =>
    leaves_orAbandon hq.1 hr (answers_offer marker _ _)
  refine (mayStart_literal none q).bind fun part r hr => ?_
  cases part with
  | some node => exact hpart (some node) r (hr.after hq.2)
  | none =>
    have hr : r.position = p.position := hr.trans hq.2
    exact (mayStart_qualifiedName none r).bind fun part s hs => hpart part s (hs.after hr)

/-! ### Types and definitions -/

/-- A type starts at its name. -/
theorem mayStart_type (field : Option String) : MayStart (type field) := by
  unfold type
  refine .after (stands_sees _) fun _ => .ite .none_ ?_
  refine .start fun marker => .after fun _ => .after fun _ => .ite ?_ ?_
  · exact .after fun _ => answers_offer marker _ field
  · refine .after fun _ => .ite ?_ (answers_offer marker _ field)
    exact .after fun _ => answers_offer marker _ field

/-- A type that is expected starts there, or something missing does. -/
theorem starts_expectType (field : Option String) : Starts (expectType field) :=
  .ofMayStart (mayStart_type field) (fun _ => .pure rfl) (starts_missing field _)

/-- An import starts at its keyword. -/
theorem starts_importStatement : Starts importStatement := by
  unfold importStatement
  refine .start fun marker => .after fun _ => .after fun _ => .ite ?_ (answers_complete marker _)
  exact .after fun _ => answers_complete marker _

/-- The definition of a type starts at its keyword. -/
theorem starts_typeDefinition : Starts typeDefinition :=
  .start fun marker => .after fun _ => .after fun _ => .after fun _ => .after fun _ =>
    answers_complete marker _

/-- The members of an enumeration start at the first name, or at the `|` in
front of it. -/
theorem starts_enumMembers : Starts enumMembers :=
  .start fun marker => .after fun _ => .after fun _ => .after fun _ =>
    answers_completeInto marker _ _

/-- An enumeration starts at its keyword. -/
theorem starts_enumDefinition : Starts enumDefinition :=
  .start fun marker => .after fun _ => .after fun _ => .after fun _ => .after fun _ =>
    answers_complete marker _

variable {descend : Descent}

/-- The definition of a value starts at its keyword. -/
theorem starts_valueDefinition : Starts (valueDefinition descend) :=
  .start fun marker => .after fun _ => .after fun _ => .after fun _ => .after fun _ =>
    .after fun _ => answers_complete marker _

/-- The definition of a property starts at its name. The marker is started
before the name is read as in a tag. -/
theorem starts_propertyDefinition : Starts (propertyDefinition descend) := by
  unfold propertyDefinition
  refine .start fun marker => .after fun _ => .after fun _ => ?_
  have hend : Answers (do
      let _ ← expect .colon
      let _ ← expectType (some "type")
      if ← eat .equal then let _ ← rightSide descend (some "default")
      let node ← marker.complete .propertyDefinition
      node.setField "parameter") fun node => node.offset = marker.offset := by
    refine .after fun _ => .after fun _ => .after fun _ => .ite (.after fun _ => ?_) ?_
    · exact answers_completeInto marker _ _
    · exact answers_completeInto marker _ _
  exact .ite (.after fun _ => hend) (.after fun _ => hend)

/-- The definition of a function starts at its keyword. -/
theorem starts_functionDefinition : Starts (functionDefinition descend) := by
  unfold functionDefinition
  refine .start fun marker => .after fun _ => .after fun _ => ?_
  have hend : Answers (do
      typeAnnotation "return_type"
      let _ ← expect .equal
      let _ ← rightSide descend (some "body")
      marker.complete .functionDefinition) fun node => node.offset = marker.offset :=
    .after fun _ => .after fun _ => .after fun _ => answers_complete marker _
  exact .ite (.after fun _ => hend) (.after fun _ => hend)

/-- A module starts at the first token of its source. -/
theorem starts_module : Starts (module descend) :=
  .start fun marker => .after fun _ => answers_complete marker _

/-! ### Control constructs -/

section Control

variable {domain : Domain} {marker : Marker}

/-- What a simple condition makes of a marker starts where the marker does. -/
theorem answers_simpleRest :
    Answers (simpleRest descend domain marker) fun node => node.offset = marker.offset := by
  unfold simpleRest
  refine .after fun _ => .after fun _ => .ite ?_ (answers_complete marker _)
  exact .after fun _ => answers_complete marker _

/-- What a match makes of a marker starts where the marker does. -/
theorem answers_matchRest :
    Answers (matchRest descend domain marker) fun node => node.offset = marker.offset := by
  unfold matchRest
  refine .after fun _ => .after fun _ => .ite ?_ (answers_complete marker _)
  exact .after fun _ => .after fun _ => answers_complete marker _

/-- What a list of conditions makes of a marker starts where the marker does. -/
theorem answers_conditionListRest :
    Answers (conditionListRest descend domain marker) fun node => node.offset = marker.offset :=
  .after fun _ => .after fun _ => .after fun _ => answers_complete marker _

/-- An `if` starts at its keyword in each of its three forms: all of them
complete the marker that was started there. -/
theorem starts_ifExpression (domain : Domain) : Starts (ifExpression descend domain) := by
  unfold ifExpression
  refine .start fun marker => .after fun _ => .after fun _ => .ite answers_conditionListRest ?_
  refine .after fun condition => ?_
  split
  · unfold ifWithoutCondition
    refine .after fun _ => .ite answers_matchRest ?_
    refine .after fun _ => .after fun _ => .after fun _ => .ite answers_simpleRest ?_
    exact answers_complete marker _
  · unfold ifWithExpression
    refine .after fun _ => .ite (.after fun _ => answers_matchRest) (.after fun _ => .ite ?_ ?_)
    · exact .after fun _ => .after fun _ => .after fun _ => answers_complete marker _
    · refine .after fun form => ?_
      split
      · exact .after fun _ => answers_conditionListRest
      · exact .after fun _ => answers_simpleRest

/-- A `for` starts at its keyword. -/
theorem starts_forExpression (domain : Domain) : Starts (forExpression descend domain) := by
  unfold forExpression
  refine .start fun marker => .after fun _ => .after fun _ => .after fun _ => ?_
  have hend : Answers (do
      let _ ← expect .inKeyword
      let _ ← expectValue descend "iterable"
      bracedBody descend domain "body"
      marker.complete (.control domain .forLoop)) fun node => node.offset = marker.offset :=
    .after fun _ => .after fun _ => .after fun _ => answers_complete marker _
  exact .ite (.after fun _ => hend) hend

/-- An arm of a match starts at its pattern. -/
theorem mayStart_matchArm (domain : Domain) : MayStart (matchArm descend domain) := by
  intro p
  unfold matchArm
  refine (leaves_marker p).bind fun marker q hq => (mayStart_pattern q).bind fun part r hr => ?_
  refine leaves_orAbandon hq.1 (hr.after hq.2) (.after fun _ => .after fun _ => ?_)
  exact (answers_complete marker _).bind fun node hnode => .pure ⟨node, rfl, hnode⟩

end Control

/-! ### The recursive constructs -/

/-- Where the nodes of the recursive constructs start. -/
structure Starting (descend : Descent) : Prop where
  value : ∀ field, MayStart (descend (.value field))
  operators : ∀ precedence, MayStart (descend (.operators precedence))
  element : ∀ field, MayStart (descend (.element field))

/-- A value that is expected starts there, or something missing does. -/
theorem starts_expectValue (h : Starting descend) (field : Option String) :
    Starts (expectValue descend field) :=
  .ofMayStart (h.value field) (fun _ => .pure rfl) (starts_missing field _)

/-- An arm with a condition starts at its condition. -/
theorem mayStart_conditionArm (h : Starting descend) (domain : Domain) :
    MayStart (conditionArm descend domain) := by
  intro p
  unfold conditionArm
  refine (leaves_marker p).bind fun marker q hq => (h.value _ q).bind fun part r hr => ?_
  refine leaves_orAbandon hq.1 (hr.after hq.2) (.after fun _ => ?_)
  exact (answers_complete marker _).bind fun node hnode => .pure ⟨node, rfl, hnode⟩

/-! ### Value expressions -/

/-- A value starts at its first operand, whatever is put around that. -/
theorem mayStart_value (h : Starting descend) (field : Option String) :
    MayStart (value descend field) := by
  unfold value
  refine .after (stands_seesAny _) fun _ => .ite .none_ ?_
  refine .after stands_enterNesting fun _ => .ite (starts_nestingTooDeep field).mayStart ?_
  refine .andThen (.ensuring (h.operators 0) fun _ => rfl) (fun node => ?_) .none_
  exact (answers_setField node field).bind fun _ hsame => .pure ⟨_, rfl, hsame ▸ rfl⟩

/-- An expression in parentheses starts at the opening one. -/
theorem starts_parenthesized : Starts (parenthesized descend) := by
  unfold parenthesized
  refine .start fun marker => .after fun _ => .after fun _ => .ite ?_ ?_
  · exact .after fun _ => answers_complete marker _
  · exact .after fun _ => .after fun _ => answers_complete marker _

/-- Arguments start at their opening parenthesis. -/
theorem starts_arguments : Starts (arguments descend) := by
  unfold arguments
  refine .start fun marker => .after fun _ => .after fun _ => ?_
  have hend : Answers (do
      let _ ← expect .rParen
      (← marker.complete .argumentList).setField "arguments") fun node =>
        node.offset = marker.offset :=
    .after fun _ => answers_completeInto marker _ _
  exact .ite (.after fun _ => .after fun _ => hend) hend

/-- A primary expression starts at its first token, which decides its form. -/
theorem mayStart_primary (h : Starting descend) : MayStart (primary descend) := by
  unfold primary
  refine .andThen (mayStart_literal none) (fun node => .pure ⟨node, rfl, rfl⟩) (.get fun p => ?_)
  split
  · refine .start fun marker => .after fun _ => ?_
    exact (answers_complete marker _).bind fun node hnode => .pure ⟨node, rfl, hnode⟩
  · exact starts_parenthesized.mayStart
  · exact h.element none
  · exact (starts_ifExpression .value).mayStart
  · exact (starts_forExpression .value).mayStart
  · exact .none_

/-- What a round puts around a node starts where the node does. -/
theorem answers_postfixRound (node : Completed) {offset : Nat} (hnode : node.offset = offset) :
    Answers (postfixRound descend node)
      (Answers.Round (fun node => node.offset = offset) fun node => node.offset = offset) := by
  have hend : ∀ (marker : Marker) (kind : SyntaxKind), marker.offset = node.offset →
      Answers (do return (Round.again (← marker.complete kind) : Round Completed Completed))
        (Answers.Round (fun node => node.offset = offset) fun node => node.offset = offset) :=
    fun marker kind hmarker => (answers_complete marker kind).bind fun _ hcompleted =>
      .pure (hcompleted.trans (hmarker.trans hnode))
  unfold postfixRound
  refine .after fun p => ?_
  split
  · refine .after fun _ => (answers_precede node).bind fun marker hmarker => ?_
    refine .after fun _ => .after fun _ => .ite ?_ ?_
    · exact .after fun _ => hend marker _ hmarker
    · exact .after fun _ => hend marker _ hmarker
  · refine .after fun _ => (answers_precede node).bind fun marker hmarker => ?_
    exact .after fun _ => hend marker _ hmarker
  · exact .pure hnode

/-- A member or a call starts where the expression in front of it does. -/
theorem mayStart_postfixExpression (h : Starting descend) :
    MayStart (postfixExpression descend) := by
  unfold postfixExpression
  refine .andThen (mayStart_primary h) (fun node => ?_) .none_
  refine .after fun _ => .ite ?_ (.pure ⟨node, rfl, rfl⟩)
  have hloop : Answers (loop (postfixRound descend) node) fun other => other.offset = node.offset :=
    .loop (fun other => other.offset = node.offset) (fun other hother => answers_postfixRound other hother) rfl
  exact hloop.bind fun other hother => .pure ⟨other, rfl, hother⟩

/-- A negation starts at its operator. -/
theorem starts_negation : Starts (negation descend) :=
  .start fun marker => .after fun _ => .after fun _ => .after fun _ => answers_complete marker _

/-- A negation or what stands in its place starts at its first token. -/
theorem mayStart_unary (h : Starting descend) : MayStart (unary descend) := by
  unfold unary
  refine .after (stands_sees _) fun _ => .ite ?_ (mayStart_postfixExpression h)
  exact (Starts.nested (starts_nestingTooDeep none) starts_negation).mayStart

/-- A conditional expression starts where its condition does: it is put around a
node that is there already. -/
theorem answers_conditionalRest (condition : Completed) :
    Answers (conditionalRest descend condition) fun node => node.offset = condition.offset :=
  .after fun _ => (answers_precede condition).bind fun marker hmarker => .after fun _ =>
    .after fun _ => .after fun _ => .after fun _ => .after fun _ =>
      (answers_complete marker _).mono fun _ hnode => hnode.trans hmarker

/-- A binary expression starts where its left operand does. -/
theorem answers_binaryRest (left : Completed) (precedence : Nat) :
    Answers (binaryRest descend left precedence) fun node => node.offset = left.offset :=
  .after fun _ => (answers_precede left).bind fun marker hmarker => .after fun _ =>
    .after fun _ => .after fun _ =>
      (answers_complete marker _).mono fun _ hnode => hnode.trans hmarker

/-- A round of the loop over operators keeps the place where the expression
starts. This is the step of the induction over the operators. -/
theorem answers_operatorRound (precedence : Nat) (left : Completed) {offset : Nat}
    (hleft : left.offset = offset) : Answers (operatorRound descend precedence left)
      (Answers.Round (fun node => node.offset = offset) fun node => node.offset = offset) := by
  unfold operatorRound
  refine .after fun p => .ite (.ite (.pure hleft) ?_) ?_
  · exact (answers_conditionalRest left).bind fun _ hnode => .pure (hnode.trans hleft)
  · split
    · exact .pure hleft
    · refine .ite (.pure hleft) ?_
      exact (answers_binaryRest left _).bind fun _ hnode => .pure (hnode.trans hleft)

/-- An expression with operators starts where its first operand does, by the
loop over the operators. -/
theorem mayStart_operators (h : Starting descend) (precedence : Nat) :
    MayStart (operators descend precedence) := by
  unfold operators
  refine .andThen (mayStart_unary h) (fun node => ?_) .none_
  refine .after fun _ => .ite (.pure ⟨node, rfl, rfl⟩) ?_
  have hloop : Answers (loop (operatorRound descend precedence) node)
      fun other => other.offset = node.offset :=
    .loop (fun other => other.offset = node.offset)
      (fun other hother => answers_operatorRound precedence other hother) rfl
  exact hloop.bind fun other hother => .pure ⟨other, rfl, hother⟩

/-! ### Properties and elements -/

/-- A value in braces starts at the brace, of whatever kind its node is. -/
theorem starts_interpolationAs (kind : SyntaxKind) (after : LexContext) :
    Starts (interpolationAs descend kind after) :=
  .start fun marker => .after fun _ => .after fun _ => .after fun _ => answers_complete marker _

/-- An interpolation starts at its brace. -/
theorem starts_interpolation (field : Option String) : Starts (interpolation descend field) :=
  (starts_interpolationAs _ _).setField field

/-- The right side of a property starts at its first token as it is read in
code. -/
theorem mayStart_rightSide (h : Starting descend) (field : Option String) :
    MayStartIn .normal (rightSide descend field) := by
  unfold rightSide
  refine .relex fun _ => .get fun p => ?_
  split
  · exact h.element field
  · exact (starts_interpolation field).mayStart
  · exact .andThen (mayStart_literal field) (fun node => .pure ⟨node, rfl, rfl⟩)
      (starts_missing field _).mayStart

/-- To ask whether a property follows moves nothing. It looks some tokens
ahead. -/
theorem stands_seesProperty : Stands seesProperty := by
  refine (stands_seesAny _).bind fun _ => .ite (.loop (fun n => ?_) 1) (.pure _)
  unfold propertyNameRound
  refine (stands_nthKind n).bind fun _ => .ite (.pure _) (.ite (.pure _) ?_)
  exact (stands_nthAfterTrivia n).bind fun _ => .ite (.pure _) (.pure _)

/-- To ask whether an item of a property list follows moves nothing. -/
theorem stands_seesPropertyItem : Stands seesPropertyItem :=
  stands_seesProperty.bind fun _ => .ite (.pure _) (stands_seesAny _)

/-- A property starts at its name. -/
theorem starts_property : Starts (property descend) :=
  .start fun marker => .after fun _ => .after fun _ => .after fun _ => answers_complete marker _

/-- An item of a property list starts at the name or the keyword. -/
theorem mayStart_propertyItem : MayStart (propertyItem descend) := by
  unfold propertyItem
  refine .after stands_seesProperty fun _ => .ite starts_property.mayStart (.get fun p => ?_)
  split
  · exact (starts_ifExpression .properties).mayStart
  · exact (starts_forExpression .properties).mayStart
  · exact .none_

/-- A list of properties starts at its first item, read in a tag. -/
theorem mayStart_propertyList (field : Option String) (inArm : Bool) :
    MayStartIn .tag (propertyList descend field inArm) := by
  unfold propertyList
  refine .relex fun _ => .after stands_seesPropertyItem fun _ => .ite .none_ ?_
  rw [← bind_assoc]
  exact (Starts.setField (ItemList.starts_parse _) field).mayStart

/-- To ask whether an item among elements follows moves nothing. -/
theorem stands_seesElementsItem : Stands seesElementsItem :=
  (stands_sees _).bind fun _ => .ite ((stands_nthIs _ _).bind fun _ => .pure _) (stands_seesAny _)

/-- An item among elements starts at its first token, read in code. -/
theorem mayStart_elementsItem (h : Starting descend) :
    MayStartIn .normal (elementsItem descend) := by
  unfold elementsItem
  refine .relex fun _ => .after stands_seesElementsItem fun _ => .ite .none_ (.get fun p => ?_)
  split
  · exact (starts_ifExpression .elements).mayStart
  · exact (starts_forExpression .elements).mayStart
  · exact (starts_interpolation none).mayStart
  · exact h.element none

/-- A sequence of elements starts at its first item, read in code. -/
theorem mayStart_elementsExpression (field : Option String) (inArm : Bool) :
    MayStartIn .normal (elementsExpression descend field inArm) := by
  unfold elementsExpression
  refine .relex fun _ => .after stands_seesElementsItem fun _ => .ite .none_ ?_
  rw [← bind_assoc]
  exact (Starts.setField (ItemList.starts_parse _) field).mayStart

/-- A run of text starts at its first token. -/
theorem starts_textNode (kind : SyntaxKind) (tokens : List TokenKind) (context : LexContext) :
    Starts (textNode kind tokens context) :=
  .start fun marker => .after fun _ => answers_complete marker kind

/-- Mixed content starts at the current token, before that is read anew as
text. -/
theorem starts_mixedContent (field : Option String) : Starts (mixedContent descend field) :=
  .start fun marker => .after fun _ => answers_completeInto marker _ _

/-- Mixed content that a body turns out to be starts where the marker of the
body does. -/
theorem answers_mixedBody (marker : Marker) (shape : ContentShape) :
    Answers (mixedBody descend marker shape) fun node => node.offset = marker.offset := by
  unfold mixedBody
  split
  · exact .after fun _ => .after fun _ => .after fun _ => answers_completeInto marker _ _
  · exact .after fun _ => answers_completeInto marker _ _

/-- The end of a body completes its marker, or goes back and reads the body anew
as mixed content. It starts where the marker does either way. -/
theorem answers_bodyEnd (marker : Marker) (body : Parser.Checkpoint) (offset : Nat)
    (state : BodyState) (isElements : Bool) : Answers (do
      if isElements = true then
        modify fun p => p.remember "element_content" offset (.content { isElements := true })
        (← marker.complete .elementsExpression).setField "content"
      else
        let shape : ContentShape := { isElements := false, control := state.control }
        modify fun p => p.remember "element_content" offset (.content shape)
        if readsAsTextSince body (← get) then modify fun p => p.rewind body
        else if let some before := state.firstControl then modify fun p => p.rewind before
        mixedBody descend marker shape) fun node => node.offset = marker.offset := by
  refine .ite (.after fun _ => answers_completeInto marker _ _) (.after fun _ => .after fun _ => ?_)
  refine .ite (.after fun _ => answers_mixedBody marker _) ?_
  split
  · exact .after fun _ => answers_mixedBody marker _
  · exact answers_mixedBody marker _

/-- A body starts where its marker does, be it elements or mixed content. -/
theorem answers_classifiedBody (marker : Marker) (body : Parser.Checkpoint) (offset : Nat) :
    Answers (classifiedBody descend marker body offset) fun node =>
      node.offset = marker.offset := by
  unfold classifiedBody
  refine .after fun state => .after fun _ => ?_
  exact .ite (.after fun _ => answers_bodyEnd marker body offset state _)
    (answers_bodyEnd marker body offset state false)

/-- The body of a plain element starts at the current token, read as
code. -/
theorem leaves_elementContent_offset (p : Parser) :
    Leaves (elementContent descend) p fun node _ => node.offset = (p.relex .normal).position := by
  unfold elementContent
  refine .modify (.get (.get ?_))
  split
  · exact Starts.start (fun marker => answers_mixedBody marker _) _
  · exact Starts.start (fun marker => .after fun _ => answers_classifiedBody marker _ _) _

/-- The content of plain text starts at its first token. -/
theorem starts_textContent : Starts (textContent descend) :=
  .start fun marker => .after fun _ => answers_completeInto marker _ _

/-- The content of an embedded element starts at its first token. -/
theorem starts_embedContent : Starts (embedContent descend) :=
  .start fun marker => .after fun _ => answers_completeInto marker _ _

/-- A raw body starts at its first token. -/
theorem starts_rawTextRun : Starts rawTextRun :=
  .start fun marker => .after fun _ => answers_completeInto marker _ _

/-- An element starts at its `<`. -/
theorem starts_elementNode : Starts (elementNode descend) := by
  unfold elementNode
  refine .start fun marker => .after fun _ => .after fun name => ?_
  have hend : Answers (do
      if ← sees .colon then
        let tag ← name.mapM Completed.text
        embedRest descend tag
      else plainRest descend
      marker.complete .element) fun node => node.offset = marker.offset := by
    refine .after fun _ => .ite (.after fun _ => .after fun _ => ?_) (.after fun _ => ?_)
    · exact answers_complete marker _
    · exact answers_complete marker _
  exact .ite (.after fun _ => hend) hend

/-- An element that may be nested too deep starts at its `<`. -/
theorem starts_element (field : Option String) : Starts (element descend field) :=
  .nested (starts_nestingTooDeep field) (starts_elementNode.setField field)

/-- An item of a module starts at its keyword, its tag or its brace. -/
theorem mayStart_moduleItem (h : Starting descend) : MayStart (moduleItem descend) := by
  unfold moduleItem
  refine .get fun p => ?_
  split
  · exact starts_importStatement.mayStart
  · exact starts_typeDefinition.mayStart
  · exact starts_enumDefinition.mayStart
  · refine .after ?_ fun _ => .ite starts_functionDefinition.mayStart starts_valueDefinition.mayStart
    exact (stands_nthIs _ _).bind fun _ => .ite (.pure _)
      ((stands_nthIs _ _).bind fun _ => .ite (stands_nthIs _ _) (.pure _))
  · exact .after (stands_nthIs _ _) fun _ => .ite .none_ (h.element _)
  · exact (starts_interpolation _).mayStart
  · exact .none_

/-! ### The recursion -/

/-- If the recursive rules of one level start where they are called, those of
the next level do. -/
theorem starting_step (h : Starting descend) : Starting (step descend) where
  value := mayStart_value h
  operators := mayStart_operators h
  element field := (starts_element field).mayStart

/-- The induction is on the depth; at depth zero there is no answer. -/
theorem starting_descentTo (depth : Nat) : Starting (descentTo depth) := by
  induction depth with
  | zero => exact ⟨fun _ _ => .throw, fun _ _ => .throw, fun _ _ => .throw⟩
  | succ depth ih => exact starting_step ih

/-- The recursive rules start where they are called, by induction on the levels
that are left. -/
theorem starting_descent : Starting descent where
  value field := .get fun _ => (starting_descentTo _).value field
  operators precedence := .get fun _ => (starting_descentTo _).operators precedence
  element field := .get fun _ => (starting_descentTo _).element field

end Grammar

end MarkupSyntax
