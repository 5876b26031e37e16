import MarkupSyntax.Grammar.Rules
import MarkupSyntax.Proofs.Grammar.AdmitsContent
import MarkupSyntax.Proofs.Grammar.Descent
import MarkupSyntax.Proofs.Grammar.Onward

/-!
# `MarkupSyntax.Proofs.Grammar.Routine`: the nodes that the rules answer with

A `Routine` is a rule that answers with a node, and `Routine.Awaits` is
what its callers make sure of: the current token, or the context that it
was read in. Whatever node a routine answers with, its tokens begin with
the one that was current, in the context that the routine reads it in
(`Returns.exists_covers`). The body of an element that is mixed content is
an exception where its text begins in front of that token.

Three facts make that up, each of which holds of all rules for a reason of
its own: the record grew by the node and nothing else
(`Routine.leaves_parse_grown`), the node was started at that token
(`Routine.leaves_parse_startsIn`), and what was consumed begins with it
(`Routine.leaves_parse_beginsIn`).
-/

set_option autoImplicit false

namespace MarkupSyntax.Grammar

open Parse

/-- A rule that answers with a node. -/
inductive Routine where
  | missing (field : Option String) (code : Code)
  | nestingTooDeep (field : Option String)
  | skipped (recovery : Recovery)
  | literal (field : Option String)
  | qualifiedName (field : Option String)
  | qualifiedMarkupName (field : Option String)
  | pattern
  | matchArm (domain : Domain)
  | conditionArm (domain : Domain)
  | ifExpression (domain : Domain)
  | forExpression (domain : Domain)
  | type (field : Option String)
  | expectType (field : Option String)
  | importStatement
  | typeDefinition
  | enumMembers
  | enumDefinition
  | valueDefinition
  | propertyDefinition
  | functionDefinition
  | moduleItem
  | module
  | value (field : Option String)
  | expectValue (field : Option String)
  | operators (precedence : Nat)
  | unary
  | negation
  | postfixExpression
  | primary
  | parenthesized
  | arguments
  | interpolation (field : Option String)
  | embedInterpolation
  | rightSide (field : Option String)
  | property
  | propertyItem
  | propertyList (field : Option String) (inArm : Bool)
  | elementsItem
  | elementsExpression (field : Option String) (inArm : Bool)
  | mixedContent (field : Option String)
  | elementContent
  | textContent
  | embedContent
  | plainText
  | typedText
  | rawTextRun
  | elementNode
  | element (field : Option String)

namespace Routine

/-- Runs the rule. -/
def parse (descend : Descent) : Routine → Parse (Option Completed)
  | missing field code => certain (Parse.missing field code)
  | nestingTooDeep field => certain (Grammar.nestingTooDeep field)
  | skipped recovery => recovery.skipped
  | literal field => Grammar.literal field
  | qualifiedName field => Grammar.qualifiedName field
  | qualifiedMarkupName field => Grammar.qualifiedMarkupName field
  | pattern => Grammar.pattern
  | matchArm domain => Grammar.matchArm descend domain
  | conditionArm domain => Grammar.conditionArm descend domain
  | ifExpression domain => certain (Grammar.ifExpression descend domain)
  | forExpression domain => certain (Grammar.forExpression descend domain)
  | type field => Grammar.type field
  | expectType field => certain (Grammar.expectType field)
  | importStatement => certain Grammar.importStatement
  | typeDefinition => certain Grammar.typeDefinition
  | enumMembers => certain Grammar.enumMembers
  | enumDefinition => certain Grammar.enumDefinition
  | valueDefinition => certain (Grammar.valueDefinition descend)
  | propertyDefinition => certain (Grammar.propertyDefinition descend)
  | functionDefinition => certain (Grammar.functionDefinition descend)
  | moduleItem => Grammar.moduleItem descend
  | module => certain (Grammar.module descend)
  | value field => Grammar.value descend field
  | expectValue field => certain (Grammar.expectValue descend field)
  | operators precedence => Grammar.operators descend precedence
  | unary => Grammar.unary descend
  | negation => certain (Grammar.negation descend)
  | postfixExpression => Grammar.postfixExpression descend
  | primary => Grammar.primary descend
  | parenthesized => certain (Grammar.parenthesized descend)
  | arguments => certain (Grammar.arguments descend)
  | interpolation field => certain (Grammar.interpolation descend field)
  | embedInterpolation =>
    certain (interpolationAs descend .embedInterpolationExpression .typedText)
  | rightSide field => Grammar.rightSide descend field
  | property => certain (Grammar.property descend)
  | propertyItem => Grammar.propertyItem descend
  | propertyList field inArm => Grammar.propertyList descend field inArm
  | elementsItem => Grammar.elementsItem descend
  | elementsExpression field inArm => Grammar.elementsExpression descend field inArm
  | mixedContent field => certain (Grammar.mixedContent descend field)
  | elementContent => certain (Grammar.elementContent descend)
  | textContent => certain (Grammar.textContent descend)
  | embedContent => certain (Grammar.embedContent descend)
  | plainText => certain (textNode .textRun textTokens .text)
  | typedText => certain (textNode .embedTextRun typedTextTokens .typedText)
  | rawTextRun => certain Grammar.rawTextRun
  | elementNode => certain (Grammar.elementNode descend)
  | element field => certain (Grammar.element descend field)

/-- Where the rule is called. -/
def Awaits (p : Parser) : Routine → Prop
  | skipped recovery => recovery ∈ recoveries
  | qualifiedMarkupName _ | propertyItem => p.context = .tag
  | property => p.context = .tag ∧ p.kind ∈ markupNameTokens
  | propertyDefinition => p.context = .normal ∨ p.context = .tag
  | elementsItem => p.context = .normal
  | mixedContent _ | textContent => p.context = .text
  | embedContent => p.context = .typedText
  | ifExpression _ => p.kind = .ifKeyword
  | forExpression _ => p.kind = .forKeyword
  | importStatement => p.kind = .importKeyword
  | typeDefinition => p.kind = .typeKeyword
  | enumDefinition => p.kind = .enumKeyword
  | valueDefinition => p.kind = .letKeyword
  | functionDefinition => p.kind = .letKeyword ∧ ∃ q, seesFunctionHead p = .ok true q
  | negation => p.kind = .minus
  | parenthesized => p.kind = .lParen
  | elementNode | element _ => p.kind = .lessThan
  | _ => True

/-- The context in which the rule reads the current token. -/
def context (p : Parser) : Routine → LexContext
  | propertyDefinition | propertyList .. | qualifiedMarkupName _ => .tag
  | rightSide _ | elementsExpression .. | elementContent | elementsItem => .normal
  | _ => p.context

variable {p q : Parser} {descend : Descent} {bound : Nat} {routine : Routine} {node : Completed}

/-- What is known of the node of a rule that always answers with one. -/
theorem leaves_certain {m : Parse Completed} {post : Completed → Parser → Prop}
    (h : Leaves m p post) : Leaves (certain m) p fun result q => ∀ node ∈ result, post node q :=
  h.map fun _ _ hpost _ hmem => Option.mem_some.mp hmem ▸ hpost

/-! ### The record -/

/-- The record grows by the node that the step answers with. -/
def Grown (p : Parser) (result : Option Completed) (q : Parser) : Prop :=
  ∀ node ∈ result, node.GrownFrom p q

/-- A node that was added with its parts is the only growth of the record. -/
theorem grown_of_bears {field : Option String} {kinds : Set SyntaxKind} {extra : Nat}
    (h : Bears p q node field kinds extra) : node.GrownFrom p q := by
  obtain ⟨sprout, hevents, hsound, hpoints, -⟩ := h.grown
  exact ⟨sprout, hevents, hpoints, hsound⟩

/-- So is the node of a rule that may find nothing, if it finds one. -/
theorem grown_of_offers {m : Parse (Option Completed)} {field : Option String}
    {kinds : Set SyntaxKind} {extra : Nat} (h : Offers field kinds extra m) :
    Leaves m p (Grown p) :=
  (h p).mono fun result q hq => by
    rintro node rfl
    exact grown_of_bears hq

/-- So is the node of a rule that always makes one. -/
theorem grown_of_produces {m : Parse Completed} {field : Option String}
    {kinds : Set SyntaxKind} {extra : Nat} (h : Produces field kinds extra m) :
    Leaves (certain m) p (Grown p) :=
  leaves_certain ((h p).mono fun _ _ => grown_of_bears)

/-- So is the node of what was skipped. -/
theorem grown_skipped {recovery : Recovery} (hresumes : Idle recovery.resumes)
    (hkind : recovery.nodeKind = .error) : Leaves recovery.skipped p (Grown p) :=
  (leaves_recover hresumes hkind p).bind fun result q hq => .pure fun node hnode => by
    rw [Option.mem_def.mp hnode] at hq
    exact grown_of_bears hq

/-- Every rule adds the node that it answers with, and nothing else. -/
theorem leaves_parse_grown (h : Bearing descend) (ha : routine.Awaits p) :
    Leaves (routine.parse descend) p (Grown p) := by
  -- One case for each rule, which knows from `Bearing` what it adds. What was skipped is only as
  -- good as the recovery, so there are four cases for it.
  cases routine with
  | missing field code => exact grown_of_produces (produces_missing field code 0)
  | nestingTooDeep field => exact grown_of_produces (produces_nestingTooDeep field)
  | skipped recovery =>
    simp only [Awaits, recoveries, List.mem_cons, List.not_mem_nil, or_false] at ha
    rcases ha with rfl | rfl | rfl | rfl
    · exact grown_skipped (.pure _) rfl
    · exact grown_skipped (.pure _) rfl
    · exact grown_skipped idle_seesPropertyItem rfl
    · exact grown_skipped (.pure _) rfl
  | literal field => exact grown_of_offers (offers_literal field)
  | qualifiedName field => exact grown_of_offers (offers_qualifiedName field)
  | qualifiedMarkupName field => exact grown_of_offers (offers_qualifiedMarkupName field)
  | pattern => exact grown_of_offers offers_pattern
  | matchArm domain => exact grown_of_offers (offers_matchArm h)
  | conditionArm domain => exact grown_of_offers (offers_conditionArm h)
  | ifExpression domain => exact grown_of_produces (produces_ifExpression h domain)
  | forExpression domain => exact grown_of_produces (produces_forExpression h domain)
  | type field => exact grown_of_offers (offers_type field)
  | expectType field => exact grown_of_produces (produces_expectType field)
  | importStatement => exact grown_of_produces produces_importStatement
  | typeDefinition => exact grown_of_produces produces_typeDefinition
  | enumMembers => exact grown_of_produces produces_enumMembers
  | enumDefinition => exact grown_of_produces produces_enumDefinition
  | valueDefinition => exact grown_of_produces (produces_valueDefinition h)
  | propertyDefinition => exact grown_of_produces (produces_propertyDefinition h)
  | functionDefinition => exact grown_of_produces (produces_functionDefinition h)
  | moduleItem =>
    refine (leaves_moduleItem h p).mono fun result q hq => ?_
    obtain ⟨field, hq⟩ := hq
    rintro node rfl
    exact grown_of_bears hq
  | module => exact grown_of_produces (produces_module h)
  | value field => exact grown_of_offers (offers_value h field)
  | expectValue field => exact grown_of_produces (produces_expectValue h field)
  | operators precedence => exact grown_of_offers (offers_operators h precedence)
  | unary => exact grown_of_offers (offers_unary h)
  | negation => exact grown_of_produces (produces_negation h)
  | postfixExpression => exact grown_of_offers (offers_postfixExpression h)
  | primary => exact grown_of_offers (offers_primary h)
  | parenthesized => exact grown_of_produces (produces_parenthesized h)
  | arguments => exact grown_of_produces (produces_arguments h)
  | interpolation field => exact grown_of_produces (produces_interpolation h field)
  | embedInterpolation => exact grown_of_produces (produces_interpolationAs h _ rfl rfl rfl)
  | rightSide field => exact grown_of_offers (offers_rightSide h field)
  | property => exact grown_of_produces (produces_property h)
  | propertyItem => exact grown_of_offers (offers_propertyItem h)
  | propertyList field inArm => exact grown_of_offers (offers_propertyList h field inArm)
  | elementsItem => exact grown_of_offers (offers_elementsItem h)
  | elementsExpression field inArm =>
    exact grown_of_offers (offers_elementsExpression h field inArm)
  | mixedContent field => exact grown_of_produces (produces_mixedContent h field)
  | elementContent => exact grown_of_produces (produces_elementContent h)
  | textContent => exact grown_of_produces (produces_textContent h)
  | embedContent => exact grown_of_produces (produces_embedContent h)
  | plainText => exact grown_of_produces (produces_textNode _ _ rfl rfl rfl)
  | typedText => exact grown_of_produces (produces_textNode _ _ rfl rfl rfl)
  | rawTextRun => exact grown_of_produces produces_rawTextRun
  | elementNode => exact grown_of_produces (produces_elementNode h)
  | element field => exact grown_of_produces (produces_element h field)

/-! ### The start -/

/-- The node starts at the current token, read in this context. -/
def StartsIn (context : LexContext) (p : Parser) (result : Option Completed) : Prop :=
  ∀ node ∈ result, node.offset = (p.relex context).position

/-- A rule that reads the current token anew first starts in that context. -/
theorem startsIn_of_mayStartIn {m : Parse (Option Completed)} {context : LexContext}
    (h : MayStartIn context m) : Leaves m p fun result _ => StartsIn context p result :=
  (h p).mono fun result _ hresult => by
    rintro node rfl
    exact hresult

/-- A rule that may start at the current token starts in its context. -/
theorem startsIn_of_mayStart {m : Parse (Option Completed)} (h : MayStart m) :
    Leaves m p fun result _ => StartsIn p.context p result :=
  (h p).mono fun result _ hresult => by
    rintro node rfl
    rw [Parser.relex_of_context rfl]
    exact hresult

/-- So does a rule that always starts there. -/
theorem startsIn_of_starts {m : Parse Completed} (h : Starts m) :
    Leaves (certain m) p fun result _ => StartsIn p.context p result :=
  leaves_certain ((h p).mono fun _ _ hnode => by rwa [Parser.relex_of_context rfl])

/-- The name of a parameter starts where it would start in code. -/
theorem position_relex_tag (hp : p.Live) (hcontext : p.context = .normal ∨ p.context = .tag) :
    (p.relex .tag).position = p.position := by
  rcases hcontext with hcontext | hcontext
  · obtain ⟨seam, hp⟩ := hp
    have hnormal := hp.position_relex .normal
    rw [Parser.relex_of_context hcontext] at hnormal
    rw [hp.position_relex, hnormal]
    exact Seam.start_current_tag
  · rw [Parser.relex_of_context hcontext]

/-- Every rule started its node at the token that it begins with. -/
theorem leaves_parse_startsIn (h : Starting descend) (hp : p.Live) (ha : routine.Awaits p) :
    Leaves (routine.parse descend) p fun result _ => StartsIn (routine.context p) p result := by
  -- One case for each rule again. The definition of a property starts its marker before it reads
  -- its name anew, and in a tag the two are at one place (`position_relex_tag`).
  cases routine with
  | missing field code => exact startsIn_of_starts (starts_missing field code)
  | nestingTooDeep field => exact startsIn_of_starts (starts_nestingTooDeep field)
  | skipped recovery =>
    simp only [Awaits, recoveries, List.mem_cons, List.not_mem_nil, or_false] at ha
    rcases ha with rfl | rfl | rfl | rfl
    · exact startsIn_of_mayStart (Recovery.mayStart_skipped (.pure _))
    · exact startsIn_of_mayStart (Recovery.mayStart_skipped (.pure _))
    · exact startsIn_of_mayStart (Recovery.mayStart_skipped stands_seesPropertyItem)
    · exact startsIn_of_mayStart (Recovery.mayStart_skipped (.pure _))
  | literal field => exact startsIn_of_mayStart (mayStart_literal field)
  | qualifiedName field => exact startsIn_of_mayStart (mayStart_qualifiedName field)
  | qualifiedMarkupName field =>
    exact startsIn_of_mayStartIn (mayStart_qualifiedMarkupName field)
  | pattern => exact startsIn_of_mayStart mayStart_pattern
  | matchArm domain => exact startsIn_of_mayStart (mayStart_matchArm domain)
  | conditionArm domain => exact startsIn_of_mayStart (mayStart_conditionArm h domain)
  | ifExpression domain => exact startsIn_of_starts (starts_ifExpression domain)
  | forExpression domain => exact startsIn_of_starts (starts_forExpression domain)
  | type field => exact startsIn_of_mayStart (mayStart_type field)
  | expectType field => exact startsIn_of_starts (starts_expectType field)
  | importStatement => exact startsIn_of_starts starts_importStatement
  | typeDefinition => exact startsIn_of_starts starts_typeDefinition
  | enumMembers => exact startsIn_of_starts starts_enumMembers
  | enumDefinition => exact startsIn_of_starts starts_enumDefinition
  | valueDefinition => exact startsIn_of_starts starts_valueDefinition
  | propertyDefinition =>
    exact leaves_certain ((starts_propertyDefinition p).mono fun _ _ hnode =>
      hnode.trans (position_relex_tag hp ha).symm)
  | functionDefinition => exact startsIn_of_starts starts_functionDefinition
  | moduleItem => exact startsIn_of_mayStart (mayStart_moduleItem h)
  | module => exact startsIn_of_starts starts_module
  | value field => exact startsIn_of_mayStart (mayStart_value h field)
  | expectValue field => exact startsIn_of_starts (starts_expectValue h field)
  | operators precedence => exact startsIn_of_mayStart (mayStart_operators h precedence)
  | unary => exact startsIn_of_mayStart (mayStart_unary h)
  | negation => exact startsIn_of_starts starts_negation
  | postfixExpression => exact startsIn_of_mayStart (mayStart_postfixExpression h)
  | primary => exact startsIn_of_mayStart (mayStart_primary h)
  | parenthesized => exact startsIn_of_starts starts_parenthesized
  | arguments => exact startsIn_of_starts starts_arguments
  | interpolation field => exact startsIn_of_starts (starts_interpolation field)
  | embedInterpolation => exact startsIn_of_starts (starts_interpolationAs _ _)
  | rightSide field => exact startsIn_of_mayStartIn (mayStart_rightSide h field)
  | property => exact startsIn_of_starts starts_property
  | propertyItem => exact startsIn_of_mayStart mayStart_propertyItem
  | propertyList field inArm => exact startsIn_of_mayStartIn (mayStart_propertyList field inArm)
  | elementsItem => exact startsIn_of_mayStartIn (mayStart_elementsItem h)
  | elementsExpression field inArm =>
    exact startsIn_of_mayStartIn (mayStart_elementsExpression field inArm)
  | mixedContent field => exact startsIn_of_starts (starts_mixedContent field)
  | elementContent => exact leaves_certain (leaves_elementContent_offset p)
  | textContent => exact startsIn_of_starts starts_textContent
  | embedContent => exact startsIn_of_starts starts_embedContent
  | plainText => exact startsIn_of_starts (starts_textNode _ _ _)
  | typedText => exact startsIn_of_starts (starts_textNode _ _ _)
  | rawTextRun => exact startsIn_of_starts starts_rawTextRun
  | elementNode => exact startsIn_of_starts starts_elementNode
  | element field => exact startsIn_of_starts (starts_element field)

/-! ### The tokens -/

/-- What was consumed begins with the current token, read in this context,
or the node is mixed content, and begins with that token read as text. -/
def BeginsIn (context : LexContext) (p : Parser) (result : Option Completed) (q : Parser) : Prop :=
  ∀ node ∈ result, Onward context p q ∨
    context = .normal ∧ Onward .text p q ∧ node.IsOf .mixedContent q

/-- A rule that goes on in a context begins there, if it finds a node. -/
theorem beginsIn_of_goesOn {m : Parse (Option Completed)} {context : LexContext}
    (h : GoesOnIn context m p) : Leaves m p (BeginsIn context p) :=
  h.mono fun _ _ hq _ _ => .inl hq

/-- So does a rule that always makes one. -/
theorem beginsIn_of_certain {m : Parse Completed} {context : LexContext}
    (h : GoesOnIn context m p) : Leaves (certain m) p (BeginsIn context p) :=
  leaves_certain (Leaves.mono h fun _ _ => .inl)

/-- What was skipped goes on. -/
theorem goesOn_skipped {recovery : Recovery} (hresumes : Settled recovery.resumes) (hp : p.Live) :
    GoesOn recovery.skipped p :=
  (recovery.goesOn_recover hresumes hp).bind fun _ _ _ => .pure _

/-- A rule that finds a tight expression goes on, and without one it stays. -/
theorem goesOn_of_findsTight {m : Parse (Option Completed)} (h : Yields m p (FindsTight p)) :
    GoesOn m p :=
  .of_yields (h.mono fun result q hq => by cases result <;> exact hq.2)

/-- What the callers saw of the head is what the rule asks for. -/
theorem goesOn_functionDefinition (hw : Works descend bound) (hp : Roomy bound p)
    (ha : functionDefinition.Awaits p) : GoesOn (Grammar.functionDefinition descend) p := by
  obtain ⟨hkind, r, hhead⟩ := ha
  obtain ⟨seam, hseam⟩ := hp.live
  obtain ⟨answer, r', hrun, hahead, -⟩ := (yields_seesFunctionHead hseam).exists_ok
  rw [hhead] at hrun
  cases hrun
  exact goesOn_of_takes (yields_functionDefinition hw hseam hp.deep.le hkind (hahead rfl))

/-- What every rule consumes begins with the token that its node starts
at. -/
theorem leaves_parse_beginsIn (hw : Works descend bound) (hp : Roomy bound p)
    (ha : routine.Awaits p) :
    Leaves (routine.parse descend) p (BeginsIn (routine.context p) p) := by
  have hle := hp.deep.le
  have hlt := hp.deep.element
  -- A rule that always takes a token begins with it by its own lemma. One that may take
  -- none also has to leave the token in the context that it was read in.
  cases routine with
  | missing field code => exact beginsIn_of_certain (goesOn_missing hp.live field code)
  | nestingTooDeep field => exact beginsIn_of_certain (goesOn_nestingTooDeep hp.live field)
  | skipped recovery =>
    simp only [Awaits, recoveries, List.mem_cons, List.not_mem_nil, or_false] at ha
    rcases ha with rfl | rfl | rfl | rfl
    · exact beginsIn_of_goesOn (goesOn_skipped (.pure _) hp.live)
    · exact beginsIn_of_goesOn (goesOn_skipped (.pure _) hp.live)
    · exact beginsIn_of_goesOn (goesOn_skipped settled_seesPropertyItem hp.live)
    · exact beginsIn_of_goesOn (goesOn_skipped (.pure _) hp.live)
  | literal field => exact beginsIn_of_goesOn (goesOn_of_finds (yields_literal hp.live field))
  | qualifiedName field =>
    exact beginsIn_of_goesOn (goesOn_of_finds ((yields_qualifiedName hp.live field).mono
      fun _ _ hq => hq.1))
  | qualifiedMarkupName field =>
    have hread : GoesOn (Grammar.qualifiedMarkupName field) p :=
      goesOn_of_finds ((yields_qualifiedMarkupName hp.live ha field).mono fun _ _ hq => hq.1)
    exact beginsIn_of_goesOn (hread.of_context ha)
  | pattern => exact beginsIn_of_goesOn (goesOn_of_finds (yields_pattern hp.live))
  | matchArm domain =>
    exact beginsIn_of_goesOn (goesOn_of_finds (yields_matchArm hw hp.live hle domain))
  | conditionArm domain =>
    exact beginsIn_of_goesOn (goesOn_of_finds (yields_conditionArm hw hp.live hp.deep.value domain))
  | ifExpression domain =>
    exact beginsIn_of_certain (goesOn_of_takes (yields_ifExpression hw hp.live hle ha domain))
  | forExpression domain =>
    exact beginsIn_of_certain (goesOn_of_takes (yields_forExpression hw hp.live hle ha domain))
  | type field => exact beginsIn_of_goesOn (goesOn_of_finds (yields_type hp.live field))
  | expectType field => exact beginsIn_of_certain (goesOn_expectType hp.live field)
  | importStatement =>
    exact beginsIn_of_certain (goesOn_of_takes (yields_importStatement hp.live ha))
  | typeDefinition =>
    exact beginsIn_of_certain (goesOn_of_takes (yields_typeDefinition hp.live ha))
  | enumMembers => exact beginsIn_of_certain (goesOn_enumMembers hp.live)
  | enumDefinition =>
    exact beginsIn_of_certain (goesOn_of_takes (yields_enumDefinition hp.live ha))
  | valueDefinition =>
    exact beginsIn_of_certain (goesOn_of_takes (yields_valueDefinition hw hp.live hle ha))
  | propertyDefinition => exact beginsIn_of_certain (goesOn_propertyDefinition hw hp)
  | functionDefinition => exact beginsIn_of_certain (goesOn_functionDefinition hw hp ha)
  | moduleItem =>
    exact beginsIn_of_goesOn (.of_yields ((yields_moduleItem hw hp.live hlt).mono
      fun _ _ hq => hq.2))
  | module => exact beginsIn_of_certain (goesOn_module hw hp)
  | value field =>
    exact beginsIn_of_goesOn (goesOn_of_finds (yields_value hw hp.live hp.deep.operators field))
  | expectValue field => exact beginsIn_of_certain (goesOn_expectValue hw hp field)
  | operators precedence =>
    exact beginsIn_of_goesOn (goesOn_of_finds ((yields_operators hw hp.live hlt precedence).mono
      fun _ _ => Operates.finds))
  | unary => exact beginsIn_of_goesOn (goesOn_of_findsTight (yields_unary hw hp.live hlt))
  | negation => exact beginsIn_of_certain (goesOn_of_takes (yields_negation hw hp.live hle ha))
  | postfixExpression =>
    exact beginsIn_of_goesOn (goesOn_of_findsTight (yields_postfixExpression hw hp.live hlt))
  | primary => exact beginsIn_of_goesOn (goesOn_of_finds (yields_primary hw hp.live hlt))
  | parenthesized =>
    exact beginsIn_of_certain (goesOn_of_takes (yields_parenthesized hw hp.live hle ha))
  | arguments => exact beginsIn_of_certain (goesOn_arguments hw hp)
  | interpolation field => exact beginsIn_of_certain (goesOn_interpolation hw hp field)
  | embedInterpolation => exact beginsIn_of_certain (goesOn_interpolationAs hw hp _ _)
  | rightSide field => exact beginsIn_of_goesOn (goesOn_rightSide hw hp field)
  | property =>
    exact beginsIn_of_certain (goesOn_of_takes (yields_property hw hp.live hle ha.1 ha.2))
  | propertyItem =>
    exact beginsIn_of_goesOn (.of_yields ((yields_propertyItem hw hp.live hle ha).mono
      fun _ _ hq => hq.2))
  | propertyList field inArm => exact beginsIn_of_goesOn (goesOn_propertyList hw hp field inArm)
  | elementsItem =>
    have hread : GoesOn (Grammar.elementsItem descend) p :=
      goesOn_of_finds (yields_elementsItem hw hp.live hlt ha)
    exact beginsIn_of_goesOn (hread.of_context ha)
  | elementsExpression field inArm =>
    exact beginsIn_of_goesOn (goesOn_elementsExpression hw hp field inArm)
  | mixedContent field =>
    have hread := beginsIn_of_certain (goesOn_mixedContent hw hp field)
    rw [← show p.context = .text from ha] at hread
    exact hread
  | elementContent =>
    exact leaves_certain ((bodyOnward_elementContent hw hp).mono fun _ _ hq =>
      hq.imp id fun h => ⟨rfl, h⟩)
  | textContent => exact beginsIn_of_certain (goesOn_textContent hw hp ha)
  | embedContent => exact beginsIn_of_certain (goesOn_embedContent hw hp ha)
  | plainText => exact beginsIn_of_certain (goesOn_textNode hp.live _ _ _)
  | typedText => exact beginsIn_of_certain (goesOn_textNode hp.live _ _ _)
  | rawTextRun => exact beginsIn_of_certain (goesOn_rawTextRun hp.live)
  | elementNode =>
    exact beginsIn_of_certain (goesOn_of_takes (yields_elementNode hw hp.live hle ha))
  | element field =>
    exact beginsIn_of_certain (goesOn_of_takes (yields_element hw hp.live hle ha field))

end Routine

/-! ### Operands -/

/-- What operators can be put around: the first operand of an expression,
and what a round over its operators put around the one before. -/
inductive Operand (descend : Descent) (p : Parser) : Completed → Parser → Prop
  | first {node : Completed} {q : Parser} (run : unary descend p = .ok (some node) q) :
    Operand descend p node q
  | around {precedence : Nat} {left node : Completed} {q r : Parser}
    (before : Operand descend p left q)
    (run : operatorRound descend precedence left q = .ok (.again node) r) :
    Operand descend p node r

variable {p q : Parser} {descend : Descent} {bound : Nat} {node : Completed}

/-- An operand is one node without arms, by induction on what was put around
it. -/
theorem Operand.bears (h : Operand descend p node q) (hb : Bearing descend) :
    Bears p q node none freeKinds 1 := by
  induction h with
  | first run => exact (offers_unary hb p).ok run
  | around before run ih => exact (leaves_operatorRound hb _ ih).ok run

/-- An operand starts where the expression does, by the same induction: what is
put around it starts where it does. -/
theorem Operand.offset (h : Operand descend p node q) (hs : Starting descend) :
    node.offset = p.position := by
  induction h with
  | first run => exact (mayStart_unary hs p).ok run
  | around before run ih => exact (answers_operatorRound _ _ ih _).ok run

/-- The expression so far has gone on from its start, by the same induction. -/
theorem Operand.onward (h : Operand descend p node q) (hw : Works descend bound)
    (hp : Roomy bound p) : Onward p.context p q := by
  induction h with
  | first run =>
    exact (Routine.goesOn_of_findsTight (yields_unary hw hp.live hp.deep.element)).ok run
  | around before run ih => exact ih.trans ((goesOn_operatorRound hw (hp.onward ih) _ _).ok run)

/-! ### Nodes that the grammar answers with -/

/-- The parsers of the recursive constructs as the grammar has them in `p`:
the whole descent, or what is left of it inside of other constructs. The
descent is four levels deeper than four for each character, and takes at
most four for each token. -/
inductive Descends (p : Parser) : Descent → Prop
  | whole : Descends p descent
  | inside {depth : Nat} (enough : 4 * p.room + 3 < depth) : Descends p (descentTo depth)

namespace Descends

/-- The recursive rules bear what the grammar says, whichever they are. -/
theorem bearing (h : Descends p descend) : Bearing descend := by
  cases h with
  | whole => exact bearing_descent
  | inside => exact bearing_descentTo _

/-- They start where they are called. -/
theorem starting (h : Descends p descend) : Starting descend := by
  cases h with
  | whole => exact starting_descent
  | inside => exact starting_descentTo _

/-- They work where the parse stands, since the descent is deep enough for what
is left of the source. -/
theorem exists_ready (h : Descends p descend) (hp : p.Live) :
    ∃ bound, Works descend bound ∧ Roomy bound p := by
  cases h with
  | whole => exact ⟨4 * p.room + 4, works_descent _, hp, Nat.lt_succ_self _⟩
  | inside enough => exact ⟨_, works_descentTo _, hp, enough⟩

end Descends

/-- The grammar, between `p` and `q`, answers with the node. -/
inductive Returns (descend : Descent) (p : Parser) (node : Completed) (q : Parser) : Prop
  | rule (routine : Routine) (awaits : routine.Awaits p)
    (run : routine.parse descend p = .ok (some node) q)
  | operand (built : Operand descend p node q)

/-- Whatever node the grammar answers with, its tokens begin with the one
that it starts at. Of mixed content this is known where the text begins
where code would. -/
theorem Returns.exists_covers (h : Returns descend p node q) (hd : Descends p descend)
    (hp : p.Live) (hmixed : node.kind q = .ok .mixedContent q →
      (p.relex .text).position = (p.relex .normal).position) :
    ∃ context, node.Covers context p q := by
  obtain ⟨bound, hw, hready⟩ := hd.exists_ready hp
  cases h with
  | rule routine awaits run =>
    have hgrown := (Routine.leaves_parse_grown hd.bearing awaits).ok run node rfl
    have hstarts := (Routine.leaves_parse_startsIn hd.starting hp awaits).ok run node rfl
    rcases (Routine.leaves_parse_beginsIn hw hready awaits).ok run node rfl with
      hway | ⟨hcontext, hway, hkind⟩
    · exact ⟨_, hgrown, hstarts, hway⟩
    · rw [hcontext, ← hmixed hkind.kind_eq] at hstarts
      exact ⟨_, hgrown, hstarts, hway⟩
  | operand built =>
    refine ⟨p.context, Routine.grown_of_bears (built.bears hd.bearing), ?_,
      built.onward hw hready⟩
    rw [Parser.relex_of_context rfl]
    exact built.offset hd.starting

end MarkupSyntax.Grammar
