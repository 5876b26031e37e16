import MarkupSyntax.Grammar.Operators
import MarkupSyntax.Proofs.Grammar.Sketch

/-!
# `MarkupSyntax.Proofs.Grammar.Precedence`: what every tree keeps to

`Outline.Fits` holds of every node, whether or not there are errors. It
says of a node with an operator what may be its operands. An element is
in one of its forms, and a literal has one token, of its own kind. Of
other nodes it asks nothing.

Operands to the right of an operator bind tighter. To the left there is
an exception. Behind an element, a control construct or a missing
operand a parse looks for no operator of its level, since none of them
is an operand, and leaves whatever follows to the levels around. So an
expression that ends with one of them is cut off (`Outline.isCutOff`),
and any operator may come behind it.
-/

set_option autoImplicit false

namespace MarkupSyntax

open Grammar

/-- True for the kinds of nodes without an operator. -/
def SyntaxKind.isPlain : SyntaxKind → Bool
  | .tombstone | .binaryExpression | .conditionalExpression | .prefixUnaryExpression
  | .memberAccessExpression | .callExpression => false
  | _ => true

/-- True for the kinds of nodes that may have any parts. -/
def SyntaxKind.isLoose : SyntaxKind → Bool
  | .element => false
  | kind => kind.isPlain && !kind.isLiteral

/-- True for the kinds that a node with any parts can have. -/
def SyntaxKind.isLooseNode (kind : SyntaxKind) : Bool := kind.isNode && kind.isLoose

/-- The kinds of nodes without an operator. -/
def plainKinds : Set SyntaxKind := {kind | kind.isPlain = true}

namespace Outline

/-- How tightly the operator binds that a value expression is put
together with; none if it is one of a single operand. -/
def level? (outline : Outline) : Option Nat :=
  match outline.kind with
  | .binaryExpression =>
    match (outline.child? "operator").map kind with
    | some (.token operator) => binaryPrecedence? operator
    | _ => none
  | .conditionalExpression => some conditionalPrecedence
  | _ => none

/-- True for what is no operand: elements, control constructs, and the
node for a missing operand. -/
def isForeign (outline : Outline) : Bool :=
  outline.kind = .element || outline.kind.isControl ||
    (outline.kind = .error && outline.parts.isEmpty)

/-- True for an expression whose last part is no operand. -/
def isCutOff (outline : Outline) : Bool := outline.parts.getLast?.any isForeign

/-- The expression may stand to the left of an operator that binds this
tightly. -/
def Leads (binding : Nat) (outline : Outline) : Prop :=
  outline.isCutOff = true ∨
    ∀ level ∈ outline.level?, binding ≤ level ∧ level ≠ conditionalPrecedence

/-- How tightly the operator binds that a token is between two
operands. -/
def binding? (kind : TokenKind) : Option Nat :=
  if kind = .question then some conditionalPrecedence else binaryPrecedence? kind

/-- An expression of operators that bind at least this tightly, as far as
it has come: the next token may follow. -/
def Continues (precedence : Nat) (next : TokenKind) (outline : Outline) : Prop :=
  (∀ level ∈ outline.level?, precedence ≤ level) ∧
    ∀ binding ∈ binding? next, outline.Leads binding

/-- The same expression when it is over: the next token is none of its
operators, unless no operator can follow at all. -/
def Concludes (precedence : Nat) (next : TokenKind) (outline : Outline) : Prop :=
  (∀ level ∈ outline.level?, precedence ≤ level) ∧
    (outline.isForeign = true ∨ ∀ binding ∈ binding? next, binding < precedence)

/-- The first part fills a field and has a property. -/
def StartsWith (field : String) (property : Outline → Prop) (outline : Outline) : Prop :=
  ∃ first rest, outline.parts = first :: rest ∧ first.field = some field ∧ property first

/-- The parts of the node are what its kind asks for, errors or not. -/
def Fits (outline : Outline) : Prop :=
  match outline.kind with
  | .binaryExpression => ∃ left operator right level,
    outline.parts = [left, operator, right] ∧ left.field = some "left" ∧
      operator.field = some "operator" ∧ right.field = some "right" ∧
      outline.level? = some level ∧ left.Leads level ∧ ∀ level' ∈ right.level?, level < level'
  | .conditionalExpression => outline.StartsWith "condition" (Leads conditionalPrecedence)
  | .prefixUnaryExpression => ∃ operator operand,
    outline.parts = [operator, operand] ∧ operator.field = some "operator" ∧
      operand.field = some "operand" ∧ operand.level? = none
  | .callExpression => outline.StartsWith "callee" (level? · = none)
  | .memberAccessExpression => outline.StartsWith "target" (level? · = none)
  | .element => ∃ form : ElementForm, Fills form.slots outline.parts
  | kind => kind.isLiteral = true →
    ∃ token, outline.parts = [.leaf none (.token token)] ∧ literalKind? token = some kind

/-- Kinds that ask nothing of their parts fit. -/
theorem fits_of_isLoose {outline : Outline} (h : outline.kind.isLoose = true) : outline.Fits := by
  unfold Fits
  unfold SyntaxKind.isLoose at h
  split <;> simp_all [SyntaxKind.isPlain]

/-- A literal has one token, of its own kind. -/
theorem fits_of_literalKind? {outline : Outline} {token : TokenKind}
    (hparts : outline.parts = [.leaf none (.token token)])
    (hkind : literalKind? token = some outline.kind) : outline.Fits := by
  unfold Fits
  split
  case h_7 => exact fun _ => ⟨token, hparts, hkind⟩
  all_goals
    rename_i heq
    rw [heq] at hkind
    revert hkind
    cases token <;> exact nofun

/-- A literal that fits has one part, the token of its kind. -/
theorem Fits.exists_literalToken {outline : Outline} (h : outline.Fits)
    (hliteral : outline.kind.isLiteral = true) :
    ∃ token, outline.parts = [.leaf none (.token token)] ∧
      literalKind? token = some outline.kind := by
  unfold Fits at h
  split at h
  case h_7 => exact h hliteral
  all_goals
    rename_i heq
    rw [heq] at hliteral
    cases hliteral

/-- The form of an element. -/
theorem fits_of_fills {outline : Outline} {form : ElementForm} (hkind : outline.kind = .element)
    (h : Fills form.slots outline.parts) : outline.Fits := by
  unfold Fits
  rw [hkind]
  exact ⟨form, h⟩

/-- Plain kinds are no operator expressions, so they have no level. -/
theorem level?_of_isPlain {outline : Outline} (h : outline.kind.isPlain = true) :
    outline.level? = none := by
  unfold level?
  split <;> simp_all [SyntaxKind.isPlain]

/-- A binary expression binds as its operator does. -/
theorem level?_binary {outline left operator right : Outline} {kind : TokenKind}
    (hkind : outline.kind = .binaryExpression) (hparts : outline.parts = [left, operator, right])
    (hleft : left.field = some "left") (hfield : operator.field = some "operator")
    (hoperator : operator.kind = .token kind) : outline.level? = binaryPrecedence? kind := by
  have hchild : outline.child? "operator" = some operator := by
    simp [child?, hparts, hleft, hfield]
  simp [level?, hkind, hchild, hoperator]

/-! ### Bounds -/

/-- Every binary operator binds tighter than the conditional, and looser
than the unary minus. -/
theorem binaryPrecedence_bounds {kind : TokenKind} {binding : Nat}
    (h : binaryPrecedence? kind = some binding) :
    conditionalPrecedence < binding ∧ binding < unaryPrecedence := by
  revert h
  cases kind <;> intro h <;> cases h <;> decide

/-- No operator binds looser than the conditional one. -/
theorem le_of_binding? {kind : TokenKind} {binding : Nat} (h : binding? kind = some binding) :
    conditionalPrecedence ≤ binding := by
  unfold binding? at h
  split at h
  · exact (Option.some.inj h).le
  · exact (binaryPrecedence_bounds h).1.le

/-- No operator between two operands binds as tightly as a negation. -/
theorem level?_lt {outline : Outline} {level : Nat} (h : outline.level? = some level) :
    level < unaryPrecedence := by
  unfold level? at h
  split at h
  · split at h
    · exact (binaryPrecedence_bounds h).2
    · cases h
  · rw [← Option.some.inj h]
    decide
  · cases h

/-- A conditional expression has the lowest level. -/
theorem level?_conditional {outline : Outline} (h : outline.kind = .conditionalExpression) :
    outline.level? = some conditionalPrecedence := by
  simp [level?, h]

/-- A binary expression binds tighter than a conditional. -/
theorem lt_of_level?_binary {outline : Outline} {level : Nat}
    (hkind : outline.kind = .binaryExpression) (h : outline.level? = some level) :
    conditionalPrecedence < level := by
  unfold level? at h
  rw [hkind] at h
  dsimp only at h
  split at h
  · exact (binaryPrecedence_bounds h).1
  · cases h

/-- What stands left of an operator and is not cut off is no
conditional. -/
theorem Leads.kind_ne {outline : Outline} {binding : Nat} (h : outline.Leads binding)
    (hwhole : outline.isCutOff = false) : outline.kind ≠ .conditionalExpression := by
  intro hkind
  rcases h with hcut | hlevel
  · rw [hwhole] at hcut
    cases hcut
  · exact (hlevel _ (level?_conditional hkind)).2 rfl

/-- The operand of a minus has no operator outside. -/
theorem Concludes.level?_eq_none {outline : Outline} {next : TokenKind}
    (h : outline.Concludes unaryPrecedence next) : outline.level? = none := by
  refine Option.eq_none_iff_forall_ne_some.mpr fun level hlevel => ?_
  have hle := h.1 level hlevel
  have hlt := level?_lt hlevel
  omega

/-! ### Going on behind an operand -/

section Continues

variable {outline last : Outline} {precedence : Nat} {next : TokenKind}

/-- Behind the alternative of a conditional no operator follows. -/
theorem continues_conditional (hkind : outline.kind = .conditionalExpression)
    (hlast : outline.parts.getLast? = some last)
    (h : last.Concludes conditionalPrecedence next) (hle : precedence ≤ conditionalPrecedence) :
    outline.Continues precedence next := by
  constructor
  · intro level hlevel
    unfold level? at hlevel
    rw [hkind] at hlevel
    exact Option.some.inj hlevel ▸ hle
  · intro binding hbinding
    rcases h.2 with hforeign | hlt
    · left
      rw [isCutOff, hlast]
      exact hforeign
    · have hle := le_of_binding? hbinding
      have hlt := hlt binding hbinding
      omega

/-- Behind the right operand no operator follows that binds tighter. -/
theorem continues_binary {binding : Nat} (hlevel : outline.level? = some binding)
    (hlast : outline.parts.getLast? = some last) (h : last.Concludes (binding + 1) next)
    (hlt : conditionalPrecedence < binding) (hle : precedence ≤ binding) :
    outline.Continues precedence next := by
  constructor
  · intro level hmem
    rw [hlevel] at hmem
    exact Option.some.inj hmem ▸ hle
  · intro binding' hbinding'
    rcases h.2 with hforeign | hlt'
    · left
      rw [isCutOff, hlast]
      exact hforeign
    · right
      intro level hmem
      rw [hlevel] at hmem
      have heq := Option.some.inj hmem
      have hlt' := hlt' binding' hbinding'
      omega

end Continues

/-! None of this depends on the field that the expression itself fills. -/

section WithField

variable (outline : Outline) (field : Option String)

/-- The field of an expression does not change its level. -/
@[simp] theorem level?_withField : (outline.withField field).level? = outline.level? := by
  cases outline <;> rfl

/-- Nor whether it is an operand. -/
@[simp] theorem isForeign_withField : (outline.withField field).isForeign = outline.isForeign := by
  cases outline <;> rfl

/-- Nor whether its last part is one. -/
@[simp] theorem isCutOff_withField : (outline.withField field).isCutOff = outline.isCutOff := by
  cases outline <;> rfl

/-- Nor in front of which operators it may stand. -/
@[simp] theorem leads_withField (binding : Nat) :
    (outline.withField field).Leads binding ↔ outline.Leads binding := by
  cases outline <;> rfl

/-- Nor where it is over. -/
@[simp] theorem concludes_withField (precedence : Nat) (next : TokenKind) :
    (outline.withField field).Concludes precedence next ↔ outline.Concludes precedence next := by
  cases outline <;> rfl

/-- Nor whether its parts are what its kind asks for. -/
@[simp] theorem fits_withField : (outline.withField field).Fits ↔ outline.Fits := by
  cases outline <;> rfl

end WithField

end Outline

namespace Sprout

/-- All nodes of the sprout are what their operators ask for. -/
def Orderly (sprout : Sprout) : Prop := ∀ outline ∈ sprout.outline.all, outline.Fits

/-- The same of sprouts that follow one another. -/
def OrderlyList (sprouts : List Sprout) : Prop :=
  ∀ outline ∈ Outline.allList (outlines sprouts), outline.Fits

/-- No sprouts are orderly. -/
theorem orderlyList_nil : OrderlyList [] := nofun

/-- Sprouts are orderly exactly if the first one and the others are. -/
theorem orderlyList_cons {sprout : Sprout} {rest : List Sprout} :
    OrderlyList (sprout :: rest) ↔ sprout.Orderly ∧ OrderlyList rest := by
  simp only [OrderlyList, Orderly, outlines, Outline.allList, List.forall_mem_append]

/-- Two lists of orderly sprouts are orderly together. -/
theorem orderlyList_append {sprouts sprouts' : List Sprout} (h : OrderlyList sprouts)
    (h' : OrderlyList sprouts') : OrderlyList (sprouts ++ sprouts') := by
  intro outline hmem
  rw [outlines_append, Outline.allList_append] at hmem
  rcases List.mem_append.mp hmem with hmem | hmem
  · exact h outline hmem
  · exact h' outline hmem

/-- A token of a kind that asks for nothing is orderly. -/
theorem orderly_token (kind : SyntaxKind) (stop : Nat) (field : Option String)
    (h : kind.isLoose = true) : (token kind stop field).Orderly := by
  intro outline hmem
  rw [List.mem_singleton.mp hmem]
  exact Outline.fits_of_isLoose h

/-- A node around its parts is orderly if they are and it fits them. -/
theorem orderly_of_parts {sprout : Sprout} {parts : List Sprout}
    (houtline : sprout.outline.parts = outlines parts) (hfits : sprout.outline.Fits)
    (h : OrderlyList parts) : sprout.Orderly := by
  intro outline hmem
  rcases Outline.mem_all.mp hmem with rfl | hmem
  · exact hfits
  · exact h outline (houtline ▸ hmem)

/-- Another field asks for nothing else. -/
theorem Orderly.withField {sprout : Sprout} (h : sprout.Orderly) (field : Option String) :
    (sprout.withField field).Orderly := by
  intro outline hmem
  rw [outline_withField] at hmem
  rcases Outline.mem_all.mp hmem with rfl | hmem
  · rw [Outline.fits_withField]
    exact h _ (Outline.mem_all.mpr (.inl rfl))
  · rw [Outline.parts_withField] at hmem
    exact h outline (Outline.mem_all.mpr (.inr hmem))

end Sprout

end MarkupSyntax
