import MarkupSyntax.Grammar.Descent
import MarkupSyntax.Proofs.Parse.Bears

/-!
# `MarkupSyntax.Proofs.Grammar.Admits`: the parts of control constructs and values

For each rule of the grammar the parts that it adds, with errors or
without (`MarkupSyntax.Proofs.Parse.Bears`). Most nodes admit whatever is
no arm of a control construct, so most rules only have to show that they
add no arm. Lists, arms and the bodies of control constructs are where
there is more to show, and where the domains are kept apart.

`Bearing` is what a rule has to know of the recursive constructs. A value
that is parsed with its operators may have one level more than the parse
may still be nested deeper: a control construct among values is a level
that was entered with the value around it. Everything else has no more.
-/

set_option autoImplicit false

namespace MarkupSyntax

namespace SyntaxKind

/-- The roles of the parts that a node admits. -/
def partRoles (parent : SyntaxKind) : Set Role := {role | parent.admits role = true}

/-- True for the nodes that do not admit everything but arms. -/
def isChoosy : SyntaxKind → Bool
  | propertyList | elementsExpression | mixedContent | control _ _ => true
  | _ => false

end SyntaxKind

namespace Grammar

open Parse SyntaxKind

/-! ### Roles -/

/-- The roles of parts that are no arms. -/
def freeRoles : Set Role := {role | role.2 ∈ freeKinds}

/-- The kinds of the bodies of a domain, or of what stands for one. -/
def bodyKinds : Domain → Set SyntaxKind
  | .value => freeKinds
  | .elements => {.elementsExpression, .error}
  | .properties => {.propertyList}

/-- For a part that is no arm, what a parent admits is decided by the parent and
the role. Lists, the two kinds of content and the control constructs of elements
and properties are choosy; all others admit the part. -/
theorem admits_eq {parent : SyntaxKind} {role : Role} (h : role.2.isArm = false) :
    parent.admits role = match parent with
      | .propertyList => role.2.isProperty
      | .elementsExpression => role.2.isMarkup || role.2.isControlOf .elements
      | .mixedContent => role.2.isMarkup || role.2 = .textRun
      | .control .elements _ =>
        !isBodyField role.1 || role.2 = .elementsExpression || role.2 = .error
      | .control .properties _ => !isBodyField role.1 || role.2 = .propertyList
      | _ => true := by
  obtain ⟨field, kind⟩ := role
  unfold admits
  split
  · rename_i hkind
    simp only at hkind
    rw [hkind] at h
    cases h
  · rename_i hkind
    simp only at hkind
    rw [hkind] at h
    cases h
  · rfl

/-- Most nodes admit whatever is no arm. -/
theorem admits_free {parent : SyntaxKind} (h : parent.isChoosy = false) :
    ∀ role ∈ freeRoles, parent.admits role = true := by
  intro role hrole
  rw [admits_eq hrole]
  unfold isChoosy at h
  split <;> first | rfl | cases h

/-- Kinds that are no arms have roles that are no arms, in any field. -/
theorem rolesIn_free {field : Option String} {kinds : Set SyntaxKind} (h : kinds ⊆ freeKinds) :
    rolesIn field kinds ⊆ freeRoles := fun _ hrole => h hrole.2

/-- All kinds that are no arms, in any field, are such roles. -/
theorem rolesIn_freeKinds (field : Option String) : rolesIn field freeKinds ⊆ freeRoles :=
  rolesIn_free subset_rfl

/-- Tokens are no arms. -/
theorem range_token_subset : Set.range SyntaxKind.token ⊆ freeKinds := by
  rintro _ ⟨kind, rfl⟩
  rfl

/-- Tokens are no arms in any field. -/
theorem tokensIn_free (field : Option String) : tokensIn field ⊆ freeRoles :=
  rolesIn_free range_token_subset

/-- A single kind that is no arm. -/
theorem singleton_free {kind : SyntaxKind} (h : kind.isArm = false) : {kind} ⊆ freeKinds :=
  Set.singleton_subset_iff.mpr h

/-! ### Names and literals -/

variable {roles : Set Role} {extra : Nat}

/-- To skip over brackets adds tokens only, and those are no arms. -/
theorem within_skipGroup (depth : Nat) : Within freeRoles 0 (skipGroup depth) := by
  unfold skipGroup
  refine ((idle_sees _).within _ _).bind fun _ => .ite (.pure _) ?_
  refine ((idle_seesAny _).within _ _).bind fun _ => ((idle_seesAny _).within _ _).bind fun _ => ?_
  refine .ite (.pure _) ?_
  dsimp only
  exact (Within.bump (tokensIn_free _) _ _).bind fun _ => .ite (.pure _) (.pure _)

/-- What stands for a part that is nested too deep is an error node with tokens
in it. -/
theorem produces_nestingTooDeep (field : Option String) :
    Produces field {.error} 0 (nestingTooDeep field) :=
  .idle (idle_reportHere _) fun _ => .start freeRoles 0 fun _ _ _ h =>
    .inside h (.loop within_skipGroup 0) fun _ _ h =>
      leaves_completeInto h rfl (admits_free rfl) field

/-- The kinds of literals. -/
theorem literalKind?_spec {token : TokenKind} {kind : SyntaxKind} (h : literalKind? token = some kind) :
    kind.isArm = false ∧ kind.isNode = true ∧ kind.isChoosy = false ∧ kind.level = 0 := by
  revert h
  cases token <;> intro h <;> cases h <;> exact ⟨rfl, rfl, rfl, rfl⟩

/-- A node is started, and answered with unless it is given up. -/
theorem offers_start {field : Option String} {kinds : Set SyntaxKind} {extra' : Nat}
    {f : Marker → Parse (Option Completed)} (roles : Set Role) (extra : Nat)
    (hf : ∀ p marker q, Open p marker q roles extra →
      Leaves (f marker) q (Offered p field kinds extra')) :
    Offers field kinds extra' (start >>= f) := fun p =>
  (leaves_start p).bind fun marker q hq => hf p marker q (hq.open_ roles extra)

/-- A literal adds a node without arms, or nothing. -/
theorem offers_literal (field : Option String) : Offers field freeKinds 0 (literal field) := by
  unfold literal
  refine .get fun p => ?_
  split
  · exact .none_
  · rename_i kind hkind
    obtain ⟨hfree, hreal, hchoosy, hlevel⟩ := literalKind?_spec hkind
    refine offers_start freeRoles 0 fun _ _ _ h => ?_
    refine .inside h (.bump (tokensIn_free _) _ _) fun _ _ h => ?_
    exact leaves_offer h hreal (admits_free hchoosy) field hfree (by omega)

/-- A name with dots adds a node without arms, or nothing. -/
theorem offers_qualifiedName (field : Option String) :
    Offers field freeKinds 0 (qualifiedName field) := by
  unfold qualifiedName
  refine .idle (idle_sees _) fun _ => .ite .none_ ?_
  refine offers_start freeRoles 0 fun _ _ _ h => ?_
  refine .inside h (.bump (tokensIn_free _) _ _) fun _ _ h => ?_
  refine .inside h (.whileTrue ?_) fun _ _ h => ?_
  · refine ((idle_sees _).within _ _).bind fun _ => .ite (.pure _) ?_
    refine ((idle_nthIs _ _).within _ _).bind fun _ => .ite (.pure _) ?_
    exact (Within.bump (tokensIn_free _) _ _).bind fun _ =>
      (Within.bump (tokensIn_free _) _ _).bind fun _ => .pure _
  · exact leaves_offer h rfl (admits_free rfl) field rfl (Nat.le_refl _)

/-- The further parts of a name in a tag are tokens. -/
theorem within_markupNameSegments : Within freeRoles 0 markupNameSegments := by
  refine .whileTrue (((idle_sees _).within _ _).bind fun _ => .ite (.pure _) ?_)
  refine (Within.bump (tokensIn_free _) _ _).bind fun _ => ((idle_seesAny _).within _ _).bind fun _ =>
    .ite ?_ (((idle_reportHere _).within _ _).bind fun _ => .pure _)
  exact (Within.bump (tokensIn_free _) _ _).bind fun _ => .pure _

/-- A name in a tag adds a node without arms, or nothing. -/
theorem offers_qualifiedMarkupName (field : Option String) :
    Offers field freeKinds 0 (qualifiedMarkupName field) := by
  unfold qualifiedMarkupName
  refine .idle (idle_relex _) fun _ => .idle (idle_seesAny _) fun _ => .ite .none_ ?_
  refine offers_start freeRoles 0 fun _ _ _ h => ?_
  refine .inside h (.bump (tokensIn_free _) _ _) fun _ _ h => ?_
  refine .inside h within_markupNameSegments fun _ _ h => ?_
  exact leaves_offer h rfl (admits_free rfl) field rfl (Nat.le_refl _)

/-- A pattern adds a node without arms, or nothing. -/
theorem offers_pattern : Offers (some "pattern") freeKinds 0 pattern := by
  intro p
  unfold pattern
  refine (leaves_start p).bind fun marker q hq => ?_
  have hrest : ∀ result r, Offered q none freeKinds 0 result r →
      Leaves (if result.isNone then do
          marker.abandon
          return none
        else do
          let node ← marker.complete .pattern
          return some (← node.setField "pattern")) r (Offered p (some "pattern") freeKinds 0) := by
    intro result r hr
    cases result with
    | none => exact (leaves_abandon (hq.stays hr)).bind fun _ _ hs => .pure hs
    | some node =>
      have h := (hq.open_ freeRoles 0).adopts (hr.adopts (rolesIn_freeKinds _))
      exact leaves_offer h rfl (admits_free rfl) _ rfl (Nat.le_refl _)
  refine (offers_literal none q).bind fun result r hr => ?_
  cases result with
  | some node => exact hrest (some node) r hr
  | none =>
    refine (offers_qualifiedName none r).bind fun result s hs => hrest result s ?_
    cases result with
    | some node => exact hs.after hr
    | none => exact hr.trans hs

/-! ### Skipping and lists -/

section Recovering

variable {recovery : Recovery}

/-- To ask whether it is safe to go on records nothing, as long as the question
of the caller does not. -/
theorem idle_isSafe (h : Idle recovery.resumes) : Idle recovery.isSafe := by
  unfold Recovery.isSafe
  refine (idle_seesAny _).bind fun _ => .ite (.pure _) (.ite ?_ h)
  exact idle_seesCloseTag.bind fun _ => .ite (.pure _) h

/-- To skip adds tokens only. -/
theorem within_skip (h : Idle recovery.resumes) (depth : Nat) :
    Within freeRoles 0 (recovery.skip depth) := by
  have hbump : Within freeRoles 0 (do
      let isOpener ← seesAny Recovery.openers
      let isCloser ← sees .rBrace
      bump
      return (Round.again
        (if isOpener then depth + 1 else if isCloser then depth - 1 else depth) : Round Nat Unit)) :=
    ((idle_seesAny _).within _ _).bind fun _ => ((idle_sees _).within _ _).bind fun _ =>
      (Within.bump (tokensIn_free _) _ _).bind fun _ => .pure _
  unfold Recovery.skip
  refine ((idle_sees _).within _ _).bind fun _ => .ite (.pure _) (.ite ?_ hbump)
  exact ((idle_isSafe h).within _ _).bind fun _ => .ite (.pure _) hbump

/-- What is skipped becomes an error node. -/
theorem leaves_recover (h : Idle recovery.resumes) (hkind : recovery.nodeKind = .error)
    (p : Parser) :
    Leaves recovery.recover p fun result q => Offered p none {.error} 0 result.toOption q := by
  unfold Recovery.recover
  have hnothing : ∀ q (refusal : RecoveryRefusal), Rests p q →
      Leaves (pure (.error refusal) : Parse (Except RecoveryRefusal Completed)) q
        fun result q => Offered p none {.error} 0 result.toOption q := fun q _ hq => .pure hq
  refine (idle_sees _ p).bind fun _ q hq => .ite (fun _ => hnothing q _ hq) fun _ => ?_
  refine (idle_isSafe h q).bind fun _ r hr => ?_
  have hr := hq.trans hr
  refine .ite (fun _ => hnothing r _ hr) fun _ => .get (.ite (fun _ => hnothing r _ hr) fun _ => ?_)
  refine (leaves_start r).bind fun marker s hs => ?_
  refine .inside (hs.open_ freeRoles 0) (.loop (within_skip h) 0) fun _ t ht => ?_
  rw [hkind]
  exact (leaves_complete ht rfl (admits_free rfl)).bind fun _ _ hu => .pure (hu.after hr)

/-- Skipped tokens are put into one error node, which must be among the roles
that the rule allows. -/
theorem within_skipUnexpected (h : Idle recovery.resumes) (hkind : recovery.nodeKind = .error)
    (hroles : rolesIn none {.error} ⊆ roles) : Within roles 0 recovery.skipUnexpected := by
  have hrecover : Within roles 0 recovery.recover := fun p =>
    (leaves_recover h hkind p).mono fun result q hq => by
      cases result with
      | error => exact .of_rests hq ..
      | ok => exact hq.adopts hroles
  exact (idle_reportUnexpected.within _ _).bind fun _ => hrecover.bind fun _ => .pure _

/-- A list of items that its node admits. -/
theorem produces_list {list : ItemList} {kinds : Set SyntaxKind} {kind : SyntaxKind}
    (hkind : list.nodeKind = kind) (real : kind.isNode = true) (hlevel : kind.level = 0)
    (hends : Idle list.ends) (hyields : Idle list.yields) (hresumes : Idle list.recovery.resumes)
    (herror : list.recovery.nodeKind = .error) (hitem : Offers none kinds 0 list.item)
    (hroles : rolesIn none (kinds ∪ {.error}) ⊆ kind.partRoles) :
    Produces none {kind} 0 list.parse := by
  have hround : ∀ progress, Within kind.partRoles 0 (list.round progress) := by
    intro progress
    have hskip := within_skipUnexpected hresumes herror
      ((rolesIn_mono Set.subset_union_right).trans hroles)
    have hitem := hitem.within ((rolesIn_mono Set.subset_union_left).trans hroles)
    unfold ItemList.round
    refine ((idle_relex _).within _ _).bind fun _ => ((idle_sees _).within _ _).bind fun _ => ?_
    refine .ite (.pure _) ((hends.within _ _).bind fun _ => .ite (.pure _) ?_)
    refine ((idle_mustProgress _).within _ _).bind fun _ => hitem.bind fun _ => .ite (.pure _) ?_
    refine (hyields.within _ _).bind fun _ => .ite (.pure _) ?_
    exact hskip.bind fun _ => .ite (.pure _) (.pure _)
  unfold ItemList.parse
  rw [hkind]
  refine .start kind.partRoles 0 fun _ _ _ h => .inside h (.loop hround {}) fun _ _ h => ?_
  have hcomplete := leaves_complete h real fun _ hrole => hrole
  rwa [hlevel] at hcomplete

end Recovering

/-! ### The recursive constructs -/

/-- What the parsers of the recursive constructs add. -/
structure Bearing (descend : Descent) : Prop where
  value : ∀ field, Offers field freeKinds 0 (descend (.value field))
  operators : ∀ precedence, Offers none freeKinds 1 (descend (.operators precedence))
  element : ∀ field, Offers field {.element, .error} 0 (descend (.element field))
  body : ∀ domain field, Offers (some field) (bodyKinds domain) 0 (descend (.body domain field))

variable {descend : Descent} {domain : Domain} {form : ControlForm} {p q : Parser} {marker : Marker}

/-- A value that is expected adds one node without arms: the value, or what
stands for it. -/
theorem produces_expectValue (h : Bearing descend) (field : Option String) :
    Produces field freeKinds 0 (expectValue descend field) := by
  intro p
  refine (h.value field p).bind fun result q hq => ?_
  cases result with
  | some node => exact .pure hq
  | none =>
    refine (produces_missing field _ 0 q).mono fun node r hr => ?_
    exact (hr.after hq).mono (singleton_free rfl) (Nat.le_refl _)

/-! ### Bodies and arms -/

/-- The parts of a control construct outside its bodies. -/
def headRoles : Set Role := {role | role.2 ∈ freeKinds ∧ isBodyField role.1 = false}

/-- What may stand in the head of a control construct may stand in it at all. -/
theorem headRoles_subset : headRoles ⊆ (SyntaxKind.control domain form).partRoles := by
  rintro role ⟨hfree, hfield⟩
  show admits _ role = true
  rw [admits_eq hfree]
  cases domain <;> simp [hfield]

/-- What is open with parts of a head may become any control construct. -/
theorem open_head (domain : Domain) (form : ControlForm) (h : Open p marker q headRoles 0) :
    Open p marker q (SyntaxKind.control domain form).partRoles 0 :=
  h.mono headRoles_subset (Nat.le_refl _)

/-- Kinds that are no arms may stand in the head, in any field that is none of a
body. -/
theorem rolesIn_head {field : Option String} {kinds : Set SyntaxKind} (hkinds : kinds ⊆ freeKinds)
    (hfield : isBodyField field = false) : rolesIn field kinds ⊆ headRoles := by
  rintro role ⟨rfl, hkind⟩
  exact ⟨hkinds hkind, hfield⟩

/-- Tokens may stand in the head, in any field that is none of a body. -/
theorem tokensIn_head {field : Option String} (hfield : isBodyField field = false) :
    tokensIn field ⊆ headRoles :=
  rolesIn_head range_token_subset hfield

/-- A control construct admits a body of its domain. -/
theorem rolesIn_body (field : Option String) :
    rolesIn field (bodyKinds domain) ⊆ (SyntaxKind.control domain form).partRoles := by
  rintro role ⟨-, hkind⟩
  have hfree : role.2.isArm = false := by
    cases domain with
    | value => exact hkind
    | elements => rcases hkind with hkind | hkind <;> rw [hkind] <;> rfl
    | properties => rw [hkind]; rfl
  show admits _ role = true
  rw [admits_eq hfree]
  cases domain with
  | value => rfl
  | elements => rcases hkind with hkind | hkind <;> simp [Set.mem_singleton_iff.mp hkind]
  | properties => simp [Set.mem_singleton_iff.mp hkind]

/-- A body adds one node of its domain, which the control construct admits in
the fields of bodies. -/
theorem within_body (h : Bearing descend) (field : String) :
    Within (SyntaxKind.control domain form).partRoles 0 (body descend domain field) := by
  unfold body
  refine ((idle_relex _).within _ _).bind fun _ => ?_
  refine ((h.body domain field).within (rolesIn_body _)).bind fun result => ?_
  split
  -- Where a body is missing, an error stands for it; properties may be missing.
  · rename_i hmissing
    have herror : {SyntaxKind.error} ⊆ bodyKinds domain := by
      cases domain with
      | value => exact singleton_free rfl
      | elements => exact Set.singleton_subset_iff.mpr (.inr rfl)
      | properties => simp at hmissing
    exact ((produces_missing (some field) _ 0).within
      ((rolesIn_mono herror).trans (rolesIn_body _))).bind fun _ => .pure _
  · exact .pure _

/-- A closing brace is a token; where it is missing, nothing is added. -/
theorem within_closingBrace : Within (SyntaxKind.control domain form).partRoles 0 closingBrace :=
  ((idle_relex _).within _ _).bind fun _ =>
    (Within.expect ((tokensIn_head rfl).trans headRoles_subset) _ _ _).bind fun _ => .pure _

/-- A body in braces adds the braces and the body. -/
theorem within_bracedBody (h : Bearing descend) (field : String) :
    Within (SyntaxKind.control domain form).partRoles 0 (bracedBody descend domain field) := by
  unfold bracedBody
  refine (Within.expect ((tokensIn_head rfl).trans headRoles_subset) _ _ _).bind fun _ => ?_
  exact .ite ((within_body h field).bind fun _ => within_closingBrace) (.pure _)

/-- To ask for a separator of arms records nothing. -/
theorem idle_seesArmSeparator : Idle seesArmSeparator := .get fun _ => .pure _

/-- What follows the patterns or the condition of an arm is the separator and a
body. -/
theorem within_armTail (h : Bearing descend) (field : String) :
    Within (SyntaxKind.control domain form).partRoles 0 (armTail descend domain field) := by
  have htoken : tokensIn none ⊆ (SyntaxKind.control domain form).partRoles :=
    (tokensIn_head rfl).trans headRoles_subset
  unfold armTail
  refine (idle_seesArmSeparator.within _ _).bind fun _ => ?_
  exact .ite ((Within.bump htoken _ _).bind fun _ => within_body h field)
    (((idle_reportExpected _).within _ _).bind fun _ => within_body h field)

/-- An arm of a match adds an arm of the match of its domain, or nothing. -/
theorem offers_matchArm (h : Bearing descend) :
    Offers none {.control domain .matchArm} 0 (matchArm descend domain) := by
  have hhead : ∀ {kinds : Set SyntaxKind}, kinds ⊆ freeKinds →
      rolesIn (some "pattern") kinds ⊆ (SyntaxKind.control domain .matchArm).partRoles :=
    fun hkinds => (rolesIn_head hkinds rfl).trans headRoles_subset
  intro p
  unfold matchArm
  refine (leaves_start p).bind fun marker q hq => ?_
  refine (offers_pattern q).bind fun result r hr => ?_
  cases result with
  | none => exact (leaves_abandon (hq.stays hr)).bind fun _ _ hs => .pure hs
  | some node =>
    have hopen := (hq.open_ _ 0).adopts (hr.adopts (hhead subset_rfl))
    refine .inside hopen (.whileTrue ?_) fun _ s hs => ?_
    · refine ((idle_sees _).within _ _).bind fun _ => .ite (.pure _) ?_
      refine (Within.bump ((tokensIn_head rfl).trans headRoles_subset) _ _).bind fun _ => ?_
      refine (offers_pattern.within (hhead subset_rfl)).bind fun _ => .ite ?_ (.pure _)
      exact ((produces_missing _ _ 0).within (hhead (singleton_free rfl))).bind fun _ => .pure _
    · refine .inside hs (within_armTail h "body") fun _ t ht => ?_
      refine (leaves_complete ht rfl fun _ hrole => hrole).bind fun _ _ hu => .pure ?_
      exact hu.mono subset_rfl (by cases domain <;> exact Nat.le_refl _)

/-- An arm with a condition adds an arm of the condition list of its domain, or
nothing. -/
theorem offers_conditionArm (h : Bearing descend) :
    Offers none {.control domain .conditionArm} 0 (conditionArm descend domain) := by
  intro p
  unfold conditionArm
  refine (leaves_start p).bind fun marker q hq => ?_
  refine (h.value (some "condition") q).bind fun result r hr => ?_
  cases result with
  | none => exact (leaves_abandon (hq.stays hr)).bind fun _ _ hs => .pure hs
  | some node =>
    have hopen := (hq.open_ headRoles 0).adopts (hr.adopts (rolesIn_head subset_rfl rfl))
    refine .inside (open_head domain .conditionArm hopen) (within_armTail h "body") fun _ s hs => ?_
    refine (leaves_complete hs rfl fun _ hrole => hrole).bind fun _ _ ht => .pure ?_
    exact ht.mono subset_rfl (by cases domain <;> exact Nat.le_refl _)

/-- Arms stand in the construct that they are arms of. -/
theorem within_arms (h : Bearing descend) {arm : Parse (Option Completed)} {armForm : ControlForm}
    (harm : Offers none {.control domain armForm} 0 arm)
    (hroles : rolesIn none {.control domain armForm} ⊆ (SyntaxKind.control domain form).partRoles) :
    Within (SyntaxKind.control domain form).partRoles 0 (arms descend domain arm) := by
  have htoken : tokensIn none ⊆ (SyntaxKind.control domain form).partRoles :=
    (tokensIn_head rfl).trans headRoles_subset
  have hskip : Within (SyntaxKind.control domain form).partRoles 0 armRecovery.skipUnexpected :=
    within_skipUnexpected (.pure _) rfl
      ((rolesIn_head (singleton_free rfl) rfl).trans headRoles_subset)
  unfold arms
  refine (Within.loop (fun state => ?_) _).bind fun _ => .ite ?_ (.pure _)
  · unfold armsRound
    refine ((idle_relex _).within _ _).bind fun _ => ((idle_seesAny _).within _ _).bind fun _ => ?_
    refine .ite (.pure _) (((idle_mustProgress _).within _ _).bind fun _ => ?_)
    refine ((idle_sees _).within _ _).bind fun _ => .ite ?_ ?_
    · exact (Within.bump htoken _ _).bind fun _ => (within_armTail h "else").bind fun _ => .pure _
    · refine (harm.within hroles).bind fun _ => .ite (.pure _) ?_
      exact hskip.bind fun _ => .ite (.pure _) (.pure _)
  · exact (idle_reportWith _ _).within _ _

/-- Arms of a match may stand in a match of their domain. -/
theorem rolesIn_matchArm :
    rolesIn none {.control domain .matchArm}
      ⊆ (SyntaxKind.control domain .ifMatch).partRoles := by
  rintro ⟨field, kind⟩ ⟨hfield, hkind⟩
  obtain rfl : field = none := hfield
  obtain rfl : kind = _ := hkind
  exact decide_eq_true rfl

/-- Arms with a condition may stand in a condition list of their domain. -/
theorem rolesIn_conditionArm :
    rolesIn none {.control domain .conditionArm}
      ⊆ (SyntaxKind.control domain .ifConditionList).partRoles := by
  rintro ⟨field, kind⟩ ⟨hfield, hkind⟩
  obtain rfl : field = none := hfield
  obtain rfl : kind = _ := hkind
  exact decide_eq_true rfl

/-! ### Control constructs -/

/-- The control constructs of a domain, their arms excluded. -/
def controlKinds (domain : Domain) : Set SyntaxKind := {kind | kind.isControlOf domain = true}

/-- The levels that a control construct of a domain adds. -/
def controlLevel : Domain → Nat
  | .value => 1
  | _ => 0

/-- Completing a control construct that is open. -/
theorem leaves_control (h : Open p marker q (SyntaxKind.control domain form).partRoles 0)
    (hform : form.isArm = false) :
    Leaves (marker.complete (.control domain form)) q fun node r =>
      Bears p r node none (controlKinds domain) (controlLevel domain) := by
  refine (leaves_complete h rfl fun _ hrole => hrole).mono fun _ _ hr => hr.mono ?_ ?_
  · refine Set.singleton_subset_iff.mpr ?_
    show isControlOf domain (.control domain form) = true
    simp [isControlOf, hform]
  · cases domain <;> simp [level, hform, controlLevel]

/-- A simple condition makes of its marker a control construct of its domain.
The hypothesis says that only a head has been added to the marker. -/
theorem leaves_simpleRest (h : Bearing descend) (hq : Open p marker q headRoles 0) :
    Leaves (simpleRest descend domain marker) q fun node r =>
      Bears p r node none (controlKinds domain) (controlLevel domain) := by
  unfold simpleRest
  refine .inside (open_head domain .ifSimple hq) (within_bracedBody h "then")
    fun _ _ hr => ?_
  have htoken : tokensIn none ⊆ (SyntaxKind.control domain .ifSimple).partRoles :=
    (tokensIn_head rfl).trans headRoles_subset
  refine .inside hr (.eat htoken _ _ _) fun _ _ hr => ?_
  dsimp only
  split
  · exact .inside hr (within_bracedBody h "else") fun _ _ hs => leaves_control hs rfl
  · exact leaves_control hr rfl

/-- A match makes of its marker a control construct of its domain. -/
theorem leaves_matchRest (h : Bearing descend) (hq : Open p marker q headRoles 0) :
    Leaves (matchRest descend domain marker) q fun node r =>
      Bears p r node none (controlKinds domain) (controlLevel domain) := by
  have htoken : tokensIn none ⊆ (SyntaxKind.control domain .ifMatch).partRoles :=
    (tokensIn_head rfl).trans headRoles_subset
  unfold matchRest
  refine .inside (open_head domain .ifMatch hq) (.bump htoken _ _) fun _ _ hr => ?_
  refine .inside hr (.expect htoken _ _ _) fun _ _ hr => ?_
  dsimp only
  split
  · refine .inside hr (within_arms h (offers_matchArm h) rolesIn_matchArm) fun _ _ hs => ?_
    exact .inside hs within_closingBrace fun _ _ ht => leaves_control ht rfl
  · exact leaves_control hr rfl

/-- A list of conditions makes of its marker a control construct of its
domain. -/
theorem leaves_conditionListRest (h : Bearing descend) (hq : Open p marker q headRoles 0) :
    Leaves (conditionListRest descend domain marker) q fun node r =>
      Bears p r node none (controlKinds domain) (controlLevel domain) := by
  have htoken : tokensIn none ⊆ (SyntaxKind.control domain .ifConditionList).partRoles :=
    (tokensIn_head rfl).trans headRoles_subset
  unfold conditionListRest
  refine .inside (open_head domain .ifConditionList hq) (.bump htoken _ _) fun _ _ hr => ?_
  refine .inside hr (within_arms h (offers_conditionArm h) rolesIn_conditionArm) fun _ _ hs => ?_
  exact .inside hs within_closingBrace fun _ _ ht => leaves_control ht rfl

/-- What is tried is done with the level of speculation back as it was, whether
it succeeds or not. -/
theorem leaves_leaveSpeculation {α : Type} {m : Parse α} (h : Within freeRoles 0 m) (p : Parser) :
    Leaves (ensuring Parser.leaveSpeculation m) p.enterSpeculation fun _ q =>
      Adopts p q freeRoles 0 :=
  .ensuring ((h _).mono fun _ _ hq => ⟨⟨hq.depth, hq.options⟩, hq.grown⟩)

/-- Whatever is read in speculation is taken back. -/
theorem idle_speculateIfForm (h : Bearing descend) : Idle (speculateIfForm descend) := by
  have hread : Within freeRoles 0 (do
      bump
      if ← sees .elseKeyword then
        bump
        seesArmSeparator
      else if (← descend (.value none)).isSome then seesArmSeparator
      else return false) := by
    refine (Within.bump (tokensIn_free _) _ _).bind fun _ => ?_
    refine ((idle_sees _).within _ _).bind fun _ => .ite ?_ ?_
    · exact (Within.bump (tokensIn_free _) _ _).bind fun _ => idle_seesArmSeparator.within _ _
    · exact ((h.value none).within (rolesIn_freeKinds _)).bind fun _ =>
        .ite (idle_seesArmSeparator.within _ _) (.pure _)
  intro p
  unfold speculateIfForm speculating
  refine .get ?_
  rw [bind_assoc]
  refine .modify ?_
  refine (leaves_leaveSpeculation hread p).bind fun _ q hq => .modify (.pure ⟨?_, rfl, hq.options⟩)
  exact hq.take_events

/-- An `if` without a condition is a match without a scrutinee, or it has an
error in the place of the condition. It is a control construct of its domain
either way. -/
theorem leaves_ifWithoutCondition (h : Bearing descend) (hq : Open p marker q headRoles 0) :
    Leaves (ifWithoutCondition descend domain marker) q fun node r =>
      Bears p r node none (controlKinds domain) (controlLevel domain) := by
  unfold ifWithoutCondition
  refine (idle_sees _ q).bind fun _ r hr => .ite (fun _ => leaves_matchRest h (hq.stays hr)) fun _ => ?_
  refine .inside (hq.stays hr) ((idle_reportWith _ _).within _ _) fun _ _ hr => ?_
  refine .inside hr ((produces_missing _ _ 0).within (rolesIn_head (singleton_free rfl) rfl))
    fun _ _ hr => ?_
  refine (idle_sees _ _).bind fun _ s hs => .ite (fun _ => leaves_simpleRest h (hr.stays hs)) fun _ => ?_
  exact leaves_control (open_head domain .ifSimple (hr.stays hs)) rfl

/-- An `if` with an expression is of one of the three forms, and the expression
is part of its head, as the scrutinee or the condition. -/
theorem leaves_ifWithExpression (h : Bearing descend) {leading : Completed} {r : Parser}
    (hq : Open p marker q headRoles 0) (hleading : Bears q r leading none freeKinds 0) :
    Leaves (ifWithExpression descend domain marker leading) r fun node s =>
      Bears p s node none (controlKinds domain) (controlLevel domain) := by
  -- Whichever field the expression goes into, it is a part of the head.
  have hinto : ∀ {s : Parser} (field : String) {f : Unit → Parse Completed}, Rests r s →
      isBodyField (some field) = false →
      (∀ t, Open p marker t headRoles 0 → Leaves (f ()) t fun node u =>
        Bears p u node none (controlKinds domain) (controlLevel domain)) →
      Leaves (leading.into field >>= f) s fun node u =>
        Bears p u node none (controlKinds domain) (controlLevel domain) := by
    intro s field f hs hfield hf
    refine (leaves_into (hleading.stays hs) field).bind fun _ t ht => hf t (hq.adopts ?_)
    exact ht.adopts (rolesIn_head subset_rfl hfield)
  unfold ifWithExpression
  refine (idle_sees _ r).bind fun _ s hs => .ite (fun _ => ?_) fun _ => ?_
  · exact hinto "scrutinee" hs rfl fun _ ht => leaves_matchRest h ht
  refine (idle_sees _ s).bind fun _ t ht => .ite (fun _ => ?_) fun _ => ?_
  · refine hinto "condition" (hs.trans ht) rfl fun u hu => .get ?_
    refine .inside hu ((idle_reportWith _ _).within _ _) fun _ _ hv => ?_
    exact leaves_control (open_head domain .ifSimple hv) rfl
  · refine (idle_memoized (idle_speculateIfForm h) _ t).bind fun _ u hu => ?_
    have hu := (hs.trans ht).trans hu
    split
    · exact hinto "scrutinee" hu rfl fun _ hv => leaves_conditionListRest h hv
    · exact hinto "condition" hu rfl fun _ hv => leaves_simpleRest h hv

/-- An `if` adds one control construct of its domain, by its three forms. -/
theorem produces_ifExpression (h : Bearing descend) (domain : Domain) :
    Produces none (controlKinds domain) (controlLevel domain) (ifExpression descend domain) := by
  unfold ifExpression
  refine .start headRoles 0 fun p marker q hq => ?_
  refine .inside hq (.bump (tokensIn_head rfl) _ _) fun _ r hr => ?_
  refine (idle_sees _ r).bind fun _ s hs => .ite
    (fun _ => leaves_conditionListRest h (hr.stays hs)) fun _ => ?_
  refine (h.value none s).bind fun result t ht => ?_
  cases result with
  | none => exact leaves_ifWithoutCondition h ((hr.stays hs).stays ht)
  | some leading => exact leaves_ifWithExpression h (hr.stays hs) ht

/-- A name that is expected adds a token in its field, or nothing. -/
theorem within_expectNameInto {field : String} (hroles : tokensIn (some field) ⊆ roles) :
    Within roles extra (expectNameInto field) :=
  ((idle_sees _).within _ _).bind fun _ => .ite (.bump hroles _ _) ((idle_reportHere _).within _ _)

/-- A `for` adds one control construct of its domain. -/
theorem produces_forExpression (h : Bearing descend) (domain : Domain) :
    Produces none (controlKinds domain) (controlLevel domain) (forExpression descend domain) := by
  have hbody : ∀ p marker q, Open p marker q headRoles 0 →
      Leaves (do
        let _ ← expect .inKeyword
        let _ ← expectValue descend "iterable"
        bracedBody descend domain "body"
        marker.complete (.control domain .forLoop)) q fun node r =>
          Bears p r node none (controlKinds domain) (controlLevel domain) := by
    intro p marker q hq
    refine .inside hq (.expect (tokensIn_head rfl) _ _ _) fun _ _ hr => ?_
    refine .inside hr ((produces_expectValue h _).within (rolesIn_head subset_rfl rfl))
      fun _ _ hr => ?_
    refine .inside (open_head domain .forLoop hr) (within_bracedBody h "body") fun _ _ hs => ?_
    exact leaves_control hs rfl
  unfold forExpression
  refine .start headRoles 0 fun p marker q hq => ?_
  refine .inside hq (.bump (tokensIn_head rfl) _ _) fun _ _ hr => ?_
  refine .inside hr (within_expectNameInto (tokensIn_head rfl)) fun _ _ hr => ?_
  refine .inside hr (.eat (tokensIn_head rfl) _ _ _) fun _ _ hr => ?_
  dsimp only
  split
  · exact .inside hr (within_expectNameInto (tokensIn_head rfl)) fun _ _ hs => hbody _ _ _ hs
  · exact hbody _ _ _ hr

end Grammar

end MarkupSyntax
