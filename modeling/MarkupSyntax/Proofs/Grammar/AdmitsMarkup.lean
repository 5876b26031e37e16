import MarkupSyntax.Proofs.Grammar.Admits
import MarkupSyntax.Proofs.Grammar.Starts

/-!
# `MarkupSyntax.Proofs.Grammar.AdmitsMarkup`: the parts of values, elements and definitions
-/

set_option autoImplicit false

namespace MarkupSyntax.Grammar

open Parse SyntaxKind

variable {descend : Descent} {p q : Parser} {marker : Marker} {roles : Set Role} {extra : Nat}

/-! ### Value expressions -/

/-- Control constructs are no arms, although their kinds share a constructor
with those of the arms. -/
theorem controlKinds_subset (domain : Domain) : controlKinds domain ⊆ freeKinds := by
  intro kind hkind
  cases kind with
  | control other form =>
    have hform : form.isArm = false := by simpa using (Bool.and_eq_true_iff.mp hkind).2
    exact hform
  | _ => cases hkind

/-- A value expression is one level, and its operators stand in it. -/
theorem offers_value (h : Bearing descend) (field : Option String) :
    Offers field freeKinds 0 (value descend field) := by
  unfold value
  refine .idle (idle_seesAny _) fun _ => .ite .none_ fun p => ?_
  unfold enterNesting
  rw [bind_assoc]
  refine .get ?_
  split
  · rw [pure_bind]
    exact (((produces_nestingTooDeep field).mono (singleton_free rfl) (Nat.le_refl _)).offers) p
  rename_i hdepth
  rw [bind_assoc]
  refine .set ?_
  rw [pure_bind]
  have hinside : Leaves (ensuring Parser.leaveNesting (descend (.operators 0)))
      { p with depth := p.depth + 1 } (Offered p none freeKinds 0) := by
    refine .ensuring ((h.operators 0 _).mono fun result q hq => ?_)
    cases result with
    | some node => exact hq.leaveNesting hdepth
    | none => exact ⟨hq.events, by have := hq.depth; simp [Parser.leaveNesting, this], hq.options⟩
  refine hinside.bind fun result q hq => ?_
  cases result with
  | none => exact .pure hq
  | some node =>
    exact (leaves_setField hq field).bind fun _ _ hr => .pure (hr.1 ▸ hr.2)

/-- A value that is expected adds no arms. -/
theorem within_expectValue (h : Bearing descend) (field : Option String) :
    Within freeRoles 0 (expectValue descend field) :=
  (produces_expectValue h field).within (rolesIn_freeKinds _)

/-- An expression in parentheses adds one node without arms. -/
theorem produces_parenthesized (h : Bearing descend) :
    Produces none freeKinds 0 (parenthesized descend) := by
  unfold parenthesized
  refine .start freeRoles 0 fun p marker q hq => ?_
  refine .inside hq (.bump (tokensIn_free _) _ _) fun _ r hr => ?_
  refine .inside hr ((idle_sees _).within _ _) fun _ s hs => .ite (fun _ => ?_) fun _ => ?_
  · refine .inside hs (.bump (tokensIn_free _) _ _) fun _ _ ht => ?_
    exact (leaves_complete ht rfl (admits_free rfl)).mono fun _ _ hu =>
      hu.mono (singleton_free rfl) (Nat.le_refl _)
  · refine .inside hs (within_expectValue h _) fun _ _ ht => ?_
    refine .inside ht (.expect (tokensIn_free _) _ _ _) fun _ _ hu => ?_
    exact (leaves_complete hu rfl (admits_free rfl)).mono fun _ _ hv =>
      hv.mono (singleton_free rfl) (Nat.le_refl _)

/-- A control construct among values is one level more than the parse may
be nested deeper. -/
theorem offers_primary (h : Bearing descend) : Offers none freeKinds 1 (primary descend) := by
  intro p
  unfold primary
  refine (offers_literal none p).bind fun result q hq => ?_
  cases result with
  | some node => exact .pure (hq.mono subset_rfl (Nat.zero_le _))
  | none =>
    refine @Leaves.mono _ q _ (Offered q none freeKinds 1) _ (.get ?_) fun result r hr => ?_
    · split
      · refine (offers_start freeRoles 0 fun _ _ _ hq => ?_) q
        refine .inside hq (.bump (tokensIn_free _) _ _) fun _ _ hr => ?_
        exact (leaves_complete hr rfl (admits_free rfl)).bind fun _ _ hs =>
          .pure (hs.mono (singleton_free rfl) (Nat.zero_le _))
      · exact ((produces_parenthesized h).mono subset_rfl (Nat.zero_le _)).offers q
      · refine ((h.element none).mono ?_ (Nat.zero_le _)) q
        exact Set.insert_subset rfl (singleton_free rfl)
      · exact ((produces_ifExpression h .value).mono (controlKinds_subset _) (Nat.le_refl _)).offers q
      · exact ((produces_forExpression h .value).mono (controlKinds_subset _) (Nat.le_refl _)).offers q
      · exact .pure (.refl q)
    · cases result with
      | some node => exact hr.after hq
      | none => exact hq.trans hr

/-- Arguments add one list, in its field. -/
theorem produces_arguments (h : Bearing descend) :
    Produces (some "arguments") {.argumentList} 0 (arguments descend) := by
  have hclose : ∀ p marker q, Open p marker q freeRoles 0 → Leaves (do
      let _ ← expect .rParen
      (← marker.complete .argumentList).setField "arguments") q fun node r =>
        Bears p r node (some "arguments") {.argumentList} 0 := by
    intro p marker q hq
    refine .inside hq (.expect (tokensIn_free _) _ _ _) fun _ _ hr => ?_
    exact leaves_completeInto hr rfl (admits_free rfl) _
  unfold arguments
  refine .start freeRoles 0 fun p marker q hq => ?_
  refine .inside hq (.bump (tokensIn_free _) _ _) fun _ r hr => ?_
  refine .inside hr ((idle_sees _).within _ _) fun _ s hs => ?_
  dsimp only
  split
  · refine .inside hs (within_expectValue h _) fun _ _ ht => ?_
    refine .inside ht (.whileTrue ?_) fun _ _ hu => hclose _ _ _ hu
    refine ((idle_sees _).within _ _).bind fun _ => .ite (.pure _) ?_
    exact (Within.bump (tokensIn_free _) _ _).bind fun _ =>
      (within_expectValue h _).bind fun _ => .pure _
  · exact hclose _ _ _ hs

/-- Arguments whose node is dropped add no arms. -/
theorem within_argumentList (h : Bearing descend) : Within freeRoles 0 (argumentList descend) := by
  rw [argumentList_eq]
  exact ((produces_arguments h).within (rolesIn_free (singleton_free rfl))).bind fun _ => .pure _

/-- A node is put around a finished one. -/
theorem leaves_around {α : Type} {node : Completed} {extra : Nat} {f : Marker → Parse α}
    {post : α → Parser → Prop} (h : Bears p q node none freeKinds extra) (field : String)
    (hf : ∀ marker r, Open p marker r freeRoles extra → Leaves (f marker) r post) :
    Leaves (node.into field >>= fun _ => node.precede >>= f) q post :=
  (leaves_into h field).bind fun _ _ hr =>
    (leaves_precede hr (rolesIn_freeKinds _)).bind fun _ _ hs => hf _ _ hs

/-- An operator has no level of its own. -/
theorem leaves_operation {kind : SyntaxKind} (h : Open p marker q freeRoles 1)
    (real : kind.isNode = true) (hchoosy : kind.isChoosy = false) (hlevel : kind.level = 0)
    (hfree : kind.isArm = false) :
    Leaves (marker.complete kind) q fun node r => Bears p r node none freeKinds 1 :=
  (leaves_complete h real (admits_free hchoosy)).mono fun _ _ hr =>
    hr.mono (singleton_free hfree) (by omega)

/-- A round of the loop over members and calls puts the expression so far into a
new node, which has no more levels than that. -/
theorem leaves_postfixRound (h : Bearing descend) {node : Completed}
    (hnode : Bears p q node none freeKinds 1) :
    Leaves (postfixRound descend node) q
      (Leaves.Keeps (fun node r => Bears p r node none freeKinds 1)
        fun node r => Bears p r node none freeKinds 1) := by
  unfold postfixRound
  refine .get ?_
  split
  · refine leaves_around hnode _ fun marker r hr => ?_
    refine .inside hr (.bump (tokensIn_free _) _ _) fun _ _ hs => ?_
    have hmember : ∀ s, Open p marker s freeRoles 1 → Leaves (do
        let node ← marker.complete .memberAccessExpression
        return (Round.again node : Round Completed Completed)) s
          (Leaves.Keeps (fun node r => Bears p r node none freeKinds 1)
            fun node r => Bears p r node none freeKinds 1) :=
      fun s hs => (leaves_operation hs rfl rfl rfl rfl).bind fun _ _ ht => .pure ht
    refine .inside hs ((idle_sees _).within _ _) fun _ _ ht => .ite (fun _ => ?_) fun _ => ?_
    · exact .inside ht (.bump (tokensIn_free _) _ _) fun _ _ hu => hmember _ hu
    · exact .inside ht ((idle_reportHere _).within _ _) fun _ _ hu => hmember _ hu
  · refine leaves_around hnode _ fun marker r hr => ?_
    refine .inside hr ((within_argumentList h).mono subset_rfl (Nat.zero_le _)) fun _ _ hs => ?_
    exact (leaves_operation hs rfl rfl rfl rfl).bind fun _ _ ht => .pure ht
  · exact .pure hnode

/-- An expression with members and calls adds one node without arms, of at most
one level more than may be nested. -/
theorem offers_postfixExpression (h : Bearing descend) :
    Offers none freeKinds 1 (postfixExpression descend) := by
  intro p
  unfold postfixExpression
  refine (offers_primary h p).bind fun result q hq => ?_
  cases result with
  | none => exact .pure hq
  | some node =>
    refine (leaves_kind hq).bind fun kind r hr => ?_
    obtain ⟨rfl, -⟩ := hr
    refine .ite (fun _ => ?_) fun _ => .pure hq
    have hloop : Leaves (loop (postfixRound descend) node) r fun node s =>
        Bears p s node none freeKinds 1 :=
      .loop (fun node s => Bears p s node none freeKinds 1)
        (fun _ _ hs => leaves_postfixRound h hs) hq
    exact hloop.bind fun _ _ hs => .pure hs

/-- An operand in its field, or an empty node there. -/
theorem within_operand {m : Parse (Option Completed)} {extra : Nat} {field : String} {code : Code}
    (h : Offers none freeKinds extra m) :
    Within freeRoles extra (m >>= fun part => orMissing part field code) := fun p =>
  (h p).bind fun _ _ hq =>
    within_orMissing hq (rolesIn_free (Set.union_subset subset_rfl (singleton_free rfl)))

/-- A minus is a level, and its operand stands in it. -/
theorem produces_negation (h : Bearing descend) :
    Produces none freeKinds 1 (negation descend) := by
  unfold negation
  refine .start freeRoles 1 fun p marker q hq => ?_
  refine .inside hq (.bump (tokensIn_free _) _ _) fun _ r hr => ?_
  rw [← bind_assoc]
  exact .inside hr (within_operand (h.operators _)) fun _ _ hs =>
    leaves_operation hs rfl rfl rfl rfl

/-- A negation or what stands in its place adds such a node, or nothing. -/
theorem offers_unary (h : Bearing descend) : Offers none freeKinds 1 (unary descend) := by
  unfold unary
  refine .idle (idle_sees _) fun _ => .ite ?_ (offers_postfixExpression h)
  have hnested : Produces none freeKinds 0 (nested (nestingTooDeep none) (negation descend)) :=
    .nested ((produces_nestingTooDeep none).mono (singleton_free rfl) (Nat.le_refl _))
      (produces_negation h)
  exact (hnested.mono subset_rfl (Nat.zero_le _)).offers

/-- A conditional expression puts its condition into a node without arms, which
has no more levels than its parts. -/
theorem leaves_conditionalRest (h : Bearing descend) {condition : Completed}
    (hcondition : Bears p q condition none freeKinds 1) :
    Leaves (conditionalRest descend condition) q fun node r => Bears p r node none freeKinds 1 := by
  unfold conditionalRest
  refine leaves_around hcondition _ fun marker r hr => ?_
  refine .inside hr (.bump (tokensIn_free _) _ _) fun _ _ hr => ?_
  refine .inside hr ((within_expectValue h _).mono subset_rfl (Nat.zero_le _)) fun _ _ hr => ?_
  refine .inside hr (.expect (tokensIn_free _) _ _ _) fun _ _ hr => ?_
  rw [← bind_assoc]
  exact .inside hr (within_operand (h.operators _)) fun _ _ hs =>
    leaves_operation hs rfl rfl rfl rfl

/-- A binary expression does the same with its left operand. -/
theorem leaves_binaryRest (h : Bearing descend) {left : Completed}
    (hleft : Bears p q left none freeKinds 1) (precedence : Nat) :
    Leaves (binaryRest descend left precedence) q fun node r =>
      Bears p r node none freeKinds 1 := by
  unfold binaryRest
  refine leaves_around hleft _ fun marker r hr => ?_
  refine .inside hr (.bump (tokensIn_free _) _ _) fun _ _ hr => ?_
  rw [← bind_assoc]
  exact .inside hr (within_operand (h.operators _)) fun _ _ hs =>
    leaves_operation hs rfl rfl rfl rfl

/-- A round of the loop over operators keeps that the expression so far is one
node without arms, of at most one level more. -/
theorem leaves_operatorRound (h : Bearing descend) (precedence : Nat) {left : Completed}
    (hleft : Bears p q left none freeKinds 1) :
    Leaves (operatorRound descend precedence left) q
      (Leaves.Keeps (fun node r => Bears p r node none freeKinds 1)
        fun node r => Bears p r node none freeKinds 1) := by
  unfold operatorRound
  refine .get (.ite (fun _ => ?_) fun _ => ?_)
  · refine .ite (fun _ => .pure hleft) fun _ => ?_
    exact (leaves_conditionalRest h hleft).bind fun _ _ hr => .pure hr
  · split
    · exact .pure hleft
    · refine .ite (fun _ => .pure hleft) fun _ => ?_
      exact (leaves_binaryRest h hleft _).bind fun _ _ hr => .pure hr

/-- An expression with operators adds such a node, or nothing, by the loop over
the operators. -/
theorem offers_operators (h : Bearing descend) (precedence : Nat) :
    Offers none freeKinds 1 (operators descend precedence) := by
  intro p
  unfold operators
  refine (offers_unary h p).bind fun result q hq => ?_
  cases result with
  | none => exact .pure hq
  | some node =>
    refine (leaves_kind hq).bind fun kind r hr => ?_
    obtain ⟨rfl, -⟩ := hr
    refine .ite (fun _ => .pure hq) fun _ => ?_
    have hloop : Leaves (loop (operatorRound descend precedence) node) r fun node s =>
        Bears p s node none freeKinds 1 :=
      .loop (fun node s => Bears p s node none freeKinds 1)
        (fun _ _ hs => leaves_operatorRound h precedence hs) hq
    exact hloop.bind fun _ _ hs => .pure hs

/-! ### Properties -/

/-- A value in braces adds one node of its kind, which must not be choosy and no
level of nesting. -/
theorem produces_interpolationAs (h : Bearing descend) {kind : SyntaxKind} (after : LexContext)
    (real : kind.isNode = true) (hchoosy : kind.isChoosy = false) (hlevel : kind.level = 0) :
    Produces none {kind} 0 (interpolationAs descend kind after) := by
  unfold interpolationAs
  refine .start freeRoles 0 fun p marker q hq => ?_
  refine .inside hq (.bump (tokensIn_free _) _ _) fun _ _ hr => ?_
  refine .inside hr (within_expectValue h _) fun _ _ hr => ?_
  refine .inside hr (.expect (tokensIn_free _) _ _ _) fun _ _ hr => ?_
  exact (leaves_complete hr real (admits_free hchoosy)).mono fun _ _ hs =>
    hs.mono subset_rfl (by omega)

/-- An interpolation adds one node of its kind. -/
theorem produces_interpolation (h : Bearing descend) (field : Option String) :
    Produces field {.interpolationExpression} 0 (interpolation descend field) :=
  (produces_interpolationAs h _ rfl rfl rfl).setField field

/-- Elements and errors are no arms. -/
theorem element_error_free : ({.element, .error} : Set SyntaxKind) ⊆ freeKinds :=
  Set.insert_subset rfl (singleton_free rfl)

/-- The right side of a property adds one node without arms, or nothing. -/
theorem offers_rightSide (h : Bearing descend) (field : Option String) :
    Offers field freeKinds 0 (rightSide descend field) := by
  unfold rightSide
  refine .idle (idle_relex _) fun _ => .get fun _ => ?_
  split
  · exact (h.element field).mono element_error_free (Nat.le_refl _)
  · exact ((produces_interpolation h field).mono (singleton_free rfl) (Nat.le_refl _)).offers
  · intro p
    refine (offers_literal field p).bind fun result q hq => ?_
    cases result with
    | some node => exact .pure hq
    | none =>
      refine (produces_missing field _ 0 q).bind fun node r hr => .pure ?_
      exact (hr.after hq).mono (singleton_free rfl) (Nat.le_refl _)

/-- To ask whether a property follows records nothing. -/
theorem idle_seesProperty : Idle seesProperty := by
  refine (idle_seesAny _).bind fun _ => .ite (.loop (fun n => ?_) 1) (.pure _)
  unfold propertyNameRound
  refine (idle_nthKind n).bind fun _ => .ite (.pure _) (.ite (.pure _) ?_)
  exact (idle_nthAfterTrivia n).bind fun _ => .ite (.pure _) (.pure _)

/-- To ask whether an item of a property list follows records nothing. -/
theorem idle_seesPropertyItem : Idle seesPropertyItem :=
  idle_seesProperty.bind fun _ => .ite (.pure _) (idle_seesAny _)

/-- A property adds one node of its kind. -/
theorem produces_property (h : Bearing descend) :
    Produces none {.propertyValue} 0 (property descend) := by
  unfold property
  refine .start freeRoles 0 fun p marker q hq => ?_
  refine .inside hq ((offers_qualifiedMarkupName _).within (rolesIn_freeKinds _)) fun _ _ hr => ?_
  refine .inside hr (.expect (tokensIn_free _) _ _ _) fun _ _ hr => ?_
  refine .inside hr ((offers_rightSide h _).within (rolesIn_freeKinds _)) fun _ _ hr => ?_
  exact leaves_complete hr rfl (admits_free rfl)

/-- The kinds of parts of a list of properties. -/
def propertyKinds : Set SyntaxKind := {.propertyValue} ∪ controlKinds .properties

/-- An item of a property list adds a property or a control construct of that
domain, or nothing. -/
theorem offers_propertyItem (h : Bearing descend) :
    Offers none propertyKinds 0 (propertyItem descend) := by
  unfold propertyItem
  refine .idle idle_seesProperty fun _ => .ite ?_ (.get fun _ => ?_)
  · exact ((produces_property h).mono Set.subset_union_left (Nat.le_refl _)).offers
  · split
    · exact ((produces_ifExpression h .properties).mono Set.subset_union_right
        (Nat.le_refl _)).offers
    · exact ((produces_forExpression h .properties).mono Set.subset_union_right
        (Nat.le_refl _)).offers
    · exact .none_

/-- A property list admits its items and errors. -/
theorem propertyKinds_admitted :
    rolesIn none (propertyKinds ∪ {.error}) ⊆ SyntaxKind.propertyList.partRoles := by
  rintro ⟨field, kind⟩ ⟨-, (rfl | hkind) | rfl⟩
  · rfl
  · show admits _ _ = true
    rw [admits_eq (controlKinds_subset _ hkind)]
    have hcontrol : kind.isControlOf .properties = true := hkind
    simp [isProperty, hcontrol]
  · rfl

/-- Properties add one list, or nothing where there are none. -/
theorem offers_propertyList (h : Bearing descend) (field : Option String) (inArm : Bool) :
    Offers field {.propertyList} 0 (propertyList descend field inArm) := by
  unfold propertyList
  refine .idle (idle_relex _) fun _ => .idle idle_seesPropertyItem fun _ => .ite .none_ ?_
  rw [← bind_assoc]
  refine Produces.offers (.setField (produces_list rfl rfl rfl (idle_seesAny _) ?_
    idle_seesPropertyItem rfl (offers_propertyItem h) propertyKinds_admitted) field)
  exact .ite (idle_seesAny _) (.pure _)

/-! ### Sequences of elements -/

/-- To ask whether an item among elements follows records nothing. -/
theorem idle_seesElementsItem : Idle seesElementsItem :=
  (idle_sees _).bind fun _ => .ite ((idle_nthIs _ _).bind fun _ => .pure _) (idle_seesAny _)

/-- The kinds of items of a sequence of elements. -/
def itemKinds : Set SyntaxKind :=
  {.element, .error, .interpolationExpression} ∪ controlKinds .elements

/-- An item among elements adds an element, an interpolation or a control
construct of that domain, or nothing. -/
theorem offers_elementsItem (h : Bearing descend) :
    Offers none itemKinds 0 (elementsItem descend) := by
  unfold elementsItem
  refine .idle (idle_relex _) fun _ => .idle idle_seesElementsItem fun _ => .ite .none_ ?_
  refine .get fun _ => ?_
  split
  · exact ((produces_ifExpression h .elements).mono Set.subset_union_right (Nat.le_refl _)).offers
  · exact ((produces_forExpression h .elements).mono Set.subset_union_right (Nat.le_refl _)).offers
  · refine ((produces_interpolation h none).mono ?_ (Nat.le_refl _)).offers
    exact Set.singleton_subset_iff.mpr (.inl (.inr (.inr rfl)))
  · refine (h.element none).mono ?_ (Nat.le_refl _)
    exact Set.insert_subset (.inl (.inl rfl)) (Set.singleton_subset_iff.mpr (.inl (.inr (.inl rfl))))

/-- A sequence of elements admits its items and errors. -/
theorem itemKinds_admitted :
    rolesIn none (itemKinds ∪ {.error}) ⊆ SyntaxKind.elementsExpression.partRoles := by
  rintro ⟨field, kind⟩ ⟨-, ((rfl | rfl | rfl) | hkind) | rfl⟩
  · rfl
  · rfl
  · rfl
  · show admits _ _ = true
    rw [admits_eq (controlKinds_subset _ hkind)]
    have hcontrol : kind.isControlOf .elements = true := hkind
    simp [hcontrol]
  · rfl

/-- Elements add one sequence, or nothing where there are none. -/
theorem offers_elementsExpression (h : Bearing descend) (field : Option String) (inArm : Bool) :
    Offers field {.elementsExpression} 0 (elementsExpression descend field inArm) := by
  unfold elementsExpression
  refine .idle (idle_relex _) fun _ => .idle idle_seesElementsItem fun _ => .ite .none_ ?_
  rw [← bind_assoc]
  refine Produces.offers (.setField (produces_list rfl rfl rfl ?_ ?_ (.pure _) rfl
    (offers_elementsItem h) itemKinds_admitted) field)
  · exact (idle_sees _).bind fun _ => .ite (.pure _) idle_seesCloseTag
  · exact .ite (idle_seesAny _) (.pure _)

end MarkupSyntax.Grammar
