import MarkupSyntax.Grammar.Definitions
import MarkupSyntax.Grammar.Descent
import MarkupSyntax.Proofs.Grammar.AdmitsMarkup

/-!
# `MarkupSyntax.Proofs.Grammar.AdmitsContent`: the parts of elements and modules

The body of a plain element is the one place where the parse steps back
over what it has recorded and keeps. `BodyKept` is what its loop keeps:
the record is that of a sequence of elements, and up to the first control
construct also that of mixed content.

`bearing_descentTo` ties the knot: to whatever depth the recursive
constructs are parsed, they add what `Bearing` says.
-/

set_option autoImplicit false

namespace MarkupSyntax.Grammar

open Parse SyntaxKind

variable {descend : Descent} {p q r : Parser} {marker : Marker} {roles : Set Role} {extra : Nat}

/-! ### Text and mixed content -/

/-- A run of text adds one node of its kind with tokens in it. The kind must be
one that is not choosy and no level of nesting. -/
theorem produces_textNode {kind : SyntaxKind} (tokens : List TokenKind) (context : LexContext)
    (real : kind.isNode = true) (hchoosy : kind.isChoosy = false) (hlevel : kind.level = 0) :
    Produces none {kind} 0 (textNode kind tokens context) := by
  intro p
  unfold textNode
  refine (leaves_start p).bind fun marker q hq => ?_
  refine .inside (hq.open_ freeRoles 0) (.whileTrue ?_) fun _ r hr => ?_
  · refine ((idle_seesAny _).within _ _).bind fun _ => .ite (.pure _) ?_
    exact (Within.bump (tokensIn_free _) _ _).bind fun _ => .pure _
  · exact (leaves_complete hr real (admits_free hchoosy)).mono fun _ _ hs =>
      hs.mono subset_rfl (by omega)

/-- A run of text whose node is dropped adds the same. -/
theorem within_textRun {kind : SyntaxKind} (tokens : List TokenKind) (context : LexContext)
    (real : kind.isNode = true) (hchoosy : kind.isChoosy = false) (hlevel : kind.level = 0)
    (hroles : rolesIn none {kind} ⊆ roles) : Within roles 0 (textRun kind tokens context) := by
  rw [textRun_eq]
  exact ((produces_textNode tokens context real hchoosy hlevel).within hroles).bind fun _ => .pure _

/-- A token that has no place in text adds an error node. -/
theorem within_strayToken (hroles : rolesIn none {.error} ⊆ roles) :
    Within roles 0 strayToken := by
  unfold strayToken
  refine (idle_reportUnexpected.within _ _).bind fun _ p => ?_
  refine (leaves_start p).bind fun marker q hq => ?_
  refine .inside (hq.open_ freeRoles 0) (.bump (tokensIn_free _) _ _) fun _ _ hr => ?_
  exact (leaves_complete hr rfl (admits_free rfl)).bind fun _ _ hs => .pure (hs.adopts hroles)

/-- These are kinds that mixed content admits. -/
theorem rolesIn_mixed {kinds : Set SyntaxKind}
    (h : kinds ⊆ {.element, .error, .interpolationExpression, .textRun}) :
    rolesIn none kinds ⊆ SyntaxKind.mixedContent.partRoles := by
  rintro ⟨field, kind⟩ ⟨-, hkind⟩
  rcases h hkind with rfl | rfl | rfl | rfl <;> rfl

/-- The items of mixed content are elements, interpolations, runs of text and
errors. A control construct is none of them. -/
theorem within_mixedItems (h : Bearing descend) :
    Within SyntaxKind.mixedContent.partRoles 0 (mixedItems descend) := by
  refine .loop (fun progress => ?_) _
  unfold mixedRound
  refine ((idle_relex _).within _ _).bind fun _ => ((idle_sees _).within _ _).bind fun _ => ?_
  refine .ite (.pure _) ((idle_seesCloseTag.within _ _).bind fun _ => .ite (.pure _) ?_)
  refine ((idle_mustProgress _).within _ _).bind fun _ => ((idle_seesAny _).within _ _).bind
    fun _ => ?_
  dsimp only
  refine .ite ?_ (.get fun _ => ?_)
  · exact (within_textRun _ _ rfl rfl rfl (rolesIn_mixed (by simp))).bind fun _ => .pure _
  · split
    · refine ((h.element none).within (rolesIn_mixed ?_)).bind fun _ => .pure _
      rintro _ (rfl | rfl) <;> simp
    · exact ((produces_interpolation h none).within (rolesIn_mixed (by simp))).bind fun _ => .pure _
    · exact (within_strayToken (rolesIn_mixed (by simp))).bind fun _ => .pure _

/-- Mixed content adds one node of its kind. -/
theorem produces_mixedContent (h : Bearing descend) (field : Option String) :
    Produces field {.mixedContent} 0 (mixedContent descend field) :=
  .start SyntaxKind.mixedContent.partRoles 0 fun _ _ _ hq =>
    .inside hq (within_mixedItems h) fun _ _ hr =>
      leaves_completeInto hr rfl (fun _ hrole => hrole) field

/-- A body that is read anew as mixed content makes such a node of its marker,
in the field of contents. -/
theorem leaves_mixedBody (h : Bearing descend)
    (hq : Open p marker q SyntaxKind.mixedContent.partRoles 0) (shape : ContentShape) :
    Leaves (mixedBody descend marker shape) q fun node r =>
      Bears p r node (some "content") {.mixedContent} 0 := by
  have hitems : ∀ r, Open p marker r SyntaxKind.mixedContent.partRoles 0 → Leaves (do
      mixedItems descend
      (← marker.complete .mixedContent).setField "content") r fun node r =>
        Bears p r node (some "content") {.mixedContent} 0 := fun r hr =>
    .inside hr (within_mixedItems h) fun _ _ hs => leaves_completeInto hs rfl (fun _ hrole => hrole) _
  unfold mixedBody
  split
  · exact .get (.inside hq ((idle_report _).within _ _) fun _ _ hr => hitems _ hr)
  · exact hitems _ hq

/-! ### Bodies of plain elements -/

/-- What is kept while a body is read as a sequence, in the node of
`marker` that was started in `p` and had no parts in `q`. The state in
front of the first control construct is one in which the node could
become mixed content. -/
structure BodyKept (p : Parser) (marker : Marker) (q : Parser) (state : BodyState) (r : Parser) :
    Prop where
  items : Open p marker r SyntaxKind.elementsExpression.partRoles 0
  begun : q.events.toList <+: r.events.toList
  mixed : match state.firstControl with
    | none => Open p marker r SyntaxKind.mixedContent.partRoles 0
    | some before => ∃ s, Open p marker s SyntaxKind.mixedContent.partRoles 0 ∧
      before.eventCount = s.events.size ∧ before.depth = s.depth ∧
      s.events.toList <+: r.events.toList

namespace BodyKept

variable {state state' : BodyState}

/-- What a body keeps it keeps over a question, as long as the first control
construct stays the same. -/
theorem stays (h : BodyKept p marker q state r) {s : Parser} (h' : Rests r s)
    (hcontrol : state'.firstControl = state.firstControl) : BodyKept p marker q state' s := by
  refine ⟨h.items.stays h', by rw [h'.events]; exact h.begun, ?_⟩
  have hmixed := h.mixed
  rw [hcontrol]
  split at hmixed
  · exact hmixed.stays h'
  · rw [h'.events]
    exact hmixed

/-- An item that is no control construct belongs in mixed content too. -/
theorem item (h : BodyKept p marker q state r) {s : Parser} {kinds : Set SyntaxKind}
    (h' : Adopts r s (rolesIn none kinds) 0) (hkinds : kinds ⊆ itemKinds)
    (hmixed : kinds ⊆ {.element, .error, .interpolationExpression, .textRun})
    (hcontrol : state'.firstControl = state.firstControl) : BodyKept p marker q state' s := by
  obtain ⟨sprouts, hevents, -⟩ := h'.grown
  have hearlier : r.events.toList <+: s.events.toList := ⟨_, hevents.symm⟩
  refine ⟨h.items.adopts (h'.mono ?_ (Nat.le_refl _)), h.begun.trans hearlier, ?_⟩
  · exact (rolesIn_mono (hkinds.trans Set.subset_union_left)).trans itemKinds_admitted
  · have hkept := h.mixed
    rw [hcontrol]
    split at hkept
    · exact hkept.adopts (h'.mono (rolesIn_mixed hmixed) (Nat.le_refl _))
    · obtain ⟨t, ht, hcount, hdepth, hbefore⟩ := hkept
      exact ⟨t, ht, hcount, hdepth, hbefore.trans hearlier⟩

/-- The state in front of the first control construct is remembered. -/
theorem control (h : BodyKept p marker q state r) {s : Parser}
    (h' : Adopts r s (rolesIn none (controlKinds .elements)) 0)
    (hcontrol : state'.firstControl = state.firstControl.or (some r.checkpoint)) :
    BodyKept p marker q state' s := by
  obtain ⟨sprouts, hevents, -⟩ := h'.grown
  have hearlier : r.events.toList <+: s.events.toList := ⟨_, hevents.symm⟩
  refine ⟨h.items.adopts (h'.mono ?_ (Nat.le_refl _)), h.begun.trans hearlier, ?_⟩
  · exact (rolesIn_mono (Set.subset_union_right.trans Set.subset_union_left)).trans
      itemKinds_admitted
  · have hkept := h.mixed
    rw [hcontrol]
    split at hkept
    · rename_i hnone
      rw [hnone]
      exact ⟨r, hkept, rfl, rfl, hearlier⟩
    · rename_i before hsome
      rw [hsome]
      obtain ⟨t, ht, hcount, hdepth, hbefore⟩ := hkept
      exact ⟨t, ht, hcount, hdepth, hbefore.trans hearlier⟩

end BodyKept

/-- An item of a body keeps what the body keeps. If it is the first control
construct, the record in front of it stays one of mixed content, which is what
the parse may go back to. -/
theorem leaves_bodyItemRead {state : BodyState} {node : Completed} {kind : SyntaxKind} {s : Parser}
    (h : BodyKept p marker q state r) (hnode : Bears r s node none {kind} 0)
    (hkind : kind ∈ itemKinds) :
    Leaves (bodyItemRead state r.checkpoint kind) s
      (Leaves.Keeps (BodyKept p marker q) (BodyKept p marker q)) := by
  have hadopts := hnode.adopts subset_rfl
  unfold bodyItemRead
  -- An item that is no control construct is kept as it is. For the others the state may change,
  -- but only in what it remembers of the first one.
  refine .ite (fun hplain => .pure ?_) fun hcontrol => .get ?_
  · refine h.item hadopts (Set.singleton_subset_iff.mpr hkind) ?_ rfl
    rcases hkind with (rfl | rfl | rfl) | hkind
    · simp
    · simp
    · simp
    · cases kind with
      | control => cases hplain
      | _ => cases hkind
  · have hkept : ∀ {state' : BodyState},
        state'.firstControl = state.firstControl.or (some r.checkpoint) →
        BodyKept p marker q state' s := fun hstate => by
      refine h.control (hadopts.mono (rolesIn_mono ?_) (Nat.le_refl _)) hstate
      refine Set.singleton_subset_iff.mpr ?_
      rcases hkind with (rfl | rfl | rfl) | hkind
      · exact absurd rfl hcontrol
      · exact absurd rfl hcontrol
      · exact absurd rfl hcontrol
      · exact hkind
    dsimp only
    refine .ite (fun _ => .pure (hkept rfl)) fun _ => ?_
    split
    · exact .pure (hkept rfl)
    · split
      · exact .pure (hkept rfl)
      · exact .throw

/-- A round of the loop over the items of a body keeps what the body keeps. -/
theorem leaves_bodyRound (h : Bearing descend) {state : BodyState}
    (hr : BodyKept p marker q state r) :
    Leaves (bodyRound descend state) r
      (Leaves.Keeps (BodyKept p marker q) (BodyKept p marker q)) := by
  unfold bodyRound
  refine (idle_relex _ r).bind fun _ s hs => .get (.ite (fun _ => .pure (hr.stays hs rfl)) fun _ => ?_)
  refine (idle_sees _ s).bind fun _ t ht => .ite (fun _ => .pure (hr.stays (hs.trans ht) rfl))
    fun _ => ?_
  replace hs := hs.trans ht
  refine (idle_seesCloseTag t).bind fun _ u hu => .ite (fun _ => .pure (hr.stays (hs.trans hu) rfl))
    fun _ => ?_
  replace hs := hs.trans hu
  refine (idle_seesElementsItem u).bind fun _ v hv => .ite
    (fun _ => .pure (hr.stays (hs.trans hv) rfl)) fun _ => ?_
  replace hs := hs.trans hv
  refine (idle_mustProgress _ v).bind fun progress w hw => .get ?_
  replace hs := hs.trans hw
  refine (offers_elementsItem h w).bind fun result x hx => ?_
  cases result with
  | none => exact .pure (hr.stays (hs.trans hx) rfl)
  | some node =>
    refine (leaves_kind hx).bind fun kind y hy => ?_
    obtain ⟨rfl, hkind, hnode⟩ := hy
    exact leaves_bodyItemRead (hr.stays hs rfl) hnode hkind

/-- Back at an earlier state, as far as the record and the levels go. -/
theorem rests_rewind {checkpoint : Parser.Checkpoint} (hcount : checkpoint.eventCount = q.events.size)
    (hdepth : checkpoint.depth = q.depth) (hearlier : q.events.toList <+: r.events.toList)
    (hoptions : r.options = q.options) : Rests q (r.rewind checkpoint) where
  events := by
    show r.events.take checkpoint.eventCount = q.events
    rw [hcount, Trace.take_size hearlier]
  depth := hdepth
  options := hoptions

/-- At the end of a body the node is completed, or what was read is given
back and read as mixed content. -/
theorem leaves_bodyEnd (h : Bearing descend) (hq : Fresh p marker q) (offset : Nat)
    {t : Parser} {state : BodyState} (isElements : Bool)
    (ht : BodyKept p marker q state t) :
    Leaves (do
      if isElements = true then
        modify fun p => p.remember "element_content" offset (.content { isElements := true })
        (← marker.complete .elementsExpression).setField "content"
      else
        let shape : ContentShape := { isElements := false, control := state.control }
        modify fun p => p.remember "element_content" offset (.content shape)
        if readsAsTextSince q.checkpoint (← get) then modify fun p => p.rewind q.checkpoint
        else if let some before := state.firstControl then modify fun p => p.rewind before
        mixedBody descend marker shape) t fun node u =>
          Bears p u node (some "content") {.elementsExpression, .mixedContent} 0 := by
  -- From wherever the parse goes back to, the rest is mixed content.
  have hmixed : ∀ shape r, Open p marker r SyntaxKind.mixedContent.partRoles 0 →
      Leaves (mixedBody descend marker shape) r fun node s =>
        Bears p s node (some "content") {.elementsExpression, .mixedContent} 0 :=
    fun shape r hr => (leaves_mixedBody h hr shape).mono fun _ _ hs => hs.mono (by simp) (Nat.le_refl _)
  refine .ite (fun _ => ?_) fun _ => ?_
  · refine (idle_remember _ _ _ t).bind fun _ u hu => ?_
    refine (leaves_completeInto (ht.stays hu rfl).items rfl (fun _ hrole => hrole) _).mono
      fun _ _ hv => hv.mono (by simp) (Nat.le_refl _)
  · refine (idle_remember _ _ _ t).bind fun _ u hu => .get ?_
    replace ht : BodyKept p marker q state u := ht.stays hu rfl
    have hoptions := ht.items.options
    refine .ite (fun _ => .modify (hmixed _ _ ?_)) fun _ => ?_
    · exact (hq.open_ _ 0).stays
        (rests_rewind rfl rfl ht.begun (hoptions.trans hq.options.symm))
    · have hkept := ht.mixed
      split
      · rename_i before hbefore
        rw [hbefore] at hkept
        obtain ⟨v, hv, hcount, hdepth, hearlier⟩ := hkept
        exact .modify (hmixed _ _ (hv.stays
          (rests_rewind hcount hdepth hearlier (hoptions.trans hv.options.symm))))
      · rename_i hnone
        have hnone : state.firstControl = none := by
          cases hcontrol : state.firstControl with
          | none => rfl
          | some before => exact absurd hcontrol (hnone before)
        rw [hnone] at hkept
        exact hmixed _ _ hkept

/-- A body adds one node in the field of contents: a sequence of elements, or
mixed content behind a step back. `Fresh` says that nothing was added to the
marker yet. -/
theorem leaves_classifiedBody (h : Bearing descend) (hq : Fresh p marker q) (offset : Nat) :
    Leaves (classifiedBody descend marker q.checkpoint offset) q fun node r =>
      Bears p r node (some "content") {.elementsExpression, .mixedContent} 0 := by
  have hbegin : BodyKept p marker q {} q :=
    ⟨hq.open_ _ 0, List.prefix_rfl, hq.open_ _ 0⟩
  have hloop : Leaves (loop (bodyRound descend) {}) q (BodyKept p marker q) :=
    .loop (BodyKept p marker q) (fun _ _ hr => leaves_bodyRound h hr) hbegin
  unfold classifiedBody
  refine hloop.bind fun state r hr => (idle_relex _ r).bind fun _ s hs => ?_
  replace hr := hr.stays hs rfl
  dsimp only
  refine .ite (fun _ => ?_) fun _ => leaves_bodyEnd h hq offset false hr
  exact (idle_seesCloseTag s).bind fun isElements t ht =>
    leaves_bodyEnd h hq offset isElements (hr.stays ht rfl)

/-- The kinds of bodies of plain elements. -/
theorem produces_elementContent (h : Bearing descend) :
    Produces (some "content") {.elementsExpression, .mixedContent} 0 (elementContent descend) := by
  unfold elementContent
  refine .idle (idle_relex _) fun _ p => .get (.get ?_)
  split
  · refine (leaves_start p).bind fun marker q hq => ?_
    exact (leaves_mixedBody h (hq.open_ _ 0) _).mono fun _ _ hr => hr.mono (by simp) (Nat.le_refl _)
  · refine (leaves_start p).bind fun marker q hq => .get ?_
    exact leaves_classifiedBody h hq _

/-! ### Bodies of embedded elements -/

/-- The content of plain text adds one node of its kind. -/
theorem produces_textContent (h : Bearing descend) :
    Produces (some "content") {.textContent} 0 (textContent descend) := by
  have hround : ∀ progress, Within freeRoles 0 (plainTextRound descend progress) := by
    intro progress
    unfold plainTextRound
    refine ((idle_relex _).within _ _).bind fun _ => ((idle_seesAny _).within _ _).bind fun _ => ?_
    refine .ite (.pure _) (((idle_mustProgress _).within _ _).bind fun _ => ?_)
    refine ((idle_seesAny _).within _ _).bind fun _ => ?_
    dsimp only
    refine .ite ?_ (((idle_sees _).within _ _).bind fun _ => .ite ?_ ?_)
    · exact (within_textRun _ _ rfl rfl rfl (rolesIn_free (singleton_free rfl))).bind fun _ => .pure _
    · exact ((produces_interpolation h none).within (rolesIn_free (singleton_free rfl))).bind
        fun _ => .pure _
    · exact (within_strayToken (rolesIn_free (singleton_free rfl))).bind fun _ => .pure _
  unfold textContent
  exact .start freeRoles 0 fun _ _ _ hq => .inside hq (.loop hround _) fun _ _ hr =>
    leaves_completeInto hr rfl (admits_free rfl) _

/-- The content of an embedded element adds one node of its kind. -/
theorem produces_embedContent (h : Bearing descend) :
    Produces (some "content") {.embedContent} 0 (embedContent descend) := by
  have hround : ∀ progress, Within freeRoles 0 (typedTextRound descend progress) := by
    intro progress
    unfold typedTextRound
    refine ((idle_relex _).within _ _).bind fun _ => ((idle_seesAny _).within _ _).bind fun _ => ?_
    refine .ite (.pure _) (((idle_mustProgress _).within _ _).bind fun _ => ?_)
    refine ((idle_sees _).within _ _).bind fun _ => ?_
    dsimp only
    refine .ite ?_ ?_
    · exact ((produces_interpolationAs h _ rfl rfl rfl).within
        (rolesIn_free (singleton_free rfl))).bind fun _ => .pure _
    · exact (within_textRun _ _ rfl rfl rfl (rolesIn_free (singleton_free rfl))).bind fun _ => .pure _
  unfold embedContent
  exact .start freeRoles 0 fun _ _ _ hq => .inside hq (.loop hround _) fun _ _ hr =>
    leaves_completeInto hr rfl (admits_free rfl) _

/-- A raw body adds one node of its kind. -/
theorem produces_rawTextRun : Produces (some "content") {.rawTextRun} 0 rawTextRun := by
  unfold rawTextRun
  refine .start freeRoles 0 fun _ _ _ hq => .inside hq (.whileTrue ?_) fun _ _ hr =>
    leaves_completeInto hr rfl (admits_free rfl) _
  refine ((idle_sees _).within _ _).bind fun _ => .ite (.pure _) (.get fun _ => ?_)
  exact (Within.bump (tokensIn_free _) _ _).bind fun _ => .pure _

/-! ### Elements -/

/-- A closing tag adds tokens and a name, in the right form or not. -/
theorem within_closeTag : Within freeRoles 0 closeTag := by
  unfold closeTag
  refine ((idle_relex _).within _ _).bind fun _ => (idle_seesCloseTag.within _ _).bind fun _ => ?_
  refine .ite ((idle_reportExpected _).within _ _) ?_
  refine (Within.bump (tokensIn_free _) _ _).bind fun _ =>
    (Within.bump (tokensIn_free _) _ _).bind fun _ => ?_
  refine ((offers_qualifiedMarkupName _).within (rolesIn_freeKinds _)).bind fun _ => ?_
  dsimp only
  refine .ite (((idle_reportWith _ _).within _ _).bind fun _ => ?_) ?_
  all_goals exact (Within.expect (tokensIn_free _) _ _ _).bind fun _ => .pure _

/-- The type of an embedded element adds a token. -/
theorem within_textType : Within freeRoles 0 textType := by
  unfold textType
  refine .get fun _ => .ite (.pure _) ((idle_seesProperty.within _ _).bind fun _ => ?_)
  exact .ite (.pure _) ((Within.bump (tokensIn_free _) _ _).bind fun _ => .pure _)

/-- The word that makes a body raw adds a token. -/
theorem within_rawFlag : Within freeRoles 0 rawFlag := by
  unfold rawFlag
  refine .get fun _ => .ite (.pure _) ((idle_seesProperty.within _ _).bind fun _ => ?_)
  refine .ite (.pure _) (Within.bind ?_ fun _ => .pure _)
  refine (within_bump _ _ _ _).mono (rolesIn_free ?_) (Nat.le_refl _)
  rintro kind (hkind | hkind)
  · cases hkind
    rfl
  · exact range_token_subset hkind

/-- The properties of an element add one list, or nothing. -/
theorem within_propertyList (h : Bearing descend) :
    Within freeRoles 0 (propertyList descend (some "properties") false) :=
  (offers_propertyList h _ _).within (rolesIn_free (singleton_free rfl))

/-- What follows the colon of an embedded element adds no arms. -/
theorem within_embedRest (h : Bearing descend) (tag : Option Text) :
    Within freeRoles 0 (embedRest descend tag) := by
  unfold embedRest
  refine (Within.bump (tokensIn_free _) _ _).bind fun _ => within_textType.bind fun _ =>
    within_rawFlag.bind fun _ => (within_propertyList h).bind fun _ => ?_
  refine (Within.expect (tokensIn_free _) _ _ _).bind fun _ => .ite ?_ (.pure _)
  have hclose : ∀ {field : Option String} {kind : SyntaxKind} {m : Parse Completed},
      Produces field {kind} 0 m → kind.isArm = false →
      Within freeRoles 0 (m >>= fun _ => closeTag) := fun hm hfree =>
    (hm.within (rolesIn_free (singleton_free hfree))).bind fun _ => within_closeTag
  split
  · exact hclose produces_rawTextRun rfl
  · split
    · exact hclose (produces_embedContent h) rfl
    · exact hclose (produces_textContent h) rfl

/-- What follows the name of a plain element adds no arms. -/
theorem within_plainRest (h : Bearing descend) : Within freeRoles 0 (plainRest descend) := by
  unfold plainRest
  refine (within_propertyList h).bind fun _ => (Within.eat (tokensIn_free _) _ _ _).bind fun _ => ?_
  refine .ite ((Within.expect (tokensIn_free _) _ _ _).bind fun _ => .pure _) ?_
  refine (Within.expect (tokensIn_free _) _ _ _).bind fun _ => .ite ?_ (.pure _)
  refine ((produces_elementContent h).within (rolesIn_free ?_)).bind fun _ => within_closeTag
  exact Set.insert_subset rfl (singleton_free rfl)

/-- An element adds one node, and with it one level of nesting. -/
theorem produces_elementNode (h : Bearing descend) :
    Produces none {.element} 1 (elementNode descend) := by
  unfold elementNode
  refine .start freeRoles 0 fun _ _ _ hq => ?_
  refine .inside hq (.bump (tokensIn_free _) _ _) fun _ _ hq => ?_
  refine .inside hq ((offers_qualifiedMarkupName _).within (rolesIn_freeKinds _)) fun name _ hq => ?_
  have hrest : ∀ {p marker q}, Open p marker q freeRoles 0 → Leaves (do
      if ← sees .colon then
        let tag ← name.mapM Completed.text
        embedRest descend tag
      else plainRest descend
      marker.complete .element) q fun node r => Bears p r node none {.element} 1 := by
    intro p marker q hq
    refine .inside hq ((idle_sees _).within _ _) fun _ _ hq => ?_
    dsimp only
    refine .ite (fun _ => ?_) fun _ => .inside hq (within_plainRest h) fun _ _ hr =>
      leaves_complete hr rfl (admits_free rfl)
    have htext : Idle (name.mapM Completed.text) := by
      cases name with
      | none => exact .pure _
      | some node => exact (idle_text node).bind fun _ => .pure _
    refine .inside hq (htext.within _ _) fun _ _ hr => .inside hr (within_embedRest h _)
      fun _ _ hs => leaves_complete hs rfl (admits_free rfl)
  dsimp only
  refine .ite (fun _ => .inside hq ((idle_reportWith _ _).within _ _) fun _ _ hr => hrest hr)
    fun _ => hrest hq

/-- An element is a level. -/
theorem produces_element (h : Bearing descend) (field : Option String) :
    Produces field {.element, .error} 0 (element descend field) := by
  unfold element
  refine .nested ((produces_nestingTooDeep field).mono (by simp) (Nat.le_refl _)) ?_
  exact ((produces_elementNode h).setField field).mono (by simp) (Nat.le_refl _)

/-! ### Definitions -/

/-- A node of a kind that admits whatever is no arm. -/
theorem leaves_plain {kind : SyntaxKind} (hq : Open p marker q freeRoles 0)
    (real : kind.isNode = true) (hchoosy : kind.isChoosy = false) (hlevel : kind.level = 0)
    (hfree : kind.isArm = false) :
    Leaves (marker.complete kind) q fun node r => Bears p r node none freeKinds 0 :=
  (leaves_complete hq real (admits_free hchoosy)).mono fun _ _ hr =>
    hr.mono (singleton_free hfree) (by omega)

/-- A step that makes a plain node of what it adds. -/
theorem within_plain {kind : SyntaxKind} {α : Type} {answer : α} (hq : Open p marker q freeRoles 0)
    (real : kind.isNode = true) (hchoosy : kind.isChoosy = false) (hlevel : kind.level = 0)
    (hfree : kind.isArm = false) :
    Leaves (marker.complete kind >>= fun _ => pure answer) q fun _ r => Adopts p r freeRoles 0 :=
  (leaves_plain hq real hchoosy hlevel hfree).bind fun _ _ hr =>
    .pure (hr.adopts (rolesIn_freeKinds _))

/-- The name of a type adds no arms. -/
theorem within_typeName : Within freeRoles 0 typeName := by
  have hnode : ∀ isPrimitive : Bool, Within freeRoles 0 (do
      let marker ← start
      if isPrimitive then
        bump
        let _ ← marker.complete .primitiveType
      else
        let _ ← qualifiedName (some "name")
        let _ ← marker.complete .userDefinedType) := by
    intro isPrimitive p
    refine (leaves_start p).bind fun marker q hq => .ite (fun _ => ?_) fun _ => ?_
    · refine .inside (hq.open_ freeRoles 0) (.bump (tokensIn_free _) _ _) fun _ _ hr => ?_
      exact within_plain hr rfl rfl rfl rfl
    · refine .inside (hq.open_ freeRoles 0) ((offers_qualifiedName _).within (rolesIn_freeKinds _))
        fun _ _ hr => ?_
      exact within_plain hr rfl rfl rfl rfl
  unfold typeName
  refine .get fun _ => ?_
  dsimp only
  split
  · exact ((idle_nthIs _ _).within _ _).bind fun _ => hnode _
  · exact hnode false

/-- A type adds a node without arms, or nothing. -/
theorem offers_type (field : Option String) : Offers field freeKinds 0 (type field) := by
  unfold type
  refine .idle (idle_sees _) fun _ => .ite .none_ (offers_start freeRoles 0 fun p marker q hq => ?_)
  have hend : ∀ r, Open p marker r freeRoles 0 → Leaves (do
      let node ← marker.complete .typeReference
      return some (← node.setField field)) r (Offered p field freeKinds 0) := fun r hr =>
    leaves_offer hr rfl (admits_free rfl) field rfl (Nat.le_refl _)
  refine .inside hq within_typeName fun _ _ hq => ?_
  refine .inside hq ((idle_sees _).within _ _) fun _ _ hq => ?_
  dsimp only
  refine .ite (fun _ => .inside hq (.bump (tokensIn_free _) _ _) fun _ r hr => hend r hr) fun _ => ?_
  refine .inside hq (.eat (tokensIn_free _) _ _ _) fun _ _ hq => ?_
  refine .ite (fun _ => ?_) fun _ => hend _ hq
  exact .inside hq (.expect (tokensIn_free _) _ _ _) fun _ r hr => hend r hr

/-- A type that is expected adds one node without arms. -/
theorem produces_expectType (field : Option String) :
    Produces field freeKinds 0 (expectType field) := by
  intro p
  unfold expectType
  refine (offers_type field p).bind fun result q hq => ?_
  cases result with
  | some node => exact .pure hq
  | none =>
    refine (produces_missing field _ 0 q).mono fun node r hr => ?_
    exact (hr.after hq).mono (singleton_free rfl) (Nat.le_refl _)

/-- The same when its node is dropped. -/
theorem within_expectType (field : Option String) : Within freeRoles 0 (expectType field) :=
  (produces_expectType field).within (rolesIn_freeKinds _)

/-- An import adds one node without arms. -/
theorem produces_importStatement : Produces none freeKinds 0 importStatement := by
  unfold importStatement
  refine .start freeRoles 0 fun _ _ _ hq => ?_
  refine .inside hq (.bump (tokensIn_free _) _ _) fun _ _ hq => ?_
  refine .inside hq ((offers_qualifiedName _).within (rolesIn_freeKinds _)) fun _ _ hq => ?_
  dsimp only
  refine .ite (fun _ => ?_) fun _ => leaves_plain hq rfl rfl rfl rfl
  exact .inside hq ((idle_reportWith _ _).within _ _) fun _ _ hr => leaves_plain hr rfl rfl rfl rfl

/-- The definition of a type adds one node without arms. -/
theorem produces_typeDefinition : Produces none freeKinds 0 typeDefinition := by
  unfold typeDefinition
  refine .start freeRoles 0 fun _ _ _ hq => ?_
  refine .inside hq (.bump (tokensIn_free _) _ _) fun _ _ hq => ?_
  refine .inside hq (within_expectNameInto (tokensIn_free _)) fun _ _ hq => ?_
  refine .inside hq (.expect (tokensIn_free _) _ _ _) fun _ _ hq => ?_
  exact .inside hq (within_expectType _) fun _ _ hr => leaves_plain hr rfl rfl rfl rfl

/-- A member of an enumeration adds no arms. -/
theorem within_enumMember : Within freeRoles 0 enumMember := by
  unfold enumMember
  refine ((idle_sees _).within _ _).bind fun _ => .ite ?_ ((idle_reportWith _ _).within _ _)
  intro p
  refine (leaves_start p).bind fun marker q hq => ?_
  refine .inside (hq.open_ freeRoles 0) (.bump (tokensIn_free _) _ _) fun _ _ hr => ?_
  exact within_plain hr rfl rfl rfl rfl

/-- The members of an enumeration add one list, in its field. -/
theorem produces_enumMembers : Produces (some "members") {.enumMemberList} 0 enumMembers := by
  unfold enumMembers
  refine .start freeRoles 0 fun _ _ _ hq => ?_
  refine .inside hq (.eat (tokensIn_free _) _ _ _) fun _ _ hq => ?_
  refine .inside hq within_enumMember fun _ _ hq => ?_
  refine .inside hq (.whileTrue ?_) fun _ _ hq => leaves_completeInto hq rfl (admits_free rfl) _
  exact (Within.eat (tokensIn_free _) _ _ _).bind fun _ =>
    .ite (.pure _) (within_enumMember.bind fun _ => .pure _)

/-- The same when its node is dropped. -/
theorem within_enumMemberList : Within freeRoles 0 enumMemberList := by
  rw [enumMemberList_eq]
  exact (produces_enumMembers.within (rolesIn_free (singleton_free rfl))).bind fun _ => .pure _

/-- An enumeration adds one node without arms. -/
theorem produces_enumDefinition : Produces none freeKinds 0 enumDefinition := by
  unfold enumDefinition
  refine .start freeRoles 0 fun _ _ _ hq => ?_
  refine .inside hq (.bump (tokensIn_free _) _ _) fun _ _ hq => ?_
  refine .inside hq (within_expectNameInto (tokensIn_free _)) fun _ _ hq => ?_
  refine .inside hq (.expect (tokensIn_free _) _ _ _) fun _ _ hq => ?_
  exact .inside hq within_enumMemberList fun _ _ hr => leaves_plain hr rfl rfl rfl rfl

/-- The type behind a colon adds no arms. -/
theorem within_typeAnnotation (field : String) : Within freeRoles 0 ( typeAnnotation field) :=
  (Within.eat (tokensIn_free _) _ _ _).bind fun _ =>
    .ite ((within_expectType _).bind fun _ => .pure _) (.pure _)

/-- The right side of a property adds no arms. -/
theorem within_rightSide (h : Bearing descend) (field : Option String) :
    Within freeRoles 0 (rightSide descend field) :=
  (offers_rightSide h field).within (rolesIn_freeKinds _)

/-- The definition of a value adds one node without arms. -/
theorem produces_valueDefinition (h : Bearing descend) :
    Produces none freeKinds 0 (valueDefinition descend) := by
  unfold valueDefinition
  refine .start freeRoles 0 fun _ _ _ hq => ?_
  refine .inside hq (.bump (tokensIn_free _) _ _) fun _ _ hq => ?_
  refine .inside hq (within_expectNameInto (tokensIn_free _)) fun _ _ hq => ?_
  refine .inside hq ( within_typeAnnotation _) fun _ _ hq => ?_
  refine .inside hq (.expect (tokensIn_free _) _ _ _) fun _ _ hq => ?_
  exact .inside hq (within_rightSide h _) fun _ _ hr => leaves_plain hr rfl rfl rfl rfl

/-- The definition of a property adds one node of its kind, as a parameter. -/
theorem produces_propertyDefinition (h : Bearing descend) :
    Produces (some "parameter") {.propertyDefinition} 0 (propertyDefinition descend) := by
  unfold propertyDefinition
  refine .start freeRoles 0 fun p marker q hq => ?_
  refine .inside hq ((idle_relex _).within _ _) fun _ _ hq => ?_
  refine .inside hq ((idle_seesAny _).within _ _) fun _ _ hq => ?_
  have hend : ∀ r, Open p marker r freeRoles 0 → Leaves (do
      let _ ← expect .colon
      let _ ← expectType (some "type")
      if ← eat .equal then let _ ← rightSide descend (some "default")
      let node ← marker.complete .propertyDefinition
      node.setField "parameter") r fun node s =>
        Bears p s node (some "parameter") {.propertyDefinition} 0 := by
    intro r hr
    have hcomplete : ∀ s, Open p marker s freeRoles 0 → Leaves (do
        let node ← marker.complete .propertyDefinition
        node.setField "parameter") s fun node t =>
          Bears p t node (some "parameter") {.propertyDefinition} 0 := fun s hs =>
      leaves_completeInto hs rfl (admits_free rfl) _
    refine .inside hr (.expect (tokensIn_free _) _ _ _) fun _ _ hr => ?_
    refine .inside hr (within_expectType _) fun _ _ hr => ?_
    refine .inside hr (.eat (tokensIn_free _) _ _ _) fun _ _ hr => ?_
    refine .ite (fun _ => ?_) fun _ => hcomplete _ hr
    exact .inside hr (within_rightSide h _) fun _ _ hs => hcomplete _ hs
  dsimp only
  refine .ite (fun _ => ?_) fun _ => ?_
  · exact .inside hq (.bump (tokensIn_free _) _ _) fun _ r hr => hend r hr
  · exact .inside hq ((idle_reportWith _ _).within _ _) fun _ r hr => hend r hr

/-- The same when its node is dropped. -/
theorem within_propertyDefinition (h : Bearing descend) :
    Within freeRoles 0 (propertyDefinition descend) :=
  (produces_propertyDefinition h).within (rolesIn_free (singleton_free rfl))

/-- The head of a component adds tokens, a name and its parameters. -/
theorem within_componentHead (h : Bearing descend) : Within freeRoles 0 (componentHead descend) := by
  have hparameter : ∀ progress, Within freeRoles 0 (componentParameter descend progress) := by
    intro progress
    unfold componentParameter
    refine ((idle_seesAny _).within _ _).bind fun _ => .ite (.pure _) ?_
    refine ((idle_mustProgress _).within _ _).bind fun _ => ?_
    exact (within_propertyDefinition h).bind fun _ => ((idle_relex _).within _ _).bind fun _ => .pure _
  have hend : Within freeRoles 0 (do
      loop (componentParameter descend) {}
      let _ ← expect .slash .tag
      let _ ← expect .greaterThan) :=
    (Within.loop hparameter _).bind fun _ => (Within.expect (tokensIn_free _) _ _ _).bind fun _ =>
      (Within.expect (tokensIn_free _) _ _ _).bind fun _ => .pure _
  unfold componentHead
  refine (Within.bump (tokensIn_free _) _ _).bind fun _ => ?_
  refine ((offers_qualifiedMarkupName _).within (rolesIn_freeKinds _)).bind fun _ => ?_
  exact .ite (((idle_reportWith _ _).within _ _).bind fun _ => hend) hend

/-- The head of a function adds tokens, a name and its parameters. -/
theorem within_functionHead (h : Bearing descend) : Within freeRoles 0 (functionHead descend) := by
  have hclose : Within freeRoles 0 (do let _ ← expect .rParen) :=
    (Within.expect (tokensIn_free _) _ _ _).bind fun _ => .pure _
  unfold functionHead
  refine (Within.bump (tokensIn_free _) _ _).bind fun _ =>
    (Within.bump (tokensIn_free _) _ _).bind fun _ => ((idle_sees _).within _ _).bind fun _ => ?_
  refine .ite ((within_propertyDefinition h).bind fun _ => (Within.whileTrue ?_).bind
    fun _ => hclose) hclose
  exact (Within.eat (tokensIn_free _) _ _ _).bind fun _ =>
    .ite (.pure _) ((within_propertyDefinition h).bind fun _ => .pure _)

/-- The definition of a function adds one node without arms, with either
head. -/
theorem produces_functionDefinition (h : Bearing descend) :
    Produces none freeKinds 0 (functionDefinition descend) := by
  unfold functionDefinition
  refine .start freeRoles 0 fun p marker q hq => ?_
  refine .inside hq (.bump (tokensIn_free _) _ _) fun _ _ hq => ?_
  refine .inside hq ((idle_sees _).within _ _) fun _ _ hq => ?_
  have hend : ∀ r, Open p marker r freeRoles 0 → Leaves (do
      typeAnnotation "return_type"
      let _ ← expect .equal
      let _ ← rightSide descend (some "body")
      marker.complete .functionDefinition) r fun node s => Bears p s node none freeKinds 0 := by
    intro r hr
    refine .inside hr ( within_typeAnnotation _) fun _ _ hr => ?_
    refine .inside hr (.expect (tokensIn_free _) _ _ _) fun _ _ hr => ?_
    exact .inside hr (within_rightSide h _) fun _ _ hs => leaves_plain hs rfl rfl rfl rfl
  dsimp only
  refine .ite (fun _ => ?_) fun _ => ?_
  · exact .inside hq (within_componentHead h) fun _ r hr => hend r hr
  · exact .inside hq (within_functionHead h) fun _ r hr => hend r hr

/-! ### Modules -/

/-- To ask whether a function is defined records nothing. -/
theorem idle_seesFunctionHead : Idle seesFunctionHead :=
  (idle_nthIs _ _).bind fun _ => .ite (.pure _)
    ((idle_nthIs _ _).bind fun _ => .ite (idle_nthIs _ _) (.pure _))

/-- An item of a module, in a field that goes by what it is. -/
theorem leaves_moduleItem (h : Bearing descend) (p : Parser) :
    Leaves (moduleItem descend) p fun result q => ∃ field, Offered p field freeKinds 0 result q := by
  have hoffers : ∀ {m : Parse (Option Completed)} {field : Option String} (q : Parser), Rests p q →
      Offers field freeKinds 0 m →
      Leaves m q fun result r => ∃ field, Offered p field freeKinds 0 result r := by
    intro m field q hq hm
    refine (hm q).mono fun result r hr => ⟨field, ?_⟩
    cases result with
    | none => exact hq.trans hr
    | some => exact hr.after hq
  unfold moduleItem
  refine .get ?_
  split
  · exact hoffers p (.refl p) produces_importStatement.offers
  · exact hoffers p (.refl p) produces_typeDefinition.offers
  · exact hoffers p (.refl p) produces_enumDefinition.offers
  · refine (idle_seesFunctionHead p).bind fun _ q hq => .ite (fun _ => ?_) fun _ => ?_
    · exact hoffers q hq (produces_functionDefinition h).offers
    · exact hoffers q hq (produces_valueDefinition h).offers
  · refine (idle_nthIs _ _ p).bind fun _ q hq => .ite (fun _ => .pure ⟨none, hq⟩) fun _ => ?_
    exact hoffers q hq ((h.element _).mono element_error_free (Nat.le_refl _))
  · exact hoffers p (.refl p) ((produces_interpolation h _).mono (singleton_free rfl)
      (Nat.le_refl _)).offers
  · exact .pure ⟨none, .refl p⟩

/-- An item of a module adds one node without arms, or nothing. -/
theorem within_moduleItem (h : Bearing descend) : Within freeRoles 0 (moduleItem descend) := fun p =>
  (leaves_moduleItem h p).mono fun result _ hq => by
    obtain ⟨field, hq⟩ := hq
    cases result with
    | none => exact .of_rests hq ..
    | some => exact hq.adopts (rolesIn_freeKinds _)

/-- A round of the loop over a module adds an item, or an error with what was
skipped in it. -/
theorem within_moduleRound (h : Bearing descend) (progress : Progress) :
    Within freeRoles 0 (moduleRound descend progress) := by
  unfold moduleRound
  refine ((idle_sees _).within _ _).bind fun _ => .ite (.pure _) ?_
  refine ((idle_mustProgress _).within _ _).bind fun _ => (within_moduleItem h).bind fun _ => ?_
  refine .ite (.pure _) ?_
  have hskip : Within freeRoles 0 moduleRecovery.skipUnexpected :=
    within_skipUnexpected (.pure _) rfl (rolesIn_free (singleton_free rfl))
  refine hskip.bind fun _ => ?_
  dsimp only
  refine .ite (fun p => ?_) (.pure _)
  refine (leaves_start p).bind fun marker q hq => ?_
  refine .inside (hq.open_ freeRoles 0) (.bump (tokensIn_free _) _ _) fun _ _ hr => ?_
  exact within_plain hr rfl rfl rfl rfl

/-- A module adds one node of its kind. -/
theorem produces_module (h : Bearing descend) :
    Produces none {.moduleDefinition} 0 (module descend) := by
  unfold module
  refine .start freeRoles 0 fun _ _ _ hq => ?_
  exact .inside hq (.loop (within_moduleRound h) _) fun _ _ hr =>
    leaves_complete hr rfl (admits_free rfl)

/-! ### The recursive constructs -/

/-- What a recursive construct adds, given what those inside it add. -/
theorem bearing_step (h : Bearing descend) : Bearing (step descend) where
  value := offers_value h
  operators := offers_operators h
  element field := (produces_element h field).offers
  body domain field := by
    cases domain with
    | value => exact h.value (some field)
    | elements =>
      exact (offers_elementsExpression h (some field) true).mono (by simp [bodyKinds]) (Nat.le_refl _)
    | properties => exact offers_propertyList h (some field) true

/-- To any depth the recursive constructs bear what `Bearing` says, by induction
on the depth. At depth zero they fail, so nothing is left to show. -/
theorem bearing_descentTo (depth : Nat) : Bearing (descentTo depth) := by
  induction depth with
  | zero => exact ⟨fun _ _ => .throw, fun _ _ => .throw, fun _ _ => .throw, fun _ _ _ => .throw⟩
  | succ depth ih => exact bearing_step ih

/-- The recursive constructs of the grammar bear what `Bearing` says. They take
their depth from the state, so it is read first. -/
theorem bearing_descent : Bearing descent where
  value field := .get fun _ => (bearing_descentTo _).value field
  operators precedence := .get fun _ => (bearing_descentTo _).operators precedence
  element field := .get fun _ => (bearing_descentTo _).element field
  body domain field := .get fun _ => (bearing_descentTo _).body domain field

end MarkupSyntax.Grammar
