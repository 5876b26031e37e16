import MarkupSyntax.Proofs.Event.Draft

/-!
# `MarkupSyntax.Proofs.Event.Intent`: a draft intends one replay

`Draft.Intends` asks for several things of the steps of a replay, one by
one: which nodes are started and in which order, which tokens are taken
and where nodes are finished, and how the two go together. Nothing is left
open by that. Two lists of signs that a draft intends are the same
(`Draft.Intends.eq`), so a record that is made through markers replays to
one tree, and the draft says which.
-/

set_option autoImplicit false

namespace MarkupSyntax

namespace Sign

variable {sign sign' : Sign} {signs signs' : List Sign}

/-- A sign is that of a start, or one of those that are recorded. -/
theorem start_or_mark (sign : Sign) :
    (∃ place kind field, sign = start place kind field) ∨
      sign.place? = none ∧ ∃ step, sign.mark? = some step := by
  cases sign with
  | start place kind field => exact .inl ⟨place, kind, field, rfl⟩
  | token => exact .inr ⟨rfl, _, rfl⟩
  | finish => exact .inr ⟨rfl, _, rfl⟩

/-- A token or a finish has one sign. -/
theorem eq_of_mark {step : BuildStep} (h : sign.mark? = some step) (h' : sign'.mark? = some step) :
    sign = sign' := by
  cases sign <;> cases sign' <;> cases h <;> cases h' <;> rfl

/-- A list of signs without starts and without marks is empty. -/
theorem eq_nil (hplaces : signs.filterMap place? = []) (hmarks : signs.filterMap mark? = []) :
    signs = [] := by
  cases signs with
  | nil => rfl
  | cons sign signs =>
    rcases sign.start_or_mark with ⟨place, kind, field, rfl⟩ | ⟨-, step, hmark⟩
    · cases hplaces
    · rw [List.filterMap_cons_some hmark] at hmarks
      cases hmarks

/-- What is found in two lists behind the same sign is the same if it is the
same with the sign. -/
theorem filterMap_cancel {α : Type} {f : Sign → Option α}
    (h : (sign :: signs).filterMap f = (sign :: signs').filterMap f) :
    signs.filterMap f = signs'.filterMap f := by
  change ([sign] ++ signs).filterMap f = ([sign] ++ signs').filterMap f at h
  rw [List.filterMap_append, List.filterMap_append] at h
  exact List.append_cancel_left h

/-- The two lists start the same nodes, each behind the same marks. -/
def Agree (signs signs' : List Sign) : Prop :=
  ∀ {before before' behind behind' place kind kind' field field'},
    signs = before ++ start place kind field :: behind →
    signs' = before' ++ start place kind' field' :: behind' →
    kind = kind' ∧ field = field' ∧ before.filterMap mark? = before'.filterMap mark?

namespace Agree

/-- Agreement goes both ways. -/
theorem symm (h : Agree signs signs') : Agree signs' signs := fun hsplit hsplit' =>
  have hsame := h hsplit' hsplit
  ⟨hsame.1.symm, hsame.2.1.symm, hsame.2.2.symm⟩

/-- Behind one sign that they both have. -/
theorem tail (h : Agree (sign :: signs) (sign :: signs')) : Agree signs signs' := by
  intro before before' behind behind' place kind kind' field field' hsplit hsplit'
  obtain ⟨hkind, hfield, hmarks⟩ := @h (sign :: before) (sign :: before') _ _ _ _ _ _ _
    (congrArg (sign :: ·) hsplit) (congrArg (sign :: ·) hsplit')
  exact ⟨hkind, hfield, filterMap_cancel hmarks⟩

/-- Where one list goes on with a start, so does the other. -/
theorem mark?_eq_none {place : Nat} {kind : SyntaxKind} {field : Option String}
    (h : Agree (start place kind field :: signs) (sign :: signs'))
    (hplaces : (start place kind field :: signs).filterMap place?
      = (sign :: signs').filterMap place?) : sign.mark? = none := by
  have hmem : place ∈ (sign :: signs').filterMap place? := hplaces ▸ List.mem_cons_self
  obtain ⟨later, hlater, hplace⟩ := List.mem_filterMap.mp hmem
  obtain ⟨before, behind, hsplit⟩ := List.append_of_mem hlater
  cases later with
  | start place' kind' field' =>
    cases hplace
    -- It comes behind no mark in the first list, so it does in the second.
    have hmarks := (@h [] _ _ _ _ _ _ _ _ rfl hsplit).2.2
    cases before with
    | nil =>
      rw [(List.cons.inj hsplit).1]
      rfl
    | cons first before =>
      obtain ⟨rfl, -⟩ := List.cons.inj hsplit
      exact List.forall_none_of_filterMap_eq_nil hmarks.symm _ List.mem_cons_self
  | _ => cases hplace

/-- Lists with the same starts and the same marks that agree on what comes
before each start are the same. The induction is on both. -/
protected theorem eq (h : Agree signs signs')
    (hplaces : signs.filterMap place? = signs'.filterMap place?)
    (hmarks : signs.filterMap mark? = signs'.filterMap mark?) : signs = signs' := by
  induction signs generalizing signs' with
  | nil => exact (eq_nil hplaces.symm hmarks.symm).symm
  | cons sign signs ih =>
    cases signs' with
    | nil => exact eq_nil hplaces hmarks
    | cons sign' signs' =>
      have hsign : sign = sign' := by
        rcases sign.start_or_mark with ⟨place, kind, field, rfl⟩ | ⟨-, step, hmark⟩
        · rcases sign'.start_or_mark with ⟨place', kind', field', rfl⟩ | ⟨-, step', hmark'⟩
          · obtain rfl : place = place' := (List.cons.inj hplaces).1
            obtain ⟨rfl, rfl, -⟩ := @h [] [] _ _ _ _ _ _ _ rfl rfl
            rfl
          · rw [h.mark?_eq_none hplaces] at hmark'
            cases hmark'
        · rcases sign'.start_or_mark with ⟨place', kind', field', rfl⟩ | ⟨-, step', hmark'⟩
          · rw [mark?_eq_none (symm h) hplaces.symm] at hmark
            cases hmark
          · rw [List.filterMap_cons_some hmark, List.filterMap_cons_some hmark'] at hmarks
            exact eq_of_mark hmark ((List.cons.inj hmarks).1 ▸ hmark')
      subst hsign
      exact congrArg (sign :: ·) (ih h.tail (filterMap_cancel hplaces) (filterMap_cancel hmarks))

end Agree

end Sign

namespace Draft

variable {slots : List Slot} {draft : Draft} {signs signs' : List Sign}
  {first first' place place' : Nat}

/-- The first event of a node is at one place. -/
theorem FirstOf.eq (h : FirstOf slots first place) (h' : FirstOf slots first' place) :
    first = first' := by
  induction h with
  | self node_at childless =>
    cases h' with
    | self => rfl
    | inner node_at' child =>
      rw [node_at] at node_at'
      cases node_at'
      rw [childless] at child
      cases child
  | inner node_at child _ ih =>
    cases h' with
    | self node_at' childless =>
      rw [node_at] at node_at'
      cases node_at'
      rw [childless] at child
      cases child
    | inner node_at' child' h' =>
      rw [node_at] at node_at'
      cases node_at'
      rw [child] at child'
      cases child'
      exact ih h'

/-- Of two nodes only one comes first. -/
theorem Precedes.asymm (h : Precedes slots place place') : ¬ Precedes slots place' place := by
  rintro ⟨first₁', first₁, hfirst₁', hfirst₁, hlt₁⟩
  obtain ⟨first, first', hfirst, hfirst', hlt⟩ := h
  have heq := hfirst.eq hfirst₁
  have heq' := hfirst'.eq hfirst₁'
  omega

namespace Intends

/-- The nodes that are started are those of the draft. -/
theorem mem_places (h : draft.Intends signs) :
    place ∈ signs.filterMap Sign.place? ↔ ∃ node, draft.slots[place]? = some (.node node) := by
  rw [List.mem_filterMap]
  constructor
  · rintro ⟨sign, hmem, hplace⟩
    cases sign with
    | start =>
      cases hplace
      obtain ⟨node, hnode, -⟩ := h.start_mem.mp hmem
      exact ⟨node, hnode⟩
    | _ => cases hplace
  · rintro ⟨node, hnode⟩
    exact ⟨_, h.start_mem.mpr ⟨node, hnode, rfl, rfl⟩, rfl⟩

/-- The nodes start in one order. -/
theorem places_eq (h : draft.Intends signs) (h' : draft.Intends signs') :
    signs.filterMap Sign.place? = signs'.filterMap Sign.place? := by
  have hperm : (signs.filterMap Sign.place?).Perm (signs'.filterMap Sign.place?) :=
    (List.perm_ext_iff_of_nodup h.nodup h'.nodup).mpr fun _ => h.mem_places.trans h'.mem_places.symm
  exact hperm.eq_of_pairwise (fun _ _ _ _ hlt hlt' => absurd hlt' hlt.asymm) h.sorted h'.sorted

/-- A draft intends one list of signs. -/
theorem eq (h : draft.Intends signs) (h' : draft.Intends signs') : signs = signs' := by
  have hplaces := h.places_eq h'
  have hagree : Sign.Agree signs signs' := by
    intro _ _ _ _ _ _ _ _ _ hsplit hsplit'
    obtain ⟨first, _, _, hfirst, hbefore, -⟩ := h.nested hsplit
    obtain ⟨first', _, _, hfirst', hbefore', -⟩ := h'.nested hsplit'
    obtain ⟨node, hnode, rfl, rfl⟩ :=
      h.start_mem.mp (hsplit ▸ List.mem_append_right _ List.mem_cons_self)
    obtain ⟨node', hnode', rfl, rfl⟩ :=
      h'.start_mem.mp (hsplit' ▸ List.mem_append_right _ List.mem_cons_self)
    rw [hnode] at hnode'
    cases hnode'
    exact ⟨rfl, rfl, by rw [hbefore, hbefore', hfirst.eq hfirst']⟩
  exact hagree.eq hplaces (h.marks.trans h'.marks.symm)

end Intends

end Draft

end MarkupSyntax
