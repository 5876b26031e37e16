import MarkupSyntax.Proofs.Document.Precedence
import MarkupSyntax.Proofs.Tree.Lookup
import MarkupSyntax.View.Basic

/-!
# `MarkupSyntax.Proofs.Document.ElementForms`: what a view tells of the form of an element

In every document, with errors or without, the parts of an element fill
the slots of exactly one of its forms (`Finished.exists_form`). The view
of an element finds the form from single tokens and fields. It is right
about embedded elements, about the body, and about the name in the
closing tag (`parse_element_forms`).

It takes an element for one that closes itself if there is a slash and
no name in a closing tag. That is so for elements that do close
themselves, and also where the name is missing in the closing tag, as in
`<a></>`: the slash is then the one of `</`
(`exists_selfClosing_with_content`).
-/

set_option autoImplicit false

namespace MarkupSyntax

namespace Located

variable {node part : Located}

/-- Only a token has a kind in its label. -/
theorem snd_label_outline (part : Located) :
    part.outline.label.2 = if part.isLeaf then some part.kind else none := by
  obtain ⟨source, tree, start, above⟩ := part
  cases tree <;> rfl

/-- The label of a part has its field. -/
theorem fst_label_outline (part : Located) : part.outline.label.1 = part.field? := by
  rw [Outline.fst_label, field_outline]

/-- Some child has a property of its outline if some part does. -/
theorem exists_child_iff (wanted : Outline → Prop) :
    (∃ child ∈ node.children, wanted child.outline) ↔ ∃ part ∈ node.outline.parts, wanted part := by
  rw [← map_outline_children]
  simp only [List.mem_map, exists_exists_and_eq_and]

/-- There is a child in a field if a part fills it. -/
theorem isSome_child?_iff (field : String) :
    (node.child? field).isSome = true ↔ ∃ part ∈ node.outline.parts, part.label.1 = some field := by
  rw [← exists_child_iff fun part => part.label.1 = some field, child?, List.find?_isSome]
  simp only [fst_label_outline, decide_eq_true_eq]

/-- There is a token of a kind if a part is one. -/
theorem isSome_tokenOfKind?_iff (kind : SyntaxKind) :
    (node.tokenOfKind? kind).isSome = true ↔
      ∃ part ∈ node.outline.parts, part.label.2 = some kind := by
  rw [← exists_child_iff fun part => part.label.2 = some kind, tokenOfKind?, List.find?_isSome]
  simp only [childTokens, List.mem_filter, snd_label_outline, decide_eq_true_eq]
  constructor
  · rintro ⟨child, ⟨hmem, hleaf⟩, hkind⟩
    exact ⟨child, hmem, by rw [if_pos hleaf, hkind]⟩
  · rintro ⟨child, hmem, hlabel⟩
    by_cases hleaf : child.isLeaf = true
    · rw [if_pos hleaf] at hlabel
      exact ⟨child, ⟨hmem, hleaf⟩, Option.some.inj hlabel⟩
    · rw [if_neg hleaf] at hlabel
      cases hlabel

/-- A name in a field is there if a child is in the field. -/
theorem isSome_nameIn?_iff (field : String) :
    (node.nameIn? field).isSome = true ↔ (node.child? field).isSome = true := by
  rw [nameIn?, Option.isSome_map]

/-- The body of an element has a view. -/
theorem isSome_nodeView?_of_body (h : Slot.body.Admits part.outline) :
    part.nodeView?.isSome = true := by
  have hnode : part.isNode = true := by
    by_contra hleaf
    rw [Bool.not_eq_true] at hleaf
    have hlabel := part.snd_label_outline
    rw [h.label, isLeaf_eq_not_isNode, hleaf] at hlabel
    cases hlabel
  have hkind : part.kind.isBody = true := part.kind_outline ▸ h.kind
  unfold nodeView? view?
  rw [if_pos hnode]
  revert hkind
  cases part.kind <;> first | exact fun _ => rfl | exact nofun

end Located

namespace Element

variable {view : Element} {form : ElementForm}

/-- What the view tells of an element of a form. Each answer of the view is
characterised by the form, and the form by the slots that the parts fill. -/
structure Shows (view : Element) (form : ElementForm) : Prop where
  fills : Fills form.slots (view.node.children.map Located.outline)
  isEmbed : view.isEmbed = true ↔ form.isEmbedded = true
  /-- A closing tag without a name is mistaken for the end of a tag that
  closes itself. -/
  isSelfClosing : view.isSelfClosing = true ↔
    form = .selfClosing ∨ form.body? = some .nameless
  content? : view.content?.isSome = true ↔ form.hasContent = true
  closeName? : view.closeName?.isSome = true ↔ form.body? = some .named

section

variable (h : Fills form.slots view.node.outline.parts)

include h

/-- The closing tag has a name if and only if the form says so. -/
theorem isSome_closeName?_iff : view.closeName?.isSome = true ↔ form.body? = some .named := by
  rw [closeName?, Located.isSome_nameIn?_iff, Located.isSome_child?_iff, h.exists_closeName_iff]

/-- The view looks for a slash without a name in a closing tag. That is right
for elements that close themselves, and wrong for closing tags without a name. -/
theorem isSelfClosing_iff :
    view.isSelfClosing = true ↔ form = .selfClosing ∨ form.body? = some .nameless := by
  have hnone : view.closeName?.isNone = true ↔ form.body? ≠ some .named := by
    rw [← Option.not_isSome, Bool.not_eq_true', ← Bool.not_eq_true, isSome_closeName?_iff h]
  rw [isSelfClosing, Bool.and_eq_true, Located.isSome_tokenOfKind?_iff, h.exists_slash_iff, hnone]
  -- Of the forms with a slash the name leaves out only one with a body.
  rcases form with _ | (_ | _ | _ | _) | (_ | _ | _ | _) <;> decide

/-- There is a body if and only if the form has one. -/
theorem isSome_content?_iff : view.content?.isSome = true ↔ form.hasContent = true := by
  rw [← h.exists_content_iff, ← Located.isSome_child?_iff, content?, Located.fieldView?]
  cases hchild : view.node.child? "content" with
  | none => rfl
  | some child =>
    -- What is in the field is a body, and each kind of body has a view.
    refine iff_of_true (Located.isSome_nodeView?_of_body ?_) rfl
    rw [Located.child?] at hchild
    have hmem : child.outline ∈ view.node.outline.parts := by
      rw [← Located.map_outline_children]
      exact List.mem_map_of_mem (List.mem_of_find?_eq_some hchild)
    refine h.admits_body hmem ?_
    rw [Located.fst_label_outline]
    simpa using List.find?_some hchild

/-- The view tells just this of an element whose parts fill the slots of
the form. -/
theorem shows_of_fills : view.Shows form where
  fills := by rwa [Located.map_outline_children]
  isEmbed := by rw [isEmbed, Located.isSome_tokenOfKind?_iff, h.exists_colon_iff]
  isSelfClosing := isSelfClosing_iff h
  content? := isSome_content?_iff h
  closeName? := isSome_closeName?_iff h

end

end Element

namespace Document

/-- Every element of a tree is in one of its forms. -/
theorem Finished.exists_form {source file : Text} {options : Options} {final : Parser}
    {sprout : Sprout} (h : Finished source options file final sprout) {view : Element}
    (hmem : view ∈ (Located.ofTree (treeOf final sprout) final.text).elements) :
    ∃ form : ElementForm, Fills form.slots view.node.outline.parts := by
  obtain ⟨node, hnode, rfl⟩ := List.mem_map.mp hmem
  obtain ⟨hnode, hkind⟩ := List.mem_filter.mp hnode
  have hfits := h.fits hnode
  unfold Outline.Fits at hfits
  rw [Located.kind_outline, of_decide_eq_true hkind] at hfits
  exact hfits

/-- In every document, whatever the source and the options, errors or not: each
element is in exactly one of its forms, in the sense that its parts fill the
slots of that form and of no other. Its view says that it is embedded if that is
its form, and that it closes itself if that is its form or its closing tag has
no name. The body is there if the form has one, and the name of the closing tag
only with a body. -/
theorem parse_element_forms (decoded : Decoded) (options : Options) (file : Text) :
    ∃ document, parse decoded options file = .ok document ∧
      ∀ view ∈ document.root.elements, ∃ form,
        (∀ other : ElementForm,
          Fills other.slots (view.node.children.map Located.outline) ↔ other = form) ∧
        (view.isEmbed = true ↔ form.isEmbedded = true) ∧
        (view.isSelfClosing = true ↔ form = .selfClosing ∨ form.body? = some .nameless) ∧
        (view.content?.isSome = true ↔ form.hasContent = true) ∧
        (view.closeName?.isSome = true → view.content?.isSome = true) := by
  obtain ⟨final, sprout, h⟩ := exists_finished decoded.text options file
  refine ⟨_, h.parse_eq, fun view hmem => ?_⟩
  obtain ⟨form, hfills⟩ := h.exists_form hmem
  have hshows := Element.shows_of_fills hfills
  refine ⟨form, fun other => ⟨fun hother => hother.form_unique hshows.fills, ?_⟩, hshows.isEmbed,
    hshows.isSelfClosing, hshows.content?, fun hname => ?_⟩
  · rintro rfl
    exact hshows.fills
  · rw [hshows.content?, ElementForm.hasContent, hshows.closeName?.mp hname]
    rfl

/-- An element without a name in its closing tag is said to close itself, though
it has a body: the slash is that of its closing tag. -/
theorem exists_selfClosing_with_content :
    ∃ document, parse (.ofText "<a></>") {} "f" = .ok document ∧
      ∃ view ∈ document.root.elements, view.isSelfClosing = true ∧ view.content?.isSome = true := by
  have hparse : (parse (.ofText "<a></>") {} "f").toOption.any (fun document =>
      document.root.elements.any fun view =>
        view.isSelfClosing && view.content?.isSome) = true := by
    decide +kernel
  obtain ⟨document, hparse, hcheck⟩ := exists_ok_of_any hparse
  obtain ⟨view, hmem, hview⟩ := List.any_eq_true.mp hcheck
  obtain ⟨hself, hcontent⟩ := Bool.and_eq_true_iff.mp hview
  exact ⟨document, hparse, view, hmem, hself, hcontent⟩

end Document

end MarkupSyntax
