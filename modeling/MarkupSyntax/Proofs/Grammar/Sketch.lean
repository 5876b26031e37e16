import MarkupSyntax.Proofs.Tree.Outline

/-!
# `MarkupSyntax.Proofs.Grammar.Sketch`: the parts of an element, errors or not

A production says what the children of a node are when nothing was
reported. With errors an element may lack much of that, but what it has
still comes in order, and still tells how the element was read. A
`Slot` is a place for one part, and `Fills` says that the parts of a
node fill slots in order, all but optional ones.

There are three forms of an element (`ElementForm`). One closes itself;
the other two, plain and embedded, have whatever there is of a body and
a closing tag (`ElementBody`). The parts tell the forms apart
(`Fills.form_unique`).
-/

set_option autoImplicit false

namespace MarkupSyntax

/-- What tells a part apart in its node: the field that it fills, and
the kind if it is a token. -/
abbrev PartLabel := Option String × Option SyntaxKind

/-- The label of a part. -/
def Outline.label : Outline → PartLabel
  | leaf field kind => (field, some kind)
  | node field _ _ => (field, none)

/-- The label of an outline has its field. -/
theorem Outline.fst_label (outline : Outline) : outline.label.1 = outline.field := by
  cases outline <;> rfl

/-- A node is told apart by its field. -/
theorem Sprout.label_outline {sprout : Sprout} (h : sprout.isNode = true) :
    sprout.outline.label = (sprout.field, none) := by
  cases sprout with
  | token => cases h
  | node => rfl
  | around => rfl

/-- A place for one part of a node. -/
structure Slot where
  label : PartLabel
  /-- The kinds of parts that can be there. -/
  kinds : Set SyntaxKind := Set.univ
  isOptional : Bool := false

namespace Slot

/-- The place of a token. -/
def leaf (field : Option String) (kind : SyntaxKind) : Slot := { label := (field, some kind) }

/-- The place of a token in no field. -/
def mark (kind : TokenKind) : Slot := leaf none (.token kind)

/-- The place of a node in a field. -/
def node (field : String) : Slot := { label := (some field, none) }

/-- The same place, which may be left empty. -/
def optional (slot : Slot) : Slot := { slot with isOptional := true }

/-- The part can be in the slot. -/
structure Admits (slot : Slot) (part : Outline) : Prop where
  label : part.label = slot.label
  kind : part.kind ∈ slot.kinds

/-- A leaf stands in its own slot. -/
theorem admits_leaf (field : Option String) (kind : SyntaxKind) :
    (leaf field kind).Admits (.leaf field kind) := ⟨rfl, trivial⟩

end Slot

/-- The parts fill the slots in order, and pass over optional ones
only. -/
inductive Fills : List Slot → List Outline → Prop where
  | nil : Fills [] []
  | part {slot : Slot} {slots : List Slot} {part : Outline} {parts : List Outline} :
    slot.Admits part → Fills slots parts → Fills (slot :: slots) (part :: parts)
  | skip {slot : Slot} {slots : List Slot} {parts : List Outline} :
    slot.isOptional = true → Fills slots parts → Fills (slot :: slots) parts

namespace Fills

variable {slot : Slot} {slots slots' : List Slot} {part : Outline} {parts parts' : List Outline}

/-- Parts that fill two lists of slots fill both together. -/
theorem append (h : Fills slots parts) (h' : Fills slots' parts') :
    Fills (slots ++ slots') (parts ++ parts') := by
  induction h with
  | nil => exact h'
  | part hadmits _ ih => exact .part hadmits ih
  | skip hoptional _ ih => exact .skip hoptional ih

/-- One part fills one slot, optional or not. -/
theorem one (h : slot.Admits part) : Fills [slot] [part] := .part h .nil

/-- Only the token itself fills its slot. -/
theorem eq_leaf {field : Option String} {kind : SyntaxKind} (h : Fills [.leaf field kind] parts) :
    parts = [.leaf field kind] := by
  cases h with
  | @part _ _ part _ hadmits h =>
    cases h
    cases part with
    | leaf => cases hadmits.label; rfl
    | node => cases hadmits.label
  | skip hoptional => cases hoptional

/-- A slot that is optional may stay empty. -/
theorem empty (slot : Slot) : Fills [slot.optional] [] := .skip rfl .nil

/-- A slot that is filled may as well be optional. -/
theorem optional (h : Fills [slot] parts) : Fills [slot.optional] parts := by
  cases h with
  | part hadmits h => exact .part ⟨hadmits.label, hadmits.kind⟩ h
  | skip _ h =>
    cases h
    exact .empty slot

/-- Every part is in a slot. -/
theorem exists_slot (h : Fills slots parts) (hmem : part ∈ parts) :
    ∃ slot ∈ slots, slot.Admits part := by
  induction h with
  | nil => cases hmem
  | part hadmits _ ih =>
    rcases List.mem_cons.mp hmem with rfl | hmem
    · exact ⟨_, List.mem_cons_self, hadmits⟩
    · obtain ⟨slot, hslot, hadmits⟩ := ih hmem
      exact ⟨slot, List.mem_cons_of_mem _ hslot, hadmits⟩
  | skip _ _ ih =>
    obtain ⟨slot, hslot, hadmits⟩ := ih hmem
    exact ⟨slot, List.mem_cons_of_mem _ hslot, hadmits⟩

/-- A slot that is not optional has a part. -/
theorem exists_part (h : Fills slots parts) (hmem : slot ∈ slots)
    (hrequired : slot.isOptional = false) : ∃ part ∈ parts, slot.Admits part := by
  induction h with
  | nil => cases hmem
  | part hadmits _ ih =>
    rcases List.mem_cons.mp hmem with rfl | hmem
    · exact ⟨_, List.mem_cons_self, hadmits⟩
    · obtain ⟨part, hpart, hadmits⟩ := ih hmem
      exact ⟨part, List.mem_cons_of_mem _ hpart, hadmits⟩
  | skip hoptional _ ih =>
    rcases List.mem_cons.mp hmem with rfl | hmem
    · cases hoptional.symm.trans hrequired
    · exact ih hmem

/-- What is never optional is among the parts if the slots ask for it. -/
theorem exists_label_iff (h : Fills slots parts) (wanted : PartLabel → Prop)
    (hrequired : ∀ slot ∈ slots, wanted slot.label → slot.isOptional = false) :
    (∃ part ∈ parts, wanted part.label) ↔ ∃ slot ∈ slots, wanted slot.label := by
  constructor
  · rintro ⟨part, hpart, hwanted⟩
    obtain ⟨slot, hslot, hadmits⟩ := h.exists_slot hpart
    exact ⟨slot, hslot, hadmits.label ▸ hwanted⟩
  · rintro ⟨slot, hslot, hwanted⟩
    obtain ⟨part, hpart, hadmits⟩ := h.exists_part hslot (hrequired slot hslot hwanted)
    exact ⟨part, hpart, hadmits.label ▸ hwanted⟩

end Fills

/-! ### Elements -/

/-- True for the kinds of the bodies of elements. -/
def SyntaxKind.isBody : SyntaxKind → Bool
  | .elementsExpression | .mixedContent | .textContent | .embedContent | .rawTextRun => true
  | _ => false

/-- The kinds of the bodies of elements. -/
def contentKinds : Set SyntaxKind := {kind | kind.isBody = true}

/-- The place of the body of an element. -/
def Slot.body : Slot := { Slot.node "content" with kinds := contentKinds }

/-- What there is of an element after its opening tag. -/
inductive ElementBody where
  /-- Nothing, since the opening tag has no end. -/
  | absent
  /-- A body without a closing tag. -/
  | unclosed
  /-- A body and a closing tag without a name. -/
  | nameless
  /-- A body and a closing tag. -/
  | named
deriving DecidableEq

namespace ElementBody

/-- The closing tag; its end may be missing. -/
def closing : ElementBody → List Slot
  | absent | unclosed => []
  | nameless => [.mark .lessThan, .mark .slash, (Slot.mark .greaterThan).optional]
  | named =>
    [.mark .lessThan, .mark .slash, .node "close_name", (Slot.mark .greaterThan).optional]

/-- The end of the opening tag, the body and the closing tag. -/
def slots : ElementBody → List Slot
  | absent => []
  | body => .mark .greaterThan :: .body :: body.closing

/-- An element whose body is not left out has a `>`, a body and perhaps a
closing tag. -/
theorem slots_of_ne_absent {body : ElementBody} (h : body ≠ .absent) :
    body.slots = .mark .greaterThan :: .body :: body.closing := by
  cases body with
  | absent => exact absurd rfl h
  | unclosed | nameless | named => rfl

end ElementBody

/-- The way an element was read. -/
inductive ElementForm where
  /-- `<name properties/>` -/
  | selfClosing
  /-- `<name properties>body</name>` -/
  | plain (body : ElementBody)
  /-- `<name:type properties>body</name>` or `<name:raw properties>body</name>` -/
  | embedded (body : ElementBody)
deriving DecidableEq

namespace ElementForm

/-- What follows the name. -/
def rest : ElementForm → List Slot
  | selfClosing =>
    [(Slot.node "properties").optional, .mark .slash, (Slot.mark .greaterThan).optional]
  | plain body => (Slot.node "properties").optional :: body.slots
  | embedded body =>
    [.mark .colon, (Slot.leaf (some "text_type") (.token .identifier)).optional,
      (Slot.leaf (some "raw") .rawKeyword).optional, (Slot.node "properties").optional] ++ body.slots

/-- All parts of an element of the form. Its name may be missing. -/
def slots (form : ElementForm) : List Slot :=
  .mark .lessThan :: (Slot.node "name").optional :: form.rest

/-- What there is after the opening tag, if the form asks for anything. -/
def body? : ElementForm → Option ElementBody
  | selfClosing => none
  | plain body | embedded body => some body

/-- The name is followed by a colon. -/
def isEmbedded : ElementForm → Bool
  | embedded _ => true
  | _ => false

/-- There is a body. -/
def hasContent (form : ElementForm) : Bool := form.body?.any (· ≠ .absent)

/-- There is a closing tag, with a name or without. -/
def isClosed (form : ElementForm) : Bool := form.body? = some .nameless || form.body? = some .named

end ElementForm

namespace Fills

variable {form form' : ElementForm} {parts : List Outline}

/-- An element is embedded exactly if a colon is among its parts. -/
theorem exists_colon_iff (h : Fills form.slots parts) :
    (∃ part ∈ parts, part.label.2 = some (.token .colon)) ↔ form.isEmbedded = true := by
  rw [h.exists_label_iff (·.2 = some (.token .colon))] <;>
    rcases form with _ | (_ | _ | _ | _) | (_ | _ | _ | _) <;> decide

/-- A slash stands at the end of a tag that closes itself, and in a
closing tag. -/
theorem exists_slash_iff (h : Fills form.slots parts) :
    (∃ part ∈ parts, part.label.2 = some (.token .slash)) ↔
      form = .selfClosing ∨ form.isClosed = true := by
  rw [h.exists_label_iff (·.2 = some (.token .slash))] <;>
    rcases form with _ | (_ | _ | _ | _) | (_ | _ | _ | _) <;> decide

/-- A part in the field of contents is there exactly if the form has
contents. -/
theorem exists_content_iff (h : Fills form.slots parts) :
    (∃ part ∈ parts, part.label.1 = some "content") ↔ form.hasContent = true := by
  rw [h.exists_label_iff (·.1 = some "content")] <;>
    rcases form with _ | (_ | _ | _ | _) | (_ | _ | _ | _) <;> decide

/-- A part in the field of closing names is there exactly if the form has a
closing tag with a name. -/
theorem exists_closeName_iff (h : Fills form.slots parts) :
    (∃ part ∈ parts, part.label.1 = some "close_name") ↔ form.body? = some .named := by
  rw [h.exists_label_iff (·.1 = some "close_name")] <;>
    rcases form with _ | (_ | _ | _ | _) | (_ | _ | _ | _) <;> decide

/-- What fills the field of the body is one. -/
theorem admits_body (h : Fills form.slots parts) {part : Outline} (hmem : part ∈ parts)
    (hfield : part.label.1 = some "content") : Slot.body.Admits part := by
  obtain ⟨slot, hslot, hadmits⟩ := h.exists_slot hmem
  have honly : ∀ slot ∈ form.slots, slot.label.1 = some "content" → slot = .body := by
    rcases form with _ | (_ | _ | _ | _) | (_ | _ | _ | _) <;>
      simp [ElementForm.slots, ElementForm.rest, ElementBody.slots, ElementBody.closing, Slot.mark,
        Slot.leaf, Slot.node, Slot.optional]
  exact honly slot hslot (hadmits.label ▸ hfield) ▸ hadmits

/-- The parts in front of what follows the name. -/
theorem start {name : Outline} (hname : (Slot.node "name").Admits name)
    (h : Fills form.rest parts) :
    Fills form.slots (.leaf none (.token .lessThan) :: name :: parts) :=
  .part (Slot.admits_leaf _ _) (.part ⟨hname.label, trivial⟩ h)

/-- A body between its tags. -/
theorem closed {content name : Outline} (hcontent : Slot.body.Admits content)
    (hname : (Slot.node "close_name").Admits name) :
    Fills ElementBody.named.slots
      [.leaf none (.token .greaterThan), content, .leaf none (.token .lessThan),
        .leaf none (.token .slash), name, .leaf none (.token .greaterThan)] :=
  .part (Slot.admits_leaf _ _) (.part hcontent (.part (Slot.admits_leaf _ _)
    (.part (Slot.admits_leaf _ _) (.part hname (.part ⟨rfl, trivial⟩ .nil)))))

/-- The end of a tag that closes itself. -/
theorem emptyEnd : Fills [.mark .slash, (Slot.mark .greaterThan).optional]
    [.leaf none (.token .slash), .leaf none (.token .greaterThan)] :=
  .part (Slot.admits_leaf _ _) (.part ⟨rfl, trivial⟩ .nil)

/-- The parts tell in which form the element was read. -/
theorem form_unique (h : Fills form.slots parts) (h' : Fills form'.slots parts) : form = form' := by
  have hcolon := h.exists_colon_iff.symm.trans h'.exists_colon_iff
  have hslash := h.exists_slash_iff.symm.trans h'.exists_slash_iff
  have hcontent := h.exists_content_iff.symm.trans h'.exists_content_iff
  have hname := h.exists_closeName_iff.symm.trans h'.exists_closeName_iff
  -- No two forms agree in all of these.
  revert hcolon hslash hcontent hname
  rcases form with _ | (_ | _ | _ | _) | (_ | _ | _ | _) <;>
    rcases form' with _ | (_ | _ | _ | _) | (_ | _ | _ | _) <;> decide

end Fills

end MarkupSyntax
