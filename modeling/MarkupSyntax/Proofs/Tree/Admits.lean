import MarkupSyntax.Proofs.Tree.Outline

/-!
# `MarkupSyntax.Proofs.Tree.Admits`: which parts a node may have, and how deep

`SyntaxKind.admits` says of each kind of node which parts may stand
directly below it, whether or not there are errors. It asks something of
lists, of arms and of the bodies of control constructs only: these are
where the domains could be mixed up.

`Outline.nesting` counts the levels of nesting on the way down to the
deepest part. An element is a level, and so is a control construct among
values; those among elements or properties are none.
-/

set_option autoImplicit false

namespace MarkupSyntax

namespace SyntaxKind

/-- True for the control constructs of a domain, their arms excluded. -/
def isControlOf (domain : Domain) : SyntaxKind → Bool
  | control other form => other = domain && !form.isArm
  | _ => false

/-- True for the fields that bodies of control constructs fill. -/
def isBodyField (field : Option String) : Bool :=
  field = some "then" || field = some "else" || field = some "body"

/-- True for what may stand in a list of properties. -/
def isProperty (kind : SyntaxKind) : Bool :=
  kind = propertyValue || kind = error || kind.isControlOf .properties

/-- True for what may stand among elements as well as among text. -/
def isMarkup (kind : SyntaxKind) : Bool :=
  kind = element || kind = interpolationExpression || kind = error

/-- True when a node may have a part of this role. -/
def admits (parent : SyntaxKind) (role : Role) : Bool :=
  match role.2 with
  | control domain .matchArm => role.1.isNone && parent = control domain .ifMatch
  | control domain .conditionArm => role.1.isNone && parent = control domain .ifConditionList
  | kind =>
    match parent with
    | propertyList => kind.isProperty
    | elementsExpression => kind.isMarkup || kind.isControlOf .elements
    | mixedContent => kind.isMarkup || kind = textRun
    | control .elements _ => !isBodyField role.1 || kind = elementsExpression || kind = error
    | control .properties _ => !isBodyField role.1 || kind = propertyList
    | _ => true

/-- The number of levels of nesting that a node adds. -/
def level : SyntaxKind → Nat
  | element => 1
  | control .value form => if form.isArm then 0 else 1
  | _ => 0

end SyntaxKind

namespace Outline

/-- The node admits all of its parts. -/
def Admits (outline : Outline) : Prop :=
  ∀ part ∈ outline.parts, outline.kind.admits (part.field, part.kind) = true

mutual
/-- The greatest number of levels on a way down from the part. -/
def nesting : Outline → Nat
  | leaf .. => 0
  | node _ kind parts => kind.level + nestingList parts

/-- The same for parts that follow one another. -/
def nestingList : List Outline → Nat
  | [] => 0
  | part :: rest => max part.nesting (nestingList rest)
end

/-- A field is no level. -/
@[simp] theorem nesting_withField (outline : Outline) (field : Option String) :
    (outline.withField field).nesting = outline.nesting := by
  cases outline <;> rfl

/-- The field of a node does not matter to what is in it. -/
theorem admits_withField {outline : Outline} {field : Option String} :
    (outline.withField field).Admits ↔ outline.Admits := by
  cases outline <;> rfl

/-- Parts are nested as deep as the deepest of them. -/
theorem nestingList_le_iff {parts : List Outline} {limit : Nat} :
    nestingList parts ≤ limit ↔ ∀ part ∈ parts, part.nesting ≤ limit := by
  induction parts with
  | nil => simp [nestingList]
  | cons part rest ih => simp [nestingList, ih]

/-- Every node from here down admits its parts, and there are no more
levels than this. -/
structure Housed (limit : Nat) (outline : Outline) : Prop where
  admits : ∀ part ∈ outline.all, part.Admits
  nesting : outline.nesting ≤ limit

namespace Housed

variable {outline : Outline} {limit limit' : Nat}

/-- More levels may be allowed. -/
theorem mono (h : outline.Housed limit) (hle : limit ≤ limit') : outline.Housed limit' :=
  ⟨h.admits, h.nesting.trans hle⟩

/-- A token is in order wherever it stands. -/
theorem leaf (limit : Nat) (field : Option String) (kind : SyntaxKind) :
    (Outline.leaf field kind).Housed limit := by
  refine ⟨fun part hmem => ?_, Nat.zero_le _⟩
  rw [List.mem_singleton.mp hmem]
  nofun

/-- A node around what is in order is in order if it admits it. -/
theorem node {kind : SyntaxKind} {parts : List Outline} (field : Option String)
    (h : ∀ part ∈ parts, part.Housed limit)
    (hadmits : ∀ part ∈ parts, kind.admits (part.field, part.kind) = true) :
    (Outline.node field kind parts).Housed (kind.level + limit) := by
  have hall : ∀ part ∈ allList parts, part.Admits := by
    clear hadmits
    induction parts with
    | nil => nofun
    | cons first rest ih =>
      intro part hmem
      rcases List.mem_append.mp hmem with hmem | hmem
      · exact (h first (List.mem_cons_self ..)).admits part hmem
      · exact ih (fun part hpart => h part (List.mem_cons_of_mem _ hpart)) part hmem
  refine ⟨fun part hmem => ?_, ?_⟩
  · rcases List.mem_cons.mp hmem with rfl | hmem
    · exact hadmits
    · exact hall part hmem
  · exact Nat.add_le_add_left (nestingList_le_iff.mpr fun part hpart => (h part hpart).nesting) _

/-- The field of a part is a matter of the node around it. -/
theorem withField (h : outline.Housed limit) (field : Option String) :
    (outline.withField field).Housed limit := by
  refine ⟨fun part hmem => ?_, by rw [nesting_withField]; exact h.nesting⟩
  rcases mem_all.mp hmem with rfl | hmem
  · exact admits_withField.mpr (h.admits _ (mem_all.mpr (.inl rfl)))
  · rw [parts_withField] at hmem
    exact h.admits part (mem_all.mpr (.inr hmem))

/-- The parts of a node in order are in order. -/
theorem parts (h : outline.Housed limit) : ∀ part ∈ outline.parts, part.Housed limit := by
  intro part hpart
  cases outline with
  | leaf => cases hpart
  | node field kind children =>
    have hmem : ∀ other ∈ part.all, other ∈ allList children := by
      clear h
      induction children with
      | nil => cases hpart
      | cons first rest ih =>
        intro other hother
        rcases List.mem_cons.mp hpart with rfl | hpart
        · exact List.mem_append_left _ hother
        · exact List.mem_append_right _ (ih hpart other hother)
    refine ⟨fun other hother => h.admits other (mem_all.mpr (.inr (hmem other hother))), ?_⟩
    have hnesting : nestingList children ≤ limit := (Nat.le_add_left ..).trans h.nesting
    exact nestingList_le_iff.mp hnesting part hpart

end Housed

end Outline

end MarkupSyntax
