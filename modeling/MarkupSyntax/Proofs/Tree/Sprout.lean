import Mathlib.Computability.Language
import Mathlib.Order.CompletePartialOrder
import MarkupSyntax.Event.Assembly
import MarkupSyntax.Parse.Marker

/-!
# `MarkupSyntax.Proofs.Tree.Sprout`: trees as a record tells them

A `Sprout` is a part of a tree before trivia is added, in the form in
which a record of events tells it. A node that was put around an earlier
one is a sprout of its own form, `around`: in the record its start comes
after the events of its first child, and that child's start event names
the distance.

`Sprout.events` is the record of a sprout. A `Completed` points at a
sprout when its indices are those of the sprout's own start and finish
(`Completed.PointsAt`). The two ways to change a finished node are
changes of its sprout then: another field (`events_withField`), and a
parent put around it (`events_around`).

Every part of a tree has a role, its field and its kind. A rule gives
for each kind of node a language over roles, the productions of that
kind; `Obeys` says that the children of every node spell a word of its
language.
-/

set_option autoImplicit false

namespace MarkupSyntax

/-- The kind of a node is not that of a node without one. -/
theorem SyntaxKind.ne_tombstone_of_isNode {kind : SyntaxKind} (h : kind.isNode = true) :
    kind ≠ .tombstone := by
  rintro rfl
  cases h

/-- The field that a part fills, and its kind. -/
abbrev Role := Option String × SyntaxKind

/-- A part of a tree in a record of events. -/
inductive Sprout where
  | token (kind : SyntaxKind) (stop : Nat) (field : Option String)
  | node (kind : SyntaxKind) (field : Option String) (children : List Sprout)
  /-- A node that was put around its first child. -/
  | around (first : Sprout) (kind : SyntaxKind) (field : Option String) (rest : List Sprout)

namespace Sprout

/-! ### Size and record -/

mutual
/-- The number of events of the sprout. -/
def size : Sprout → Nat
  | token .. => 1
  | node _ _ children => sizeList children + 2
  | around first _ _ rest => first.size + (sizeList rest + 2)

/-- The number of events of sprouts that follow one another. -/
def sizeList : List Sprout → Nat
  | [] => 0
  | sprout :: rest => sprout.size + sizeList rest
end

/-- The number of events from the sprout's own start event on. -/
def own : Sprout → Nat
  | token .. => 1
  | node _ _ children => sizeList children + 2
  | around _ _ _ rest => sizeList rest + 2

mutual
/-- The events of the sprout, with the distance to its parent if that
starts later. -/
def events (parent : Option Nat) : Sprout → List Event
  | token kind stop field => [.token kind stop field]
  | node kind field children => .start kind parent field :: (eventsList children ++ [.finish])
  | around first kind field rest =>
    first.events (some first.own) ++ .start kind parent field :: (eventsList rest ++ [.finish])

/-- The events of sprouts that follow one another. -/
def eventsList : List Sprout → List Event
  | [] => []
  | sprout :: rest => sprout.events none ++ eventsList rest
end

mutual
/-- The size is the length of the record, whatever parent it names. -/
theorem length_events (parent : Option Nat) :
    ∀ sprout : Sprout, (sprout.events parent).length = sprout.size
  | token .. => rfl
  | node kind field children => by
    rw [events, size, List.length_cons, List.length_append, length_eventsList children]
    rfl
  | around first kind field rest => by
    rw [events, size, List.length_append, length_events _ first, List.length_cons,
      List.length_append, length_eventsList rest]
    rfl

/-- The same for sprouts one after another. -/
theorem length_eventsList : ∀ sprouts : List Sprout, (eventsList sprouts).length = sizeList sprouts
  | [] => rfl
  | sprout :: rest => by
    rw [eventsList, sizeList, List.length_append, length_events none sprout,
      length_eventsList rest]
end

/-- The records of sprouts one after another. -/
@[simp] theorem eventsList_append (sprouts sprouts' : List Sprout) :
    eventsList (sprouts ++ sprouts') = eventsList sprouts ++ eventsList sprouts' := by
  induction sprouts with
  | nil => rfl
  | cons sprout rest ih =>
    rw [List.cons_append, eventsList, eventsList, ih, List.append_assoc]

/-! ### The own events of a node -/

/-- The kind of the sprout. -/
def kind : Sprout → SyntaxKind
  | token kind _ _ => kind
  | node kind _ _ => kind
  | around _ kind _ _ => kind

/-- The field that the sprout fills. -/
def field : Sprout → Option String
  | token _ _ field => field
  | node _ field _ => field
  | around _ _ field _ => field

/-- True for a node. -/
def isNode : Sprout → Bool
  | token .. => false
  | node .. => true
  | around .. => true

/-- The sprout in another field. -/
def withField (field : Option String) : Sprout → Sprout
  | token kind stop _ => token kind stop field
  | node kind _ children => node kind field children
  | around first kind _ rest => around first kind field rest

/-- The events before the own start of a node. -/
def before : Sprout → List Event
  | around first _ _ _ => first.events (some first.own)
  | _ => []

/-- The events after the own start of a node. -/
def behind : Sprout → List Event
  | token .. => []
  | node _ _ children => eventsList children ++ [.finish]
  | around _ _ _ rest => eventsList rest ++ [.finish]

/-- The start of a node is its own event behind those in front of it. -/
theorem length_before {sprout : Sprout} (h : sprout.isNode = true) :
    sprout.before.length + sprout.own = sprout.size := by
  cases sprout with
  | token => cases h
  | node => exact Nat.zero_add _
  | around first kind field rest =>
    rw [before, length_events]
    rfl

/-- The record of a node: what comes before its start, the start, and
what comes behind. Only the start knows the parent and the field. -/
theorem events_eq {sprout : Sprout} (h : sprout.isNode = true) (parent : Option Nat) :
    sprout.events parent
      = sprout.before ++ .start sprout.kind parent sprout.field :: sprout.behind := by
  cases sprout with
  | token => cases h
  | node => rfl
  | around => rfl

/-- The field of a node is in its start event and nowhere else. -/
theorem events_withField {sprout : Sprout} (h : sprout.isNode = true) (parent : Option Nat)
    (field : Option String) :
    (sprout.withField field).events parent
      = sprout.before ++ .start sprout.kind parent field :: sprout.behind := by
  cases sprout with
  | token => cases h
  | node => rfl
  | around => rfl

/-- A field adds no event. -/
@[simp] theorem size_withField (sprout : Sprout) (field : Option String) :
    (sprout.withField field).size = sprout.size := by
  cases sprout <;> rfl

/-- The own events stay. -/
@[simp] theorem own_withField (sprout : Sprout) (field : Option String) :
    (sprout.withField field).own = sprout.own := by
  cases sprout <;> rfl

/-- A node stays one. -/
@[simp] theorem isNode_withField (sprout : Sprout) (field : Option String) :
    (sprout.withField field).isNode = sprout.isNode := by
  cases sprout <;> rfl

/-- The kind stays. -/
@[simp] theorem kind_withField (sprout : Sprout) (field : Option String) :
    (sprout.withField field).kind = sprout.kind := by
  cases sprout <;> rfl

/-- The field is the one that was set. -/
@[simp] theorem field_withField (sprout : Sprout) (field : Option String) :
    (sprout.withField field).field = field := by
  cases sprout <;> rfl

/-! ### Soundness -/

mutual
/-- Nodes are of the kinds of nodes, and only nodes have nodes put around
them. -/
def Sound : Sprout → Prop
  | token .. => True
  | node kind _ children => kind.isNode = true ∧ SoundList children
  | around first kind _ rest =>
    first.isNode = true ∧ first.Sound ∧ kind.isNode = true ∧ SoundList rest

/-- All sprouts of the list are sound. -/
def SoundList : List Sprout → Prop
  | [] => True
  | sprout :: rest => sprout.Sound ∧ SoundList rest
end

/-- Sprouts are sound one by one. -/
theorem soundList_append {sprouts sprouts' : List Sprout} (h : SoundList sprouts)
    (h' : SoundList sprouts') : SoundList (sprouts ++ sprouts') := by
  induction sprouts with
  | nil => exact h'
  | cons sprout rest ih => exact ⟨h.1, ih h.2⟩

/-- The kind of a sound node is one of nodes. -/
theorem Sound.isNode_kind {sprout : Sprout} (h : sprout.Sound) (hnode : sprout.isNode = true) :
    sprout.kind.isNode = true := by
  cases sprout with
  | token => cases hnode
  | node => exact h.1
  | around => exact h.2.2.1

/-- A sound sprout stays so in any field. -/
theorem Sound.withField {sprout : Sprout} (h : sprout.Sound) (field : Option String) :
    (sprout.withField field).Sound := by
  cases sprout <;> exact h

/-! ### Roles and productions -/

/-- The role of the sprout. -/
def role (sprout : Sprout) : Role := (sprout.field, sprout.kind)

mutual
/-- The children of every node spell a word of the node's
production. -/
def Obeys (rule : SyntaxKind → Language Role) : Sprout → Prop
  | token .. => True
  | node kind _ children => children.map role ∈ rule kind ∧ ObeysList rule children
  | around first kind _ rest =>
    first.role :: rest.map role ∈ rule kind ∧ first.Obeys rule ∧ ObeysList rule rest

/-- All sprouts of the list obey the rule. -/
def ObeysList (rule : SyntaxKind → Language Role) : List Sprout → Prop
  | [] => True
  | sprout :: rest => sprout.Obeys rule ∧ ObeysList rule rest
end

variable {rule : SyntaxKind → Language Role}

/-- A rule is obeyed sprout by sprout. -/
theorem obeysList_append {sprouts sprouts' : List Sprout} (h : ObeysList rule sprouts)
    (h' : ObeysList rule sprouts') : ObeysList rule (sprouts ++ sprouts') := by
  induction sprouts with
  | nil => exact h'
  | cons sprout rest ih => exact ⟨h.1, ih h.2⟩

/-- The field of a sprout is none of its own production. -/
theorem Obeys.withField {sprout : Sprout} (h : sprout.Obeys rule) (field : Option String) :
    (sprout.withField field).Obeys rule := by
  cases sprout <;> exact h

end Sprout

/-! ### Completed nodes -/

/-- A completed node is the one of a sprout whose events start at
`base`. -/
structure Completed.PointsAt (node : Completed) (base : Nat) (sprout : Sprout) : Prop where
  isNode : sprout.isNode = true
  index : node.index + sprout.own = base + sprout.size
  finish : node.finish + 1 = base + sprout.size
  firstEvent : node.firstEvent = base

namespace Completed.PointsAt

variable {node : Completed} {front : List Event} {sprout : Sprout}

/-- The node's index is the place of its start event. -/
theorem index_eq (h : node.PointsAt front.length sprout) :
    node.index = (front ++ sprout.before).length := by
  have hindex := h.index
  have hlen := Sprout.length_before h.isNode
  rw [List.length_append]
  omega

/-- The handle points at the start event of its node. -/
theorem getElem? (h : node.PointsAt front.length sprout) (parent : Option Nat) :
    (front ++ sprout.events parent)[node.index]?
      = some (.start sprout.kind parent sprout.field) := by
  rw [Sprout.events_eq h.isNode, ← List.append_assoc, h.index_eq]
  rw [List.getElem?_append_right (Nat.le_refl _), Nat.sub_self]
  rfl

/-- A change of the node's start event. -/
theorem set (h : node.PointsAt front.length sprout) (parent : Option Nat) (event : Event) :
    (front ++ sprout.events parent).set node.index event
      = front ++ (sprout.before ++ event :: sprout.behind) := by
  rw [Sprout.events_eq h.isNode, ← List.append_assoc, h.index_eq,
    List.set_append_right _ _ (Nat.le_refl _), Nat.sub_self, List.set_cons_zero,
    List.append_assoc]

/-- The handle of a node stays valid when the node goes into a field. -/
theorem withField {base : Nat} (h : node.PointsAt base sprout) (field : Option String) :
    node.PointsAt base (sprout.withField field) where
  isNode := by rw [Sprout.isNode_withField, h.isNode]
  index := by rw [Sprout.own_withField, Sprout.size_withField, h.index]
  finish := by rw [Sprout.size_withField, h.finish]
  firstEvent := h.firstEvent

end Completed.PointsAt

end MarkupSyntax
