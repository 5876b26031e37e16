import MarkupSyntax.Proofs.Event.Links
import MarkupSyntax.Proofs.Parse.Yields

/-!
# `MarkupSyntax.Proofs.Event.Draft`: records made through markers

Those who record events do not see the record. They start nodes, finish
them, give them up, put nodes around nodes, and take a completion back.
A `Draft` is the record as they mean it: which node starts at a place and
which one a finish belongs to, with the kind and the field that a node
was last given and the nodes that it was put around.

`Draft.Matches` relates a draft to the state of a parse. The slots of the
draft stand for the events of the record, place by place, and they are
`Sound`: a node and the one around it know each other, and so do a node
and its finish. An operation that is `allowed` raises no fault and keeps
that (`Step.yields_run`). Once all nodes are finished or given up, the
record is linked, so a replay takes the nodes as they are meant
(`exists_run_replay`).

Giving up a node after its completion was taken back is allowed only
when nothing was recorded since its start. Its kind stays in the record
otherwise, and the start of the node inside it goes on naming a start
that may be gone (`exists_replay_eq_error`).
-/

set_option autoImplicit false

namespace MarkupSyntax

namespace Draft

/-! ### Slots -/

/-- How far a node has come. -/
inductive Stage where
  /-- It was started. -/
  | fresh
  /-- It was finished, and that was taken back. -/
  | undone (before : Completed)
  | finished (completed : Completed)

/-- A node that was started and is not given up. -/
structure Node where
  marker : Marker
  stage : Stage := .fresh
  /-- The kind that was last assigned. -/
  kind : SyntaxKind := .tombstone
  /-- The field that was last assigned. -/
  field : Option String := none
  /-- Where the node starts that this one was put around. -/
  child : Option Nat := none
  /-- Where the node starts that was put around this one. -/
  parent : Option Nat := none

namespace Node

/-- Its latest completion. -/
def completed? (node : Node) : Option Completed :=
  match node.stage with
  | .fresh => none
  | .undone completed | .finished completed => some completed

/-- Whether it is finished. -/
def isFinished (node : Node) : Bool :=
  match node.stage with
  | .finished _ => true
  | .fresh | .undone _ => false

/-- A finished node has a handle. -/
theorem exists_finished {node : Node} (h : node.isFinished = true) :
    ∃ completed, node.stage = .finished completed := by
  cases hstage : node.stage with
  | finished completed => exact ⟨completed, rfl⟩
  | _ => simp [isFinished, hstage] at h

/-- A node with a handle was completed once. -/
theorem stage_ne_fresh {node : Node} {completed : Completed}
    (h : node.completed? = some completed) : node.stage ≠ .fresh := by
  intro hfresh
  rw [completed?, hfresh] at h
  cases h

end Node

/-- What a place of a record is for. -/
inductive Slot where
  | node (node : Node)
  | token (kind : SyntaxKind) (stop : Nat) (field : Option String)
  /-- The finish of the node that starts at a place. -/
  | finish (start : Nat)
  /-- The start of a node that was given up. -/
  | hole

namespace Slot

/-- The event for it, at a place. -/
def event (place : Nat) : Slot → Event
  | .node it => .start it.kind (it.parent.map (· - place)) it.field
  | .token kind stop field => .token kind stop field
  | .finish _ => .finish
  | .hole => .pending

/-- The step of a token. -/
def token? : Slot → Option BuildStep
  | .token kind stop field => some (.token kind stop field)
  | _ => none

/-- The step of a token or a finish. -/
def mark? : Slot → Option BuildStep
  | .token kind stop field => some (.token kind stop field)
  | .finish _ => some .finish
  | .node _ | .hole => none

/-- The node without one around it. -/
def orphan : Slot → Slot
  | .node it => .node { it with parent := none }
  | slot => slot

end Slot

/-- The events for slots. -/
def events (slots : List Slot) : Array Event := (slots.mapIdx Slot.event).toArray

section Slots

variable {slots : List Slot} {slot old : Slot} {i j : Nat} {node : Node}

/-- An event for each slot, at the same place. -/
@[simp, grind =]
theorem size_events : (events slots).size = slots.length := by
  simp [events]

/-- The event of a slot depends on its place, since it names its parent by the
distance. -/
@[simp, grind =]
theorem getElem?_events : (events slots)[i]? = slots[i]?.map (Slot.event i) := by
  simp [events]

/-- A new slot is a new event. -/
theorem events_append :
    events (slots ++ [slot]) = (events slots).push (slot.event slots.length) := by
  simp [events, List.mapIdx_append]

/-- Changing a slot changes its event and no other: the distance to a parent is
kept in the slot of the child. -/
theorem events_set : events (slots.set i slot) = (events slots).setIfInBounds i (slot.event i) := by
  apply Array.ext_getElem?
  grind

/-- Giving up the last slot drops its event. -/
theorem events_dropLast : events slots.dropLast = (events slots).pop := by
  apply Array.ext_getElem?
  grind

/-- The tokens and the finishes of the events are those of the slots. -/
theorem filterMap_mark?_events (count : Nat) :
    ((events slots).toList.take count).filterMap Event.mark?
      = (slots.take count).filterMap Slot.mark? := by
  show ((slots.mapIdx Slot.event).take count).filterMap Event.mark? = _
  rw [List.mapIdx_eq_zipIdx_map, ← List.map_take, List.filterMap_map]
  conv_rhs => rw [← List.zipIdx_map_fst 0 slots, ← List.map_take, List.filterMap_map]
  congr 1
  funext pair
  show (pair.1.event pair.2).mark? = pair.1.mark?
  cases pair.1 <;> rfl

/-- The tokens are the marks that are no finishes. -/
theorem filterMap_token? (slots : List Slot) :
    slots.filterMap Slot.token? = (slots.filterMap Slot.mark?).filter BuildStep.isToken := by
  rw [List.filter_filterMap]
  congr 1
  funext slot
  cases slot <;> rfl

/-- A slot that is no token can be changed to another one. -/
theorem filterMap_token?_set (hold : slots[i]? = some old) (htoken : old.token? = none)
    (htoken' : slot.token? = none) :
    (slots.set i slot).filterMap Slot.token? = slots.filterMap Slot.token? := by
  obtain ⟨hlt, rfl⟩ := List.getElem?_eq_some_iff.mp hold
  rw [List.set_eq_take_append_cons_drop, if_pos hlt]
  conv_rhs => rw [← List.take_append_drop i slots, List.drop_eq_getElem_cons hlt]
  rw [List.filterMap_append, List.filterMap_append, List.filterMap_cons_none htoken,
    List.filterMap_cons_none htoken']

/-- A last slot that is no token can be left out. -/
theorem filterMap_token?_dropLast (hold : slots[i]? = some old) (hlast : i + 1 = slots.length)
    (htoken : old.token? = none) :
    slots.dropLast.filterMap Slot.token? = slots.filterMap Slot.token? := by
  have hsplit : slots = slots.dropLast ++ [old] := by
    apply List.ext_getElem?
    grind
  conv_rhs => rw [hsplit, List.filterMap_append, List.filterMap_cons_none htoken]
  exact (List.append_nil _).symm

end Slots

/-! ### Sound slots -/

/-- What is true of a node by itself. -/
structure Node.Fits (node : Node) (place : Nat) : Prop where
  marker : node.marker.index = place
  fresh : node.stage = .fresh → node.kind = .tombstone ∧ node.field = none ∧
    node.marker.child = node.child ∧ node.parent = none
  undone : ∀ {before}, node.stage = .undone before → node.marker.child = none
  completed : ∀ {completed}, node.completed? = some completed →
    node.kind ≠ .tombstone ∧ completed.index = place ∧ place < completed.finish

namespace Node.Fits

variable {node : Node} {place : Nat} {marker : Marker} {completed : Completed}
  {kind : SyntaxKind}

/-- A node that was just started, around a child or not. -/
theorem start (hindex : marker.index = place) {child : Option Nat} (hchild : marker.child = child) :
    Node.Fits { marker, child } place where
  marker := hindex
  fresh _ := ⟨rfl, rfl, hchild, rfl⟩
  undone := nofun
  completed := nofun

/-- A node that is open can be completed, with a kind. Its handle ends behind
its start. -/
theorem complete (h : node.Fits place) (hkind : kind ≠ .tombstone)
    (hindex : completed.index = place) (hfinish : place < completed.finish) :
    Node.Fits { node with stage := .finished completed, kind } place where
  marker := h.marker
  fresh := nofun
  undone := nofun
  completed hcompleted := Option.some.inj hcompleted ▸ ⟨hkind, hindex, hfinish⟩

/-- A completed node can be opened again. It keeps its kind, as the record does,
and gets a marker without a child. -/
theorem undo (h : node.Fits place) (hstage : node.stage = .finished completed)
    (hindex : marker.index = place) (hchild : marker.child = none) :
    Node.Fits { node with marker, stage := .undone completed } place where
  marker := hindex
  fresh := nofun
  undone _ := hchild
  completed hcompleted := h.completed (by rw [← hcompleted, completed?, hstage]; rfl)

/-- After it was finished, it can be put into any node or none. -/
theorem link (h : node.Fits place) (hstage : node.stage ≠ .fresh) (parent : Option Nat) :
    Node.Fits { node with parent } place where
  marker := h.marker
  fresh hfresh := absurd hfresh hstage
  undone := h.undone
  completed := h.completed

/-- After it was finished, it can get another field, or another kind of
node. -/
theorem amend (h : node.Fits place) (hstage : node.stage ≠ .fresh) (hkind : kind ≠ .tombstone)
    (field : Option String) : Node.Fits { node with kind, field } place where
  marker := h.marker
  fresh hfresh := absurd hfresh hstage
  undone := h.undone
  completed hcompleted := ⟨hkind, (h.completed hcompleted).2⟩

/-- Only a node with a handle gets a parent. -/
theorem stage_ne (h : node.Fits place) (hparent : node.parent ≠ none) : node.stage ≠ .fresh :=
  fun hfresh => hparent (h.fresh hfresh).2.2.2

/-- The events between start and finish are those of the node. -/
theorem lt_finish (h : node.Fits place) (hstage : node.stage = .finished completed) :
    place < completed.finish :=
  (h.completed (by rw [completed?, hstage])).2.2

end Node.Fits

/-- The slots belong together. -/
structure Sound (slots : List Slot) : Prop where
  fits : ∀ {i : Nat} {node : Node}, slots[i]? = some (.node node) → node.Fits i
  /-- A finished node has its finish. -/
  finished : ∀ {i : Nat} {node : Node} {completed : Completed}, slots[i]? = some (.node node) →
    node.stage = .finished completed → slots[completed.finish]? = some (.finish i)
  /-- A finish has its node. -/
  finish : ∀ {i j : Nat}, slots[j]? = some (.finish i) → ∃ (node : Node) (completed : Completed),
    slots[i]? = some (.node node) ∧ node.stage = .finished completed ∧ completed.finish = j
  /-- The node around a node starts later, and knows it. -/
  parent : ∀ {i m : Nat} {node : Node}, slots[i]? = some (.node node) → node.parent = some m →
    i < m ∧ ∃ around : Node, slots[m]? = some (.node around) ∧ around.child = some i
  /-- The node inside a node knows it. -/
  child : ∀ {i m : Nat} {around : Node}, slots[m]? = some (.node around) →
    around.child = some i → ∃ node : Node, slots[i]? = some (.node node) ∧ node.parent = some m

namespace Sound

variable {slots : List Slot} {i : Nat} {node node' : Node} {marker : Marker}
  {completed : Completed} {kind : SyntaxKind}

/-- A token is taken. It names no node, so all that is known of the nodes
stays. -/
theorem token (h : Sound slots) (kind : SyntaxKind) (stop : Nat) (field : Option String) :
    Sound (slots ++ [.token kind stop field]) where
  fits := by
    have := @h.fits
    grind
  finished := by
    have := @h.finished
    grind
  finish := by
    have := @h.finish
    grind
  parent := by
    have := @h.parent
    grind
  child := by
    have := @h.child
    grind

/-- A node is started. -/
theorem start (h : Sound slots) (hindex : marker.index = slots.length)
    (hchild : marker.child = none) : Sound (slots ++ [.node { marker }]) where
  fits := by
    have := @h.fits
    have := Node.Fits.start hindex hchild
    grind
  finished := by
    have := @h.finished
    grind
  finish := by
    have := @h.finish
    grind
  parent := by
    have := @h.parent
    grind
  child := by
    have := @h.child
    grind

/-- A node of which only the kind or the field changes. -/
theorem amend (h : Sound slots) (hnode : slots[i]? = some (.node node)) (hfits : node'.Fits i)
    (hstage : node'.stage = node.stage) (hparent : node'.parent = node.parent)
    (hchild : node'.child = node.child) : Sound (slots.set i (.node node')) where
  fits := by
    have := @h.fits
    grind
  finished := by
    have := @h.finished
    grind
  finish := by
    have := @h.finish
    grind
  parent := by
    have := @h.parent
    grind
  child := by
    have := @h.child
    grind

/-- An open node is completed: its slot changes, and its finish comes behind all
others. -/
theorem complete (h : Sound slots) (hnode : slots[i]? = some (.node node))
    (hopen : node.isFinished = false) (hkind : kind ≠ .tombstone) (hindex : completed.index = i)
    (hfinish : completed.finish = slots.length) :
    Sound (slots.set i (.node { node with stage := .finished completed, kind })
      ++ [.finish i]) where
  fits := by
    have := @h.fits
    have := (h.fits hnode).complete hkind hindex (hfinish ▸ (List.getElem?_eq_some_iff.mp hnode).1)
    grind
  finished := by
    have := @h.finished
    grind
  finish := by
    have := @h.finish
    grind [Node.isFinished]
  parent := by
    have := @h.parent
    grind
  child := by
    have := @h.child
    grind

/-- A new node is started that is to stand around a completed one. Both slots
name each other. -/
theorem precede (h : Sound slots) (hnode : slots[i]? = some (.node node))
    (hparent : node.parent = none) (hstage : node.stage ≠ .fresh)
    (hindex : marker.index = slots.length) (hchild : marker.child = some i) :
    Sound (slots.set i (.node { node with parent := some slots.length })
      ++ [.node { marker, child := some i }]) where
  fits := by
    have := @h.fits
    have := (h.fits hnode).link hstage (some slots.length)
    have := Node.Fits.start hindex hchild
    grind
  finished := by
    have := @h.finished
    grind
  finish := by
    have := @h.finish
    grind
  parent := by
    have := @h.parent
    grind
  child := by
    have := @h.child
    grind

/-- The finish that goes belongs to the node and to no other. -/
theorem undo (h : Sound slots) (hnode : slots[i]? = some (.node node))
    (hstage : node.stage = .finished completed) (hlast : completed.finish + 1 = slots.length)
    (hindex : marker.index = i) (hchild : marker.child = none) :
    Sound (slots.set i (.node { node with marker, stage := .undone completed })).dropLast where
  fits := by
    have := @h.fits
    have := (h.fits hnode).undo hstage hindex hchild
    grind
  finished := by
    have := @h.finished
    have := (h.fits hnode).lt_finish hstage
    grind
  finish := by
    have := @h.finish
    have := @h.finished
    grind
  parent := by
    have := @h.parent
    have := @h.finished
    grind
  child := by
    have := @h.child
    have := @h.finished
    grind

end Sound

/-- The slots with the node that starts there left without one around
it. -/
def release (slots : List Slot) : Option Nat → List Slot
  | none => slots
  | some i => slots.modify i Slot.orphan

/-- The slots with a node given up. -/
def giveUp (slots : List Slot) (i : Nat) (node : Node) : List Slot :=
  release (if i + 1 = slots.length then slots.dropLast else slots.set i .hole) node.child

section Slots

variable {slots : List Slot} {i j : Nat} {node : Node}

/-- Giving up a node around another one lets the inner one go, and touches
nothing else. -/
theorem getElem?_release {child : Option Nat} :
    (release slots child)[i]?
      = if child = some i then slots[i]?.map Slot.orphan else slots[i]? := by
  cases child <;> grind [release]

/-- Letting a node go changes its slot. -/
theorem release_eq_set {inner : Node} (hinner : slots[i]? = some (.node inner)) :
    release slots (some i) = slots.set i (.node { inner with parent := none }) := by
  apply List.ext_getElem?
  grind [release, Slot.orphan]

/-- No token goes with a node. -/
theorem filterMap_token?_release {child : Option Nat}
    (hchild : ∀ i, child = some i → ∃ inner, slots[i]? = some (.node inner)) :
    (release slots child).filterMap Slot.token? = slots.filterMap Slot.token? := by
  cases child with
  | none => rfl
  | some i =>
    obtain ⟨inner, hinner⟩ := hchild i rfl
    rw [release_eq_set hinner, filterMap_token?_set hinner rfl rfl]

/-- What becomes of each slot when a node is given up: its own is dropped, if it
is the last, or left as a hole, and that of its child is let go. -/
theorem getElem?_giveUp (hnode : slots[i]? = some (.node node)) (hchild : node.child ≠ some i) :
    (giveUp slots i node)[j]? =
      if j = i then if i + 1 = slots.length then none else some .hole
      else if node.child = some j then slots[j]?.map Slot.orphan else slots[j]? := by
  grind [giveUp, getElem?_release]

/-- The node inside starts earlier. -/
theorem Sound.child_ne (h : Sound slots) (hnode : slots[i]? = some (.node node)) :
    node.child ≠ some i := by
  intro hchild
  obtain ⟨inner, hinner, hparent⟩ := h.child hnode hchild
  exact Nat.lt_irrefl _ (h.parent hinner hparent).1

/-- The slots stay sound. The given-up node is nowhere named any more: it has no
parent by assumption, and its child is let go. -/
theorem Sound.giveUp (h : Sound slots) (hnode : slots[i]? = some (.node node))
    (hopen : node.isFinished = false) (hparent : node.parent = none) :
    Sound (giveUp slots i node) where
  fits := by
    have := @h.fits
    have := @h.child
    have hlink : ∀ {i : Nat} {node : Node}, node.Fits i → node.parent ≠ none →
        Node.Fits { node with parent := none } i :=
      fun hfits hparent => hfits.link (hfits.stage_ne hparent) none
    grind [getElem?_giveUp, h.child_ne, Slot.orphan]
  finished := by
    have := @h.finished
    have := @h.child
    grind [getElem?_giveUp, h.child_ne, Slot.orphan]
  finish := by
    have := @h.finish
    have := @h.child
    grind [getElem?_giveUp, h.child_ne, Slot.orphan, Node.isFinished]
  parent := by
    have := @h.parent
    have := @h.child
    grind [getElem?_giveUp, h.child_ne, Slot.orphan]
  child := by
    have := @h.child
    have := @h.parent
    grind [getElem?_giveUp, h.child_ne, Slot.orphan]

end Slots

/-! ### Operations -/

/-- An operation on a node. -/
inductive Change where
  | complete (kind : SyntaxKind)
  | abandon
  /-- Starts a node around it. -/
  | precede
  | setField (field : Option String)
  | changeKind (kind : SyntaxKind)
  /-- Takes its completion back. -/
  | undo

/-- An operation on a record. -/
inductive Step where
  | start
  /-- Consumes the current token. -/
  | bump (context : LexContext) (field : Option String) (kind : Option SyntaxKind)
  /-- Changes the node that starts at a place. -/
  | change (place : Nat) (change : Change)

namespace Change

/-- Carries the operation out, on the record and on the slots. -/
def run (change : Change) (slots : List Slot) (place : Nat) (node : Node) : Parse (List Slot) :=
  match change, node.completed? with
  | complete kind, _ => do
    let completed ← node.marker.complete kind
    return slots.set place (.node { node with stage := .finished completed, kind })
      ++ [.finish place]
  | abandon, _ => do
    node.marker.abandon
    return giveUp slots place node
  | _, none => return slots
  | precede, some completed => do
    let marker ← completed.precede
    return slots.set place (.node { node with parent := some slots.length })
      ++ [.node { marker, child := some place }]
  | setField field, some completed => do
    let _ ← completed.setField field
    return slots.set place (.node { node with field })
  | changeKind kind, some completed => do
    completed.changeKind kind
    return slots.set place (.node { node with kind })
  | undo, some completed => do
    let marker ← completed.undo
    return (slots.set place (.node { node with marker, stage := .undone completed })).dropLast

/-- Whether the operation makes sense in a record with `count` events.
A node can be finished while it is open, and that can be taken back while
its finish is the last event. It can be given up until it is finished;
once that was taken back, only while its start is the last event and no
node is inside. A node can be put into one other. -/
def allowed (change : Change) (count place : Nat) (node : Node) : Bool :=
  match change with
  | complete kind => !node.isFinished && kind ≠ .tombstone
  | abandon =>
    match node.stage with
    | .fresh => true
    | .undone _ => place + 1 = count && node.child.isNone
    | .finished _ => false
  | precede => node.completed?.isSome && node.parent.isNone
  | setField _ => node.completed?.isSome
  | changeKind kind => node.completed?.isSome && kind ≠ .tombstone
  | undo =>
    match node.stage with
    | .finished completed => completed.finish + 1 = count
    | .fresh | .undone _ => false

variable {slots : List Slot} {place : Nat} {node : Node} {p : Parser}

/-- An operation leaves sound slots, which are those of the record, and
takes no token away. -/
def Holds (slots slots' : List Slot) (q : Parser) : Prop :=
  Sound slots' ∧ q.events = events slots' ∧
    slots'.filterMap Slot.token? = slots.filterMap Slot.token?

/-- Completing a node in the record is completing it in the slots, without a
fault. -/
theorem yields_complete (hsound : Sound slots) (hevents : p.events = events slots)
    (hnode : slots[place]? = some (.node node)) (hopen : node.isFinished = false)
    {kind : SyntaxKind} (hkind : kind ≠ .tombstone) :
    Parse.Yields ((complete kind).run slots place node) p fun slots' q => Holds slots slots' q := by
  have hfits := hsound.fits hnode
  have hstart : p.events[node.marker.index]?
      = some (.start node.kind (node.parent.map (· - place)) node.field) := by
    rw [hevents, getElem?_events, hfits.marker, hnode]
    rfl
  unfold run Marker.complete
  dsimp only
  rw [bind_assoc]
  refine .changeStart hstart ?_
  rw [bind_assoc]
  refine .get ?_
  rw [bind_assoc]
  refine .modify (.pure ⟨hsound.complete hnode hopen hkind hfits.marker ?_, ?_, ?_⟩)
  · simp [hevents]
  · rw [events_append, events_set, ← hevents, ← hfits.marker]
    rfl
  · rw [List.filterMap_append, filterMap_token?_set hnode rfl rfl]
    exact List.append_nil _

/-- The last part of giving up a node: the one inside it, if any, has
none around it from now on. -/
theorem yields_release {q : Parser} {child : Option Nat} (hevents : q.events = events slots)
    (hchild : ∀ i, child = some i → ∃ inner, slots[i]? = some (.node inner)) :
    Parse.Yields (match child with
      | none => pure ()
      | some child => do
        match ← Parse.eventAt child with
        | .start kind _ field =>
          modify fun p => { p with events := p.events.setIfInBounds child (.start kind none field) }
        | _ => pure ()) q fun _ r => r.events = events (release slots child) := by
  cases child with
  | none => exact .pure hevents
  | some i =>
    obtain ⟨inner, hinner⟩ := hchild i rfl
    have hevent : q.events[i]?
        = some (.start inner.kind (inner.parent.map (· - i)) inner.field) := by
      rw [hevents, getElem?_events, hinner]
      rfl
    refine .eventAt hevent ?_
    show q.events.setIfInBounds i _ = _
    rw [release_eq_set hinner, events_set, hevents]
    rfl

/-- The same for giving up a node. There is nothing in it (`hvacant`), and the
marker knows the child that the node was put around (`hchild`). Without the
latter the child would keep the name of a parent that is gone. -/
theorem yields_abandon (hsound : Sound slots) (hevents : p.events = events slots)
    (hnode : slots[place]? = some (.node node)) (hopen : node.isFinished = false)
    (hparent : node.parent = none) (hchild : node.marker.child = node.child)
    (hvacant : node.stage = .fresh ∨ place + 1 = slots.length) :
    Parse.Yields (abandon.run slots place node) p fun slots' q => Holds slots slots' q := by
  have hfits := hsound.fits hnode
  have hstart : p.events[place]? = some (.start node.kind none node.field) := by
    rw [hevents, getElem?_events, hnode, Option.map_some, Slot.event, hparent]
    rfl
  have hsize : p.events.size = slots.length := by rw [hevents, size_events]
  -- The node inside stays where it is.
  have hinner : ∀ removed : List Slot, (∀ i < place, removed[i]? = slots[i]?) →
      ∀ i, node.child = some i → ∃ inner, removed[i]? = some (.node inner) := by
    intro removed hsame i hi
    obtain ⟨inner, hinner, hparent⟩ := hsound.child hnode hi
    exact ⟨inner, (hsame i (hsound.parent hinner hparent).1).trans hinner⟩
  have hgiveUp : Parse.Yields (Marker.abandon node.marker) p fun _ q =>
      q.events = events (giveUp slots place node) ∧
        (giveUp slots place node).filterMap Slot.token? = slots.filterMap Slot.token? := by
    unfold Marker.abandon giveUp
    refine .get ?_
    rw [hfits.marker, hchild, hsize]
    by_cases hlast : place + 1 = slots.length
    · have hback : p.events.back? = some (.start node.kind none node.field) := by
        rw [Array.back?_eq_getElem?, hsize, ← hlast]
        exact hstart
      have hkept := hinner slots.dropLast fun i hi => by grind
      rw [if_pos hlast, if_pos hlast, hback, filterMap_token?_release hkept,
        filterMap_token?_dropLast hnode hlast rfl]
      refine .set ((yields_release ?_ hkept).mono fun _ _ hr => ⟨hr, rfl⟩)
      show p.events.pop = _
      rw [events_dropLast, hevents]
    · have hkept := hinner (slots.set place .hole) fun i hi => by grind
      have hhole : events (slots.set place .hole) = events slots := by
        obtain ⟨hkind, hfield, -⟩ := hfits.fresh (hvacant.resolve_right hlast)
        rw [← hevents, events_set, ← hevents]
        apply Array.ext_getElem?
        grind [Slot.event, Event.pending]
      rw [if_neg hlast, if_neg hlast, filterMap_token?_release hkept,
        filterMap_token?_set hnode rfl rfl]
      exact (yields_release (hevents.trans hhole.symm) hkept).mono fun _ _ hr => ⟨hr, rfl⟩
  refine hgiveUp.bind ?_
  intro _ q hq
  exact .pure ⟨hsound.giveUp hnode hopen hparent, hq⟩

/-- The same for putting a node around a completed one. -/
theorem yields_precede (hsound : Sound slots) (hevents : p.events = events slots)
    (hnode : slots[place]? = some (.node node)) (hparent : node.parent = none)
    {completed : Completed} (hcompleted : node.completed? = some completed) :
    Parse.Yields (precede.run slots place node) p fun slots' q => Holds slots slots' q := by
  have hindex := ((hsound.fits hnode).completed hcompleted).2.1
  have hlt : place < slots.length := (List.getElem?_eq_some_iff.mp hnode).1
  have hsize : p.events.size = slots.length := by rw [hevents, size_events]
  have hstart : (p.events.push .pending)[completed.index]?
      = some (.start node.kind none node.field) := by
    rw [hevents, hindex]
    grind [Slot.event]
  -- The two changes to the record: a pending start behind it, and a link to that in the start of
  -- the node.
  have hprecede : Parse.Yields completed.precede p fun marker q =>
      marker.index = slots.length ∧ marker.child = some place ∧
        q.events = (p.events.push .pending).setIfInBounds place
          (.start node.kind (some (slots.length - place)) node.field) := by
    have hstarted : Parse.Yields Parse.start p fun marker q => marker =
        { index := p.events.size, offset := p.position, firstEvent := p.events.size } ∧
          q = { p with events := p.events.push .pending } := ⟨rfl, rfl⟩
    unfold Completed.precede
    refine hstarted.bind ?_
    intro _ _ hpost
    obtain ⟨rfl, rfl⟩ := hpost
    refine .eventAt hstart ?_
    dsimp only
    rw [if_neg (by omega), hindex, hsize]
    exact .modify (.pure ⟨rfl, rfl, rfl⟩)
  unfold run
  rw [hcompleted]
  refine hprecede.bind ?_
  intro marker q hq
  obtain ⟨hmarker, hchild, hq⟩ := hq
  have hstage := Node.stage_ne_fresh hcompleted
  refine .pure ⟨hsound.precede hnode hparent hstage hmarker hchild, ?_, ?_⟩
  · rw [hq, hevents]
    apply Array.ext_getElem?
    grind [Slot.event, Event.pending]
  · rw [List.filterMap_append, filterMap_token?_set hnode rfl rfl]
    exact List.append_nil _

/-- The same for opening a node again, if it was the last to be completed. -/
theorem yields_undo (hsound : Sound slots) (hevents : p.events = events slots)
    (hnode : slots[place]? = some (.node node)) {completed : Completed}
    (hstage : node.stage = .finished completed) (hlast : completed.finish + 1 = slots.length) :
    Parse.Yields (undo.run slots place node) p fun slots' q => Holds slots slots' q := by
  have hcompleted : node.completed? = some completed := by rw [Node.completed?, hstage]
  have hindex := ((hsound.fits hnode).completed hcompleted).2.1
  have hlt := (hsound.fits hnode).lt_finish hstage
  have hfinish := hsound.finished hnode hstage
  have hsize : p.events.size = slots.length := by rw [hevents, size_events]
  have hstart : p.events[completed.index]?
      = some (.start node.kind (node.parent.map (· - place)) node.field) := by
    rw [hevents, hindex, getElem?_events, hnode]
    rfl
  have hundo : Parse.Yields completed.undo p fun marker q =>
      marker.index = place ∧ marker.child = none ∧ q.events = p.events.pop := by
    unfold Completed.undo Completed.kind
    rw [bind_assoc]
    refine .eventAt hstart (.get (.get ?_))
    dsimp only
    rw [if_neg (by omega)]
    exact .modify (.pure ⟨hindex, rfl, rfl⟩)
  unfold run
  rw [hcompleted]
  refine hundo.bind ?_
  intro marker q hq
  obtain ⟨hmarker, hchild, hq⟩ := hq
  refine .pure ⟨hsound.undo hnode hstage hlast hmarker hchild, ?_, ?_⟩
  · rw [hq, hevents]
    apply Array.ext_getElem?
    grind [Slot.event]
  · have hkept : (slots.set place (.node { node with marker, stage := .undone completed
        }))[completed.finish]? = some (.finish place) := by
      rwa [List.getElem?_set_ne (by omega)]
    rw [filterMap_token?_dropLast hkept (by rwa [List.length_set]) rfl,
      filterMap_token?_set hnode rfl rfl]

/-- A change of the kind or the field of a node that was finished. -/
theorem yields_amend (hsound : Sound slots) (hevents : p.events = events slots)
    (hnode : slots[place]? = some (.node node)) {completed : Completed}
    (hcompleted : node.completed? = some completed) {kind : SyntaxKind}
    (hkind : kind ≠ .tombstone) (field : Option String) {otherwise : Fault}
    {update : SyntaxKind → Option Nat → Option String → Event}
    (hupdate : ∀ parent, update node.kind parent node.field = .start kind parent field) :
    Parse.Yields (Parse.changeStart completed.index otherwise update) p fun _ q =>
      Holds slots (slots.set place (.node { node with kind, field })) q := by
  have hindex := ((hsound.fits hnode).completed hcompleted).2.1
  have hstart : p.events[completed.index]?
      = some (.start node.kind (node.parent.map (· - place)) node.field) := by
    rw [hevents, hindex, getElem?_events, hnode]
    rfl
  unfold Parse.changeStart
  refine .eventAt hstart ?_
  have hfits := (hsound.fits hnode).amend (Node.stage_ne_fresh hcompleted) hkind field
  refine ⟨hsound.amend hnode hfits rfl rfl rfl, ?_, filterMap_token?_set hnode rfl rfl⟩
  show p.events.setIfInBounds completed.index _ = _
  rw [events_set, ← hevents, hindex, hupdate]
  rfl

/-- An operation that is allowed is carried out. -/
theorem yields_run (change : Change) (hsound : Sound slots) (hevents : p.events = events slots)
    (hnode : slots[place]? = some (.node node))
    (hallowed : change.allowed slots.length place node = true) :
    Parse.Yields (change.run slots place node) p fun slots' q => Holds slots slots' q := by
  have hfits := hsound.fits hnode
  -- What the change may be made on is read off `allowed`, change by change. It is what the lemma
  -- of each change asks for.
  unfold allowed at hallowed
  cases change with
  | complete kind =>
    obtain ⟨hopen, hkind⟩ : node.isFinished = false ∧ kind ≠ .tombstone := by simpa using hallowed
    exact yields_complete hsound hevents hnode hopen hkind
  | abandon =>
    cases hstage : node.stage with
    | fresh =>
      obtain ⟨-, -, hchild, hparent⟩ := hfits.fresh hstage
      have hopen : node.isFinished = false := by rw [Node.isFinished, hstage]
      exact yields_abandon hsound hevents hnode hopen hparent hchild (.inl hstage)
    | undone before =>
      obtain ⟨hlast, hchild⟩ : place + 1 = slots.length ∧ node.child = none := by
        simpa [hstage] using hallowed
      have hopen : node.isFinished = false := by rw [Node.isFinished, hstage]
      have hparent : node.parent = none := by
        rw [Option.eq_none_iff_forall_ne_some]
        intro m hparent
        -- A node in front of its child would come after the last slot.
        obtain ⟨hlt, around, haround, -⟩ := hsound.parent hnode hparent
        have := (List.getElem?_eq_some_iff.mp haround).1
        omega
      exact yields_abandon hsound hevents hnode hopen hparent
        ((hfits.undone hstage).trans hchild.symm) (.inr hlast)
    | finished completed =>
      rw [hstage] at hallowed
      cases hallowed
  | precede =>
    obtain ⟨hcompleted, hparent⟩ : node.completed?.isSome = true ∧ node.parent = none := by
      simpa using hallowed
    obtain ⟨completed, hcompleted⟩ := Option.isSome_iff_exists.mp hcompleted
    exact yields_precede hsound hevents hnode hparent hcompleted
  | setField field =>
    obtain ⟨completed, hcompleted⟩ := Option.isSome_iff_exists.mp hallowed
    unfold run Completed.setField
    rw [hcompleted]
    dsimp only
    rw [bind_assoc]
    refine (yields_amend hsound hevents hnode hcompleted (hfits.completed hcompleted).1 field
      ?_).bind ?_
    · intro _
      rfl
    · intro _ q hq
      exact .pure hq
  | changeKind kind =>
    obtain ⟨hcompleted, hkind⟩ : node.completed?.isSome = true ∧ kind ≠ .tombstone := by
      simpa using hallowed
    obtain ⟨completed, hcompleted⟩ := Option.isSome_iff_exists.mp hcompleted
    unfold run Completed.changeKind
    rw [hcompleted]
    dsimp only
    refine (yields_amend hsound hevents hnode hcompleted hkind node.field ?_).bind ?_
    · intro _
      rfl
    · intro _ q hq
      exact .pure hq
  | undo =>
    cases hstage : node.stage with
    | finished completed =>
      exact yields_undo hsound hevents hnode hstage (by simpa [hstage] using hallowed)
    | fresh =>
      rw [hstage] at hallowed
      cases hallowed
    | undone before =>
      rw [hstage] at hallowed
      cases hallowed

end Change

end Draft

/-! ### Runs -/

/-- A record of events from the view of those who make it. -/
structure Draft where
  slots : List Draft.Slot := []
  /-- The tokens that were consumed, the first one first. -/
  tokens : List BuildStep := []

namespace Draft

namespace Step

/-- Carries the operation out, on the record and on the draft. -/
def run (step : Step) (draft : Draft) : Parse Draft :=
  match step with
  | start => do
    let marker ← Parse.start
    return { draft with slots := draft.slots ++ [.node { marker }] }
  | bump context field kind => do
    let p ← get
    Parse.bump context field kind
    if p.kind = .eof then return draft
    else
      let kind := kind.getD (.token p.kind)
      return {
        slots := draft.slots ++ [.token kind p.range.stop field]
        tokens := draft.tokens ++ [.token kind p.range.stop field] }
  | change place it =>
    match draft.slots[place]? with
    | some (.node node) => do
      let slots ← it.run draft.slots place node
      return { draft with slots }
    | _ => return draft

/-- Whether the operation makes sense. -/
def allowed (step : Step) (draft : Draft) : Bool :=
  match step with
  | start | bump .. => true
  | change place it =>
    match draft.slots[place]? with
    | some (.node node) => it.allowed draft.slots.length place node
    | _ => false

end Step

/-- No node is open. -/
def isSettled (draft : Draft) : Bool :=
  draft.slots.all fun
    | .node it => it.isFinished
    | _ => true

/-- Carries operations out, one after another. -/
def run : List Step → Draft → Parse Draft
  | [], draft => return draft
  | step :: steps, draft => do run steps (← step.run draft)

/-- Whether each operation makes sense where it is carried out, and all
nodes are finished or given up in the end. -/
def proper : List Step → Draft → Parser → Bool
  | [], draft, _ => draft.isSettled
  | step :: steps, draft, p =>
    step.allowed draft &&
      match step.run draft p with
      | .ok draft q => proper steps draft q
      | .error _ _ => true

/-- The draft is that of the record. -/
structure Matches (draft : Draft) (p : Parser) : Prop where
  sound : Sound draft.slots
  events : p.events = Draft.events draft.slots
  tokens : draft.slots.filterMap Slot.token? = draft.tokens

variable {draft : Draft} {p : Parser}

/-- A step that is allowed raises no fault, and draft and record stay the same
thing. -/
theorem Step.yields_run (step : Step) (h : draft.Matches p) (hallowed : step.allowed draft = true) :
    Parse.Yields (step.run draft) p fun draft' q => draft'.Matches q := by
  have hsize : p.events.size = draft.slots.length := by rw [h.events, size_events]
  -- The first two steps only append; the last changes a finished node and has its own lemma.
  cases step with
  | start =>
    refine ⟨h.sound.start hsize rfl, ?_, ?_⟩
    · show p.events.push .pending = _
      rw [events_append, h.events]
      rfl
    · rw [List.filterMap_append, h.tokens]
      exact List.append_nil _
  | bump context field kind =>
    refine .get ?_
    refine .modify (.ite (fun heof => ?_) fun heof => ?_)
    · show draft.Matches (p.bump context field kind)
      rw [Parser.bump, if_pos heof]
      exact h
    · refine ⟨h.sound.token _ _ _, ?_, ?_⟩
      · rw [Parser.bump, if_neg heof, events_append, ← h.events]
        rfl
      · rw [List.filterMap_append, h.tokens]
        rfl
  | change place it =>
    obtain ⟨node, hnode, hit⟩ : ∃ node, draft.slots[place]? = some (.node node) ∧
        it.allowed draft.slots.length place node = true := by
      simp only [allowed] at hallowed
      split at hallowed
      · exact ⟨_, ‹_›, hallowed⟩
      · cases hallowed
    simp only [run, hnode]
    refine (it.yields_run h.sound h.events hnode hit).bind ?_
    intro slots q hq
    obtain ⟨hsound, hevents, htokens⟩ := hq
    exact .pure ⟨hsound, hevents, htokens.trans h.tokens⟩

/-- The induction is on the operations. -/
theorem yields_run (steps : List Step) (h : draft.Matches p)
    (hproper : proper steps draft p = true) :
    Parse.Yields (run steps draft) p fun draft' q =>
      draft'.Matches q ∧ draft'.isSettled = true := by
  induction steps generalizing draft p with
  | nil => exact .pure ⟨h, hproper⟩
  | cons step steps ih =>
    obtain ⟨hstep, hsteps⟩ := Bool.and_eq_true_iff.mp hproper
    obtain ⟨draft', q, hrun, hmatches⟩ := (step.yields_run h hstep).exists_ok
    rw [hrun] at hsteps
    exact (Parse.Yields.of_ok hrun ⟨rfl, rfl⟩).bind_known (ih hmatches hsteps)

/-! ### Replays -/

/-- The node that a finish belongs to. -/
def owner (slots : List Slot) (place : Nat) : Nat :=
  match slots[place]? with
  | some (.finish start) => start
  | _ => 0

section Slots

variable {slots : List Slot} {i j : Nat} {node : Node} {kind : SyntaxKind}
  {parent : Option Nat} {field : Option String}

/-- A finish is of the node that its slot says. -/
theorem owner_eq (h : slots[j]? = some (.finish i)) : owner slots j = i := by
  rw [owner, h]

/-- The finishes of a record are those of the slots. -/
theorem getElem?_events_eq_finish :
    (events slots)[j]? = some .finish ↔ ∃ i, slots[j]? = some (.finish i) := by
  rw [getElem?_events, Option.map_eq_some_iff]
  constructor
  · rintro ⟨slot, hslot, hevent⟩
    cases slot with
    | finish i => exact ⟨i, hslot⟩
    | _ => cases hevent
  · rintro ⟨i, hslot⟩
    exact ⟨_, hslot, rfl⟩

/-- The first event of the node that starts at `place` is at `first`: its
own start, or the first event of the node that it was put around. -/
inductive FirstOf (slots : List Slot) : (first place : Nat) → Prop
  | self {place : Nat} {node : Node} (node_at : slots[place]? = some (.node node))
    (childless : node.child = none) : FirstOf slots place place
  | inner {first place i : Nat} {node : Node} (node_at : slots[place]? = some (.node node))
    (child : node.child = some i) (h : FirstOf slots first i) : FirstOf slots first place

/-- In this order two nodes start: by their first events, and of two with
the same one the outer node before the inner. -/
def Precedes (slots : List Slot) (place place' : Nat) : Prop :=
  ∃ first first', FirstOf slots first place ∧ FirstOf slots first' place' ∧
    (first < first' ∨ first = first' ∧ place' < place)

/-- Every node is finished. -/
def Settled (slots : List Slot) : Prop :=
  ∀ {i : Nat} {node : Node}, slots[i]? = some (.node node) → node.isFinished = true

namespace Sound

/-- A node that was completed has a kind. -/
theorem kind_ne (h : Sound slots) (hnode : slots[i]? = some (.node node))
    (hfinished : node.isFinished = true) : node.kind ≠ .tombstone := by
  obtain ⟨completed, hcompleted⟩ := Node.exists_finished hfinished
  exact ((h.fits hnode).completed (by rw [Node.completed?, hcompleted])).1

/-- The starts that open a node are those of the nodes. -/
theorem opens_iff (h : Sound slots) (hsettled : Settled slots) :
    Event.Opens (events slots) i kind parent field ↔ ∃ node, slots[i]? = some (.node node) ∧
      node.kind = kind ∧ node.parent.map (· - i) = parent ∧ node.field = field := by
  unfold Event.Opens
  rw [getElem?_events, Option.map_eq_some_iff]
  constructor
  · rintro ⟨⟨slot, hslot, hevent⟩, hkind⟩
    cases slot with
    | node node =>
      cases hevent
      exact ⟨node, hslot, rfl, rfl, rfl⟩
    | hole =>
      cases hevent
      exact absurd rfl hkind
    | _ => cases hevent
  · rintro ⟨node, hnode, rfl, rfl, rfl⟩
    exact ⟨⟨_, hnode, rfl⟩, h.kind_ne hnode (hsettled hnode)⟩

/-- With all nodes settled, the start of a node is one that a replay opens. -/
theorem isOpening (h : Sound slots) (hsettled : Settled slots)
    (hnode : slots[i]? = some (.node node)) : Event.IsOpening (events slots) i :=
  ⟨_, _, _, (h.opens_iff hsettled).mpr ⟨node, hnode, rfl, rfl, rfl⟩⟩

/-- A start that names another one is that of a node inside a node. -/
theorem exists_around (h : Sound slots) (hsettled : Settled slots) {distance : Nat}
    (hopens : Event.Opens (events slots) i kind (some distance) field) :
    0 < distance ∧ ∃ around, slots[i + distance]? = some (.node around) ∧
      around.child = some i := by
  obtain ⟨node, hnode, -, hparent, -⟩ := (h.opens_iff hsettled).mp hopens
  obtain ⟨m, hm, rfl⟩ := Option.map_eq_some_iff.mp hparent
  obtain ⟨hlt, around, haround, hchild⟩ := h.parent hnode hm
  rw [Nat.add_sub_cancel' (Nat.le_of_lt hlt)]
  exact ⟨Nat.sub_pos_of_lt hlt, around, haround, hchild⟩

/-- The record of slots without an open node is linked. -/
theorem linked (h : Sound slots) (hsettled : Settled slots) :
    Event.Linked (owner slots) (events slots) 0 [] where
  -- Each clause reads the slots: forward links are the parents of `Sound`, and a finish is the
  -- one its node has in its stage.
  forward := by
    intro place kind distance field _ hopens
    obtain ⟨hpos, around, haround, -⟩ := h.exists_around hsettled hopens
    exact ⟨hpos, h.isOpening hsettled haround⟩
  apart := by
    intro place place' _ _ distance distance' _ _ _ _ hopens hopens' hsame
    obtain ⟨-, around, haround, hchild⟩ := h.exists_around hsettled hopens
    obtain ⟨-, around', haround', hchild'⟩ := h.exists_around hsettled hopens'
    rw [hsame, haround'] at haround
    cases haround
    exact Option.some.inj (hchild.symm.trans hchild')
  finishes := by
    intro place _ hevent
    obtain ⟨i, hslot⟩ := getElem?_events_eq_finish.mp hevent
    obtain ⟨node, completed, hnode, hstage, rfl⟩ := h.finish hslot
    rw [owner_eq hslot]
    exact .inr ⟨Nat.zero_le _, (h.fits hnode).lt_finish hstage, h.isOpening hsettled hnode⟩
  once := by
    intro place place' _ _ hevent hevent' hsame
    obtain ⟨i, hslot⟩ := getElem?_events_eq_finish.mp hevent
    obtain ⟨i', hslot'⟩ := getElem?_events_eq_finish.mp hevent'
    rw [owner_eq hslot, owner_eq hslot'] at hsame
    obtain ⟨node, completed, hnode, hstage, rfl⟩ := h.finish hslot
    obtain ⟨node', completed', hnode', hstage', rfl⟩ := h.finish hslot'
    rw [hsame, hnode'] at hnode
    cases hnode
    rw [hstage'] at hstage
    cases hstage
    rfl
  closes := by
    rintro place (hmem | ⟨-, kind, parent, field, hopens⟩)
    · cases hmem
    · obtain ⟨node, hnode, -⟩ := (h.opens_iff hsettled).mp hopens
      obtain ⟨completed, hstage⟩ := Node.exists_finished (hsettled hnode)
      have hslot := h.finished hnode hstage
      exact ⟨completed.finish, Nat.zero_le _, getElem?_events_eq_finish.mpr ⟨place, hslot⟩,
        owner_eq hslot⟩
  fresh := nofun
  nodup := List.nodup_nil

/-- A start that no start names is that of a node that was put around no
other one. -/
theorem firstOf (h : Sound slots) (hsettled : Settled slots) {first place : Nat}
    (hfirst : Event.FirstOf (events slots) 0 first place) : FirstOf slots first place := by
  induction hfirst with
  | self _ opening unnamed =>
    obtain ⟨kind, parent, field, hopens⟩ := opening
    obtain ⟨node, hnode, -⟩ := (h.opens_iff hsettled).mp hopens
    cases hchild : node.child with
    | none => exact .self hnode hchild
    | some i =>
      obtain ⟨inner, hinner, hparent⟩ := h.child hnode hchild
      have hlt := (h.parent hinner hparent).1
      have hnames : Event.Opens (events slots) i inner.kind (some (first - i)) inner.field :=
        (h.opens_iff hsettled).mpr
          ⟨inner, hinner, rfl, congrArg (Option.map (· - i)) hparent, rfl⟩
      exact absurd (Nat.add_sub_cancel' (Nat.le_of_lt hlt)) (unnamed (Nat.zero_le i) hlt hnames)
  | inner opens _ ih =>
    obtain ⟨-, around, haround, hchild⟩ := h.exists_around hsettled opens
    exact .inner haround hchild ih

end Sound

end Slots

/-- What the steps of a replay are to be when the record is meant as this
draft. The signs are the steps, with the places of the starts. What is
asked here is true of one list of signs only (`Intends.eq`), so it tells
which tokens and which nodes lie inside a node. -/
structure Intends (draft : Draft) (signs : List Sign) : Prop where
  /-- No node is finished before it is started, and all are at the end. -/
  balanced : BuildStep.level 0 (signs.map Sign.step) = some 0
  /-- The tokens are taken as they were consumed. -/
  tokens : signs.filterMap Sign.token? = draft.tokens
  /-- Nodes are finished in between where that was recorded. -/
  marks : signs.filterMap Sign.mark? = draft.slots.filterMap Slot.mark?
  /-- No node is started twice. -/
  nodup : (signs.filterMap Sign.place?).Nodup
  /-- The nodes of the draft are started, with their last kinds and
  fields, and no other. -/
  start_mem : ∀ {place kind field}, Sign.start place kind field ∈ signs ↔
    ∃ node, draft.slots[place]? = some (.node node) ∧ node.kind = kind ∧ node.field = field
  /-- A node that was put around another one has it as its first
  child. -/
  around : ∀ {place m node}, draft.slots[place]? = some (.node node) → node.parent = some m →
    ∃ outer : Node, draft.slots[m]? = some (.node outer) ∧
      [Sign.start m outer.kind outer.field, .start place node.kind node.field] <:+: signs
  /-- Nodes start in order. -/
  sorted : (signs.filterMap Sign.place?).Pairwise (Precedes draft.slots)
  /-- What was recorded before the first event of a node comes before its
  start. What was recorded from there on comes behind it, and lies inside
  the node up to the first finish in front of which as many nodes were
  finished as were started. -/
  nested : ∀ {before behind place kind field},
    signs = before ++ .start place kind field :: behind → ∃ first inside after,
      FirstOf draft.slots first place ∧
      before.filterMap Sign.mark? = (draft.slots.take first).filterMap Slot.mark? ∧
      behind.filterMap Sign.mark? = (draft.slots.drop first).filterMap Slot.mark? ∧
      behind = inside ++ .finish :: after ∧ BuildStep.level 0 (inside.map Sign.step) = some 0

/-- No node of a settled draft is open. -/
theorem isSettled_iff : draft.isSettled = true ↔ Settled draft.slots := by
  unfold isSettled
  rw [List.all_eq_true]
  constructor
  · intro h i node hnode
    exact h _ (List.mem_of_getElem? hnode)
  · intro h slot hmem
    obtain ⟨i, hslot⟩ := List.getElem?_of_mem hmem
    cases slot with
    | node node => exact h hslot
    | _ => rfl

/-- What a settled record tells is what its draft intends. -/
theorem intends_of_tells {signs : List Sign} (hsound : Sound draft.slots)
    (htokens : draft.slots.filterMap Slot.token? = draft.tokens) (hsettled : Settled draft.slots)
    (h : Event.Tells signs (events draft.slots) 0 0) : draft.Intends signs := by
  -- A start that is told names the node in its slot, and no other.
  have hopens {place kind field} (hmem : Sign.start place kind field ∈ signs) :
      ∃ node, draft.slots[place]? = some (.node node) ∧ node.kind = kind ∧ node.field = field := by
    obtain ⟨parent, hopens⟩ := h.named hmem
    obtain ⟨node, hnode, hkind, -, hfield⟩ := (hsound.opens_iff hsettled).mp hopens
    exact ⟨node, hnode, hkind, hfield⟩
  -- Tokens and finishes keep the order of the record, since only starts are moved in front.
  have hmarks : signs.filterMap Sign.mark? = draft.slots.filterMap Slot.mark? := by
    have hevents := @filterMap_mark?_events draft.slots draft.slots.length
    rw [List.take_length, List.take_of_length_le (by simp [size_events])] at hevents
    rw [h.marks, List.drop_zero, hevents]
  exact {
    balanced := h.balanced
    tokens := by
      rw [Sign.filterMap_token?, hmarks, ← filterMap_token?, htokens]
    marks := hmarks
    nodup := h.nodup
    start_mem := by
      refine ⟨hopens, ?_⟩
      rintro ⟨node, hnode, rfl, rfl⟩
      have hplace := (h.mem_places _).mpr ⟨Nat.zero_le _, hsound.isOpening hsettled hnode⟩
      obtain ⟨sign, hmem, hsign⟩ := List.mem_filterMap.mp hplace
      cases sign with
      | start place kind field =>
        cases hsign
        obtain ⟨node', hnode', rfl, rfl⟩ := hopens hmem
        rw [hnode] at hnode'
        cases hnode'
        exact hmem
      | _ => cases hsign
    around := by
      intro place m node hnode hparent
      obtain ⟨hlt, outer, houter, -⟩ := hsound.parent hnode hparent
      have hinner := (hsound.opens_iff hsettled).mpr
        ⟨node, hnode, rfl, congrArg (Option.map (· - place)) hparent, rfl⟩
      obtain ⟨kind, field, hpair⟩ := h.around (Nat.zero_le _) hinner
      rw [Nat.add_sub_cancel' (Nat.le_of_lt hlt)] at hpair
      obtain ⟨outer', houter', rfl, rfl⟩ := hopens (hpair.subset (List.mem_cons_self ..))
      exact ⟨outer', houter', hpair⟩
    sorted := h.sorted.imp fun ⟨first, first', hfirst, hfirst', hlt⟩ =>
      ⟨first, first', hsound.firstOf hsettled hfirst, hsound.firstOf hsettled hfirst', hlt⟩
    -- The finish of a node is found by counting from its start, since all that is told is
    -- balanced.
    nested := by
      intro before behind place kind field hsplit
      obtain ⟨first, hfirst, hbefore⟩ := h.begins hsplit
      rw [List.drop_zero, filterMap_mark?_events] at hbefore
      have hlevel := h.balanced
      rw [hsplit, List.map_append, BuildStep.level_append] at hlevel
      obtain ⟨depth, -, hlevel⟩ := Option.bind_eq_some_iff.mp hlevel
      obtain ⟨inside, after, heq, hinside⟩ := @Sign.exists_finish behind depth 0 hlevel
      refine ⟨first, inside, after, hsound.firstOf hsettled hfirst, hbefore, ?_, heq, hinside⟩
      rw [hsplit, List.filterMap_append, hbefore, ← List.take_append_drop first draft.slots,
        List.filterMap_append, List.take_append_drop] at hmarks
      exact List.append_cancel_left hmarks }

/-- A record of settled nodes replays to the steps that its draft intends, for
any way to take the steps. This is what the statement on whole runs is put
together from. -/
theorem Matches.exists_intends (h : draft.Matches p) (hsettled : draft.isSettled = true) :
    ∃ signs, draft.Intends signs ∧
      ∀ {σ : Type} (step : σ → BuildStep → Except Fault σ) (state : σ),
        Event.replay step p.events state = (signs.map Sign.step).foldlM step state := by
  have hsettled : Settled draft.slots := isSettled_iff.mp hsettled
  obtain ⟨signs, htells, hrun⟩ := (h.sound.linked hsettled).exists_signs
  rw [h.events]
  exact ⟨signs, intends_of_tells h.sound h.tokens hsettled htells, hrun⟩

/-- Operations on a record that make sense raise no fault. The list `steps`
starts from the empty record, and `proper` says that each step is allowed where
it is taken, and that all nodes are settled at the end: completed, or given up.
Two things are not allowed that could be asked for, since the record gets them
wrong: a node that was opened again is given up only where nothing is in it and
nothing came behind it (`exists_replay_eq_error`).

Replaying the record takes the steps that the draft intends, whatever they do.
`Intends` is met by one list of steps only (`Intends.eq`), so this says which
tree is built. -/
theorem exists_run_replay (source : TokenSource) (options : Options) (file : Text)
    (steps : List Step) (hproper : proper steps {} (.ofSource source options file) = true) :
    ∃ draft p signs, run steps {} (.ofSource source options file) = .ok draft p ∧
      draft.Intends signs ∧
      ∀ {σ : Type} (step : σ → BuildStep → Except Fault σ) (state : σ),
        Event.replay step p.events state = (signs.map Sign.step).foldlM step state := by
  have hmatches : Matches {} (.ofSource source options file) :=
    ⟨⟨nofun, nofun, nofun, nofun, nofun⟩, rfl, rfl⟩
  obtain ⟨draft, p, hrun, hend, hsettled⟩ := (yields_run steps hmatches hproper).exists_ok
  obtain ⟨signs, hintends, hreplay⟩ := hend.exists_intends hsettled
  exact ⟨draft, p, signs, hrun, hintends, hreplay⟩

/-- Every operation is there. The inner node is put into one that is
finished twice, next to one that is given up. -/
theorem exists_run_replay_every_operation :
    let source : TokenSource := .ofLexer (.ofSource "a b" "f")
    let steps : List Step := [.start, .start, .bump .normal (some "name") none,
      .change 1 (.complete .error), .change 1 .precede, .bump .normal none (some .rawKeyword),
      .change 4 (.complete .element), .change 4 .undo, .start, .change 6 .abandon,
      .change 4 (.complete .element), .change 4 (.setField (some "value")),
      .change 1 (.changeKind .identifierExpression), .change 0 (.complete .moduleDefinition)]
    proper steps {} (.ofSource source {} "f") = true ∧
      ∃ draft p signs, run steps {} (.ofSource source {} "f") = .ok draft p ∧
        draft.Intends signs ∧
        ∀ {σ : Type} (step : σ → BuildStep → Except Fault σ) (state : σ),
          Event.replay step p.events state = (signs.map Sign.step).foldlM step state := by
  intro source steps
  have hproper : proper steps {} (.ofSource source {} "f") = true := by decide +kernel
  exact ⟨hproper, exists_run_replay source {} "f" steps hproper⟩

/-- The node that starts at 4 is given up after its completion was taken
back, and the node that starts at 1 is inside. That node goes on naming
the place as a start, and the last finish comes to stand there. -/
theorem exists_replay_eq_error :
    ∃ draft p, run [.start, .start, .bump .normal none none, .change 1 (.complete .error),
        .change 1 .precede, .change 4 (.complete .element), .change 4 .undo, .change 4 .abandon,
        .change 0 (.complete .moduleDefinition)] {}
        (.ofSource (.ofLexer (.ofSource "a b" "f")) {} "f") = .ok draft p ∧
      draft.isSettled = true ∧
      Event.replay (fun (_ : Unit) _ => .ok ()) p.events () = .error .forwardParentOffStart := by
  have hrun : (match run [.start, .start, .bump .normal none none, .change 1 (.complete .error),
        .change 1 .precede, .change 4 (.complete .element), .change 4 .undo, .change 4 .abandon,
        .change 0 (.complete .moduleDefinition)] {}
        (.ofSource (.ofLexer (.ofSource "a b" "f")) {} "f") with
      | .ok draft p => draft.isSettled &&
          (Event.replay (fun (_ : Unit) _ => .ok ()) p.events () matches
            .error .forwardParentOffStart)
      | .error _ _ => false) = true := by
    decide +kernel
  split at hrun
  · rename_i draft p heq
    refine ⟨draft, p, heq, (Bool.and_eq_true_iff.mp hrun).1, ?_⟩
    have hreplay := (Bool.and_eq_true_iff.mp hrun).2
    split at hreplay
    · assumption
    · cases hreplay
  · cases hrun

end Draft

end MarkupSyntax
