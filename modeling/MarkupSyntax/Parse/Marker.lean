import MarkupSyntax.Parse.Action

/-!
# `MarkupSyntax.Parse.Marker`: nodes under construction

A `Marker` is a node that was started, a `Completed` one that was
finished. Both are places in the record of events. A completed node can
still change its kind or field, be taken back, or get a parent that
starts before it.
-/

set_option autoImplicit false

namespace MarkupSyntax

/-- A node that was started. -/
structure Marker where
  /-- The place of its start event. -/
  index : Nat
  /-- The offset at which the node starts in the source. -/
  offset : Nat
  /-- The place of the first event of the node, its first child's
  included when that came before. -/
  firstEvent : Nat
  /-- The start event of the child it was put around. -/
  child : Option Nat := none
deriving DecidableEq, Repr

/-- A node that was finished. -/
structure Completed where
  /-- The place of its start event. -/
  index : Nat
  /-- The place of its finish event. -/
  finish : Nat
  offset : Nat
  firstEvent : Nat
deriving DecidableEq, Repr

namespace Parse

/-- The event at a place of the record. -/
def eventAt (index : Nat) : Parse Event := do
  match (← get).events[index]? with
  | some event => return event
  | none => throw .noSuchEvent

/-- Changes the start event at a place of the record by `change`, which
gets its kind, forward parent and field. -/
def changeStart (index : Nat) (otherwise : Fault)
    (change : SyntaxKind → Option Nat → Option String → Event) : Parse Unit := do
  match ← eventAt index with
  | .start kind parent field =>
    modify fun p => { p with events := p.events.setIfInBounds index (change kind parent field) }
  | _ => throw otherwise

/-- Starts a node at the current token. -/
def start : Parse Marker := do
  let p ← get
  let index := p.events.size
  set { p with events := p.events.push .pending }
  return { index, offset := p.position, firstEvent := index }

end Parse

namespace Marker

/-- Finishes the node as one of a kind. -/
def complete (marker : Marker) (kind : SyntaxKind) : Parse Completed := do
  Parse.changeStart marker.index .markerOffStart fun _ parent field => .start kind parent field
  let finish := (← get).events.size
  modify fun p => { p with events := p.events.push .finish }
  return { index := marker.index, finish, offset := marker.offset, firstEvent := marker.firstEvent }

/-- Gives the node up: what was parsed since belongs to the node
around it. -/
def abandon (marker : Marker) : Parse Unit := do
  let p ← get
  if marker.index + 1 = p.events.size then
    match p.events.back? with
    | some (.start _ none _) => set { p with events := p.events.pop }
    | _ => pure ()
  match marker.child with
  | none => pure ()
  | some child =>
    match ← Parse.eventAt child with
    | .start kind _ field =>
      modify fun p => { p with events := p.events.setIfInBounds child (.start kind none field) }
    | _ => pure ()

end Marker

namespace Completed

/-- The kind of the node. -/
def kind (node : Completed) : Parse SyntaxKind := do
  match ← Parse.eventAt node.index with
  | .start kind _ _ => return kind
  | _ => throw .completionOffStart

/-- Makes it a node of another kind. -/
def changeKind (node : Completed) (kind : SyntaxKind) : Parse Unit :=
  Parse.changeStart node.index .completionOffStart fun _ parent field => .start kind parent field

/-- Puts the node into a field of its parent, or into none. -/
def setField (node : Completed) (field : Option String) : Parse Completed := do
  Parse.changeStart node.index .completionOffStart fun kind parent _ => .start kind parent field
  return node

/-- Puts the node into a field of its parent. -/
def into (node : Completed) (field : String) : Parse Unit := do
  let _ ← node.setField (some field)

/-- The range from the start of the node to the end of its last token;
empty when it has none. -/
def range (node : Completed) : Parse TextRange := do
  let events := (← get).events.extract node.firstEvent node.finish
  let stop := (events.toList.reverse.findSome? fun
    | .token _ stop _ => some stop
    | _ => none).getD node.offset
  match TextRange.ofBounds? node.offset stop with
  | some range => return range
  | none => throw (.bounds .reversed)

/-- The text of the node's range. -/
def text (node : Completed) : Parse Text := do
  let range ← node.range
  return (← get).text.sliceRange range

/-- Starts a node around this one. -/
def precede (node : Completed) : Parse Marker := do
  let marker ← Parse.start
  match ← Parse.eventAt node.index with
  | .start kind _ field =>
    if marker.index ≤ node.index then throw .precedeBackward
    let event := .start kind (some (marker.index - node.index)) field
    modify fun p => { p with events := p.events.setIfInBounds node.index event }
  | _ => throw .completionOffStart
  return { marker with
    child := some node.index
    offset := node.offset
    firstEvent := min marker.firstEvent node.firstEvent }

/-- Takes the completion back; only the last event can be. -/
def undo (node : Completed) : Parse Marker := do
  let _ ← node.kind
  if node.finish + 1 ≠ (← get).events.size then throw .completionNotLast
  modify fun p => { p with events := p.events.pop }
  return { index := node.index, offset := node.offset, firstEvent := node.firstEvent }

end Completed

namespace Parse

/-- Reports a code at the current token and leaves an empty error node
in a field. -/
def missing (field : Option String) (code : Code) : Parse Completed := do
  reportHere code
  let node ← (← start).complete .error
  node.setField field

/-- Puts a parsed part into a field, or reports that it is missing. -/
def orMissing (part : Option Completed) (field : String) (code : Code) : Parse Unit := do
  match part with
  | some node => node.into field
  | none => let _ ← missing (some field) code

end Parse

end MarkupSyntax
