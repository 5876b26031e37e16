import MarkupSyntax.Event.Basic
import MarkupSyntax.Tree.Builder

/-!
# `MarkupSyntax.Event.Assembly`: from a record of events to a tree

`replay` turns a record of events into nested starts and finishes:
where a node names a later start as its parent, that parent starts
first, and the later event is spent.

`Assembly` takes these steps and hands the trivia of the source to the
tokens. Trivia in front of a token is its leading trivia. The trivia
after it is its trailing trivia as long as it was recorded as
trailing. A token for the end of the source, which takes the trivia
that is left, goes in front of the last finish if there was none.
-/

set_option autoImplicit false

namespace MarkupSyntax

/-! ### Replay -/

/-- A step of a replay. -/
inductive BuildStep where
  | start (kind : SyntaxKind) (field : Option String)
  | token (kind : SyntaxKind) (stop : Nat) (field : Option String)
  | finish
deriving DecidableEq, Repr

namespace Event

/-- Follows the parents of a start event at `index` outward, in at most
`fuel` steps, and spends their events. The answer lists the nodes to
start, the outermost first, in front of `inner`. -/
def chain (fuel : Nat) (index : Nat) (forwardParent : Option Nat)
    (inner : List (SyntaxKind × Option String)) (events : Array Event) :
    Except Fault (List (SyntaxKind × Option String) × Array Event) :=
  match fuel, forwardParent with
  | _, none => .ok (inner, events)
  | 0, some _ => .error .exhausted
  | fuel + 1, some distance =>
    let parent := index + distance
    match events[parent]? with
    | none => .error .forwardParentOutside
    | some (.start kind next field) =>
      chain fuel parent next
        (if kind = .tombstone then inner else (kind, field) :: inner)
        (events.setIfInBounds parent .pending)
    | some _ => .error .forwardParentOffStart

/-- The steps of the `count` events from `index` on, each taken by
`step`. A spent start and one that was never completed give none. -/
def replayFrom {σ : Type} (step : σ → BuildStep → Except Fault σ) :
    (count : Nat) → (index : Nat) → (events : Array Event) → σ → Except Fault σ
  | 0, _, _, state => .ok state
  | count + 1, index, events, state =>
    match events[index]? with
    | none => .ok state
    | some .finish => do
      replayFrom step count (index + 1) events (← step state .finish)
    | some (.token kind stop field) => do
      replayFrom step count (index + 1) events (← step state (.token kind stop field))
    | some (.start .tombstone _ _) => replayFrom step count (index + 1) events state
    | some (.start kind forwardParent field) => do
      let (nodes, events) ←
        chain (events.size + 1) index forwardParent [(kind, field)] events
      let state ← nodes.foldlM (fun state (kind, field) => step state (.start kind field)) state
      replayFrom step count (index + 1) events state

/-- Takes every step of a record. -/
def replay {σ : Type} (step : σ → BuildStep → Except Fault σ) (events : Array Event)
    (state : σ) : Except Fault σ :=
  replayFrom step events.size 0 events state

end Event

/-! ### Assembly -/

/-- A tree under construction from steps, a source and its trivia. -/
structure Assembly where
  text : Text
  /-- The trivia not yet given to a token. -/
  trivia : List Trivia
  /-- The offset up to which the source is used up. -/
  position : Nat := 0
  /-- The number of open nodes. -/
  depth : Nat := 0
  builder : Builder := {}
  /-- No token for the end of the source came so far. -/
  needsEnd : Bool := true

namespace Assembly

/-- The trivia at the front that lies at `position`, piece after piece,
as long as `takes` holds. -/
def takeTrivia (takes : Trivia → Bool) :
    (position : Nat) → List Trivia → List TriviaPiece × Nat × List Trivia
  | position, [] => ([], position, [])
  | position, piece :: rest =>
    if takes piece && position = piece.range.start then
      let (pieces, last, left) := takeTrivia takes piece.range.stop rest
      (⟨piece.kind, piece.range.length⟩ :: pieces, last, left)
    else ([], position, piece :: rest)

/-- Adds a token that stops at `stop`, with the trivia around it. -/
def token (assembly : Assembly) (kind : SyntaxKind) (stop : Nat) (field : Option String) :
    Assembly :=
  let (leading, start, trivia) :=
    takeTrivia (fun piece => !piece.isTrailing && piece.range.stop ≤ stop)
      assembly.position assembly.trivia
  let (trailing, position, trivia) := takeTrivia (·.isTrailing) stop trivia
  let leaf : Leaf := { kind, text := assembly.text.slice start stop, leading, trailing }
  { assembly with
    trivia, position
    builder := assembly.builder.token leaf field
    needsEnd := assembly.needsEnd && kind ≠ .token .eof }

/-- Takes one step of a replay. -/
def step (assembly : Assembly) : BuildStep → Except Fault Assembly
  | .start kind field =>
    .ok { assembly with
      builder := assembly.builder.startNode kind field
      depth := assembly.depth + 1 }
  | .token kind stop field => .ok (assembly.token kind stop field)
  | .finish =>
    match assembly.depth with
    | 0 => .error .finishWithoutStart
    | depth + 1 => do
      let assembly := { assembly with depth }
      let assembly :=
        if depth = 0 && assembly.needsEnd then
          assembly.token (.token .eof) assembly.text.length none
        else assembly
      let builder ← assembly.builder.finishNode
      return { assembly with builder }

end Assembly

/-- The tree of a record of events over a source and its trivia. -/
def Tree.ofEvents (text : Text) (trivia : Array Trivia) (events : Array Event) :
    Except Fault Tree := do
  let assembly ← Event.replay Assembly.step events { text, trivia := trivia.toList }
  assembly.builder.finish

end MarkupSyntax
