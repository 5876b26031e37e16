import MarkupSyntax.Fault
import MarkupSyntax.Tree.Basic

/-!
# `MarkupSyntax.Tree.Builder`: trees from nested starts and finishes

A `Builder` keeps the nodes that are open, the innermost first, each
with the children it has so far.
-/

set_option autoImplicit false

namespace MarkupSyntax

/-- A node under construction; its children come last first. -/
structure OpenNode where
  field : Option String
  kind : SyntaxKind
  children : List Tree := []
deriving Repr

/-- A tree under construction. -/
structure Builder where
  /-- The open nodes, the innermost first. -/
  stack : List OpenNode := []
  /-- The finished parts outside every open node, the last first. -/
  roots : List Tree := []
deriving Repr

namespace Builder

/-- Adds a finished part to the innermost open node. -/
def add (builder : Builder) (tree : Tree) : Builder :=
  match builder.stack with
  | [] => { builder with roots := tree :: builder.roots }
  | top :: rest => { builder with stack := { top with children := tree :: top.children } :: rest }

/-- Opens a node. -/
def startNode (builder : Builder) (kind : SyntaxKind) (field : Option String) : Builder :=
  { builder with stack := { field, kind } :: builder.stack }

/-- Adds a token. -/
def token (builder : Builder) (leaf : Leaf) (field : Option String) : Builder :=
  builder.add (.leaf field leaf)

/-- Closes the innermost open node. -/
def finishNode (builder : Builder) : Except Fault Builder :=
  match builder.stack with
  | [] => .error .finishOnEmptyStack
  | top :: rest =>
    .ok ({ builder with stack := rest }.add (.node top.field top.kind top.children.reverse))

/-- The tree, when every node is closed: the one root node, or a root
node around everything there is. The root and its children outside any
node fill no field. -/
def finish (builder : Builder) : Except Fault Tree :=
  if !builder.stack.isEmpty then .error .unclosedNodes
  else match builder.roots with
    | [.node _ .root children] => .ok (.node none .root children)
    | roots => .ok (.node none .root (roots.reverse.map (Tree.withField none)))

end Builder

end MarkupSyntax
