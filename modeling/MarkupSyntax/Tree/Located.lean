import MarkupSyntax.Text.Lines
import MarkupSyntax.Text.Quoted
import MarkupSyntax.Tree.Basic

/-!
# `MarkupSyntax.Tree.Located`: parts of a tree with their offsets

A `Located` is a part of a tree together with its offset in the source
and the nodes above it. From it one moves to children, siblings and
parents, and reads the part's text from the source.

The range of a part includes its trivia; its trimmed range runs from
its first token to its last, without the trivia at the two ends.
-/

set_option autoImplicit false

namespace MarkupSyntax

/-- A node above a part, and the place among its children where the
part is. -/
structure Ancestor where
  tree : Tree
  start : Nat
  index : Nat

/-- A part of a tree at its place. -/
structure Located where
  source : Text
  tree : Tree
  /-- The offset at which the part starts, trivia included. -/
  start : Nat
  /-- The nodes above, the parent first. -/
  above : List Ancestor := []

namespace Located

/-- A whole tree over its source. The root fills no field. -/
def ofTree (tree : Tree) (source : Text) : Located :=
  { source, tree := tree.withField none, start := 0 }

/-! ### The part itself -/

/-- The kind of the part. -/
def kind (part : Located) : SyntaxKind := part.tree.kind

/-- The field that the part fills. -/
def field? (part : Located) : Option String := part.tree.field?

/-- The token, if the part is one. -/
def leaf? (part : Located) : Option Leaf :=
  match part.tree with
  | .leaf _ leaf => some leaf
  | .node .. => none

/-- True for a node. -/
def isNode (part : Located) : Bool := part.leaf?.isNone

/-- True for a token. -/
def isLeaf (part : Located) : Bool := part.leaf?.isSome

/-- The offset at which the part stops, trivia included. -/
def stop (part : Located) : Nat := part.start + part.tree.length

/-- The range of the part, trivia included. -/
def range (part : Located) : TextRange := .ofLength part.start part.tree.length

/-- True for the offsets of the part. -/
def covers (part : Located) (offset : Nat) : Bool := part.range.contains offset

/-- The place of the part among the children of its parent. -/
def index (part : Located) : Nat := (part.above.head?.map (·.index)).getD 0

/-! ### Moving -/

/-- The node above. -/
def parent? (part : Located) : Option Located :=
  match part.above with
  | [] => none
  | ancestor :: above =>
    some { source := part.source, tree := ancestor.tree, start := ancestor.start, above }

/-- The parts of a node from the child number `index` on, which starts
at `start`. -/
def childrenFrom (node : Located) (index start : Nat) : List Tree → List Located
  | [] => []
  | tree :: rest =>
    { source := node.source, tree, start, above := ⟨node.tree, node.start, index⟩ :: node.above } ::
      childrenFrom node (index + 1) (start + tree.length) rest

/-- The children of a node, in order; a token has none. -/
def children (part : Located) : List Located :=
  part.childrenFrom 0 part.start part.tree.children

/-- The part after this one in its parent. -/
def next? (part : Located) : Option Located :=
  part.parent?.bind fun parent => parent.children[part.index + 1]?

/-- The part before this one in its parent. -/
def previous? (part : Located) : Option Located :=
  if part.index = 0 then none
  else part.parent?.bind fun parent => parent.children[part.index - 1]?

mutual
/-- A tree at its place and every part below it, in pre-order. -/
def walk (source : Text) (above : List Ancestor) (start : Nat) : Tree → List Located
  | .node field kind children =>
    { source, tree := .node field kind children, start, above } ::
      walkList source (.node field kind children) start above 0 start children
  | .leaf field token => [{ source, tree := .leaf field token, start, above }]

/-- The parts of a node from the child number `index` on, which starts
at `start`. -/
def walkList (source : Text) (parent : Tree) (parentStart : Nat) (above : List Ancestor)
    (index start : Nat) : List Tree → List Located
  | [] => []
  | tree :: rest =>
    walk source (⟨parent, parentStart, index⟩ :: above) start tree ++
      walkList source parent parentStart above (index + 1) (start + tree.length) rest
end

/-- The part and every part below it, in pre-order. -/
def parts (part : Located) : List Located :=
  walk part.source part.above part.start part.tree

/-- The node and every node below it, in pre-order. -/
def nodes (part : Located) : List Located := part.parts.filter isNode

/-- The tokens of the part, in order. -/
def tokens (part : Located) : List Located := part.parts.filter isLeaf

mutual
/-- The first token of a tree at its place. -/
def firstOf (source : Text) (above : List Ancestor) (start : Nat) : Tree → Option Located
  | .node field kind children =>
    firstOfList source (.node field kind children) start above 0 start children
  | .leaf field token => some { source, tree := .leaf field token, start, above }

/-- The token of the first child that has one, of the children from the
number `index` on. -/
def firstOfList (source : Text) (parent : Tree) (parentStart : Nat) (above : List Ancestor)
    (index start : Nat) : List Tree → Option Located
  | [] => none
  | tree :: rest =>
    (firstOf source (⟨parent, parentStart, index⟩ :: above) start tree).or
      (firstOfList source parent parentStart above (index + 1) (start + tree.length) rest)
end

mutual
/-- The last token of a tree at its place. -/
def lastOf (source : Text) (above : List Ancestor) (start : Nat) : Tree → Option Located
  | .node field kind children =>
    lastOfList source (.node field kind children) start above 0 start children
  | .leaf field token => some { source, tree := .leaf field token, start, above }

/-- The token of the last child that has one, of the children from the
number `index` on. -/
def lastOfList (source : Text) (parent : Tree) (parentStart : Nat) (above : List Ancestor)
    (index start : Nat) : List Tree → Option Located
  | [] => none
  | tree :: rest =>
    (lastOfList source parent parentStart above (index + 1) (start + tree.length) rest).or
      (lastOf source (⟨parent, parentStart, index⟩ :: above) start tree)
end

/-- The first token. -/
def firstToken? (part : Located) : Option Located :=
  firstOf part.source part.above part.start part.tree

/-- The last token. -/
def lastToken? (part : Located) : Option Located :=
  lastOf part.source part.above part.start part.tree

/-! ### Looking for a part -/

/-- The children that are nodes. -/
def childNodes (part : Located) : List Located := part.children.filter isNode

/-- The children that are tokens. -/
def childTokens (part : Located) : List Located := part.children.filter isLeaf

/-- The children that fill a field. -/
def fieldChildren (part : Located) (field : String) : List Located :=
  part.children.filter fun child => child.field? = some field

/-- The first child that fills a field. -/
def child? (part : Located) (field : String) : Option Located :=
  part.children.find? fun child => child.field? = some field

/-- The first child node of a kind. -/
def nodeOfKind? (part : Located) (kind : SyntaxKind) : Option Located :=
  part.childNodes.find? fun child => child.kind = kind

/-- The first child token of a kind. -/
def tokenOfKind? (part : Located) (kind : SyntaxKind) : Option Located :=
  part.childTokens.find? fun child => child.kind = kind

mutual
/-- The node where the descent to an offset stops: it goes from a tree at
its place to the first child node that covers the offset, while there is
one. -/
def descend (offset : Nat) (source : Text) (above : List Ancestor) (start : Nat) : Tree → Located
  | .node field kind children =>
    (descendList offset source (.node field kind children) start above 0 start children).getD
      { source, tree := .node field kind children, start, above }
  | .leaf field token => { source, tree := .leaf field token, start, above }

/-- The same from the first child node that covers the offset, of the
children from the number `index` on. -/
def descendList (offset : Nat) (source : Text) (parent : Tree) (parentStart : Nat)
    (above : List Ancestor) (index start : Nat) : List Tree → Option Located
  | [] => none
  | tree :: rest =>
    let child : Located := { source, tree, start, above := ⟨parent, parentStart, index⟩ :: above }
    if child.isNode && child.covers offset then some (descend offset source child.above start tree)
    else descendList offset source parent parentStart above (index + 1) (start + tree.length) rest
end

/-- The deepest node that covers an offset; the part itself where none
below it does. -/
def nodeAt (part : Located) (offset : Nat) : Located :=
  descend offset part.source part.above part.start part.tree

/-- The token that covers an offset. -/
def tokenAt? (part : Located) (offset : Nat) : Option Located :=
  (part.nodeAt offset).tokens.find? (·.covers offset)

/-! ### Text -/

/-- The length of the trivia in front of a token. -/
def leadingLength (part : Located) : Nat :=
  (part.leaf?.map fun leaf => TriviaPiece.totalLength leaf.leading).getD 0

/-- The offset at which a token starts without its trivia. -/
def tokenStart (part : Located) : Nat := part.start + part.leadingLength

/-- The range of a token without its trivia. -/
def tokenRange (part : Located) : TextRange :=
  .ofLength part.tokenStart ((part.leaf?.map (·.text.length)).getD 0)

/-- The range from the first token to the last; empty where there is
none. -/
def trimmedRange (part : Located) : TextRange :=
  match part.firstToken?, part.lastToken? with
  | some first, some last =>
    (TextRange.ofBounds? first.tokenRange.start last.tokenRange.stop).getD (.empty part.start)
  | _, _ => .empty part.start

/-- The text of the trimmed range; of a token, its own. -/
def trimmedText (part : Located) : Text :=
  match part.leaf? with
  | some leaf => leaf.text
  | none => part.source.sliceRange part.trimmedRange

/-- The text of a node with all trivia; of a token, its own text. -/
def text (part : Located) : Text :=
  match part.leaf? with
  | some leaf => leaf.text
  | none => part.source.sliceRange part.range

/-- The text of a token with its trivia; without a source, its own
text. -/
def fullText (part : Located) : Text :=
  match part.leaf? with
  | some leaf => if part.source.isEmpty then leaf.text else part.source.sliceRange part.range
  | none => part.source.sliceRange part.range

/-- The texts of the tokens without any trivia: `a . b` and `a.b` are
the same name. -/
def nameText (part : Located) : Text := part.tree.leaves.flatMap (·.text)

/-- The part as it is shown in messages: a node by its range, a token
by its text and its own range. -/
def display (part : Located) : Text :=
  match part.leaf? with
  | some leaf =>
    Text.ofString ("SyntaxToken(" ++ leaf.kind.name ++ ", ") ++ leaf.text.quoted ++
      Text.ofString (", " ++ toString part.tokenRange.start ++ ".." ++
        toString part.tokenRange.stop ++ ")")
  | none =>
    Text.ofString ("SyntaxNode(" ++ part.kind.name ++ ", " ++ toString part.range.start ++ ".." ++
      toString part.range.stop ++ ")")

/-- Pieces of trivia from offset `start` on, with their texts. -/
def triviaTexts (source : Text) (start : Nat) : List TriviaPiece → List (TriviaKind × Text)
  | [] => []
  | piece :: rest =>
    (piece.kind, source.slice start (start + piece.length)) ::
      triviaTexts source (start + piece.length) rest

/-- The trivia in front of a token. -/
def leadingTrivia (part : Located) : List (TriviaKind × Text) :=
  triviaTexts part.source part.start ((part.leaf?.map (·.leading)).getD [])

/-- The trivia after a token. -/
def trailingTrivia (part : Located) : List (TriviaKind × Text) :=
  triviaTexts part.source part.tokenRange.stop ((part.leaf?.map (·.trailing)).getD [])

end Located

end MarkupSyntax
