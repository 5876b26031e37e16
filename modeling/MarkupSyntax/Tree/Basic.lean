import MarkupSyntax.Token.Basic
import MarkupSyntax.Tree.Kind

/-!
# `MarkupSyntax.Tree.Basic`: lossless syntax trees

A `Tree` keeps every token of a source with the trivia around it, so
the source can be read back from it. It knows kinds, texts and lengths,
and no offsets: `MarkupSyntax.Tree.Located` adds those.

A part of a tree carries the name of the field that it fills in its
parent, if it fills one.
-/

set_option autoImplicit false

namespace MarkupSyntax

/-- A token of a tree with its trivia. -/
structure Leaf where
  kind : SyntaxKind
  text : Text
  leading : List TriviaPiece := []
  trailing : List TriviaPiece := []
deriving DecidableEq, Repr

/-- The length of pieces of trivia that follow one another. -/
def TriviaPiece.totalLength : List TriviaPiece → Nat
  | [] => 0
  | piece :: rest => piece.length + totalLength rest

namespace Leaf

/-- The length of the token with its trivia. -/
def length (leaf : Leaf) : Nat :=
  TriviaPiece.totalLength leaf.leading + leaf.text.length + TriviaPiece.totalLength leaf.trailing

end Leaf

/-- A node or a token, and the field that it fills in its parent. -/
inductive Tree where
  | node (field : Option String) (kind : SyntaxKind) (children : List Tree)
  | leaf (field : Option String) (token : Leaf)
deriving Repr

namespace Tree

instance : Inhabited Tree := ⟨node none .root []⟩

/-- The field that the part fills in its parent. -/
def field? : Tree → Option String
  | node field _ _ => field
  | leaf field _ => field

/-- The kind of the part. -/
def kind : Tree → SyntaxKind
  | node _ kind _ => kind
  | leaf _ token => token.kind

/-- The children of the part; a token has none. -/
def children : Tree → List Tree
  | node _ _ children => children
  | leaf _ _ => []

/-- The part in another field. -/
def withField (field : Option String) : Tree → Tree
  | node _ kind children => node field kind children
  | leaf _ token => leaf field token

mutual
/-- The length of the part, trivia included. -/
def length : Tree → Nat
  | node _ _ children => lengthList children
  | leaf _ token => token.length

/-- The length of parts that follow one another. -/
def lengthList : List Tree → Nat
  | [] => 0
  | tree :: rest => tree.length + lengthList rest
end

mutual
/-- The tokens of the part, in order. -/
def leaves : Tree → List Leaf
  | node _ _ children => leavesList children
  | leaf _ token => [token]

/-- The tokens of parts that follow one another. -/
def leavesList : List Tree → List Leaf
  | [] => []
  | tree :: rest => tree.leaves ++ leavesList rest
end

/-- A part of a tree and its distance from the root. -/
structure Row where
  depth : Nat
  tree : Tree

mutual
/-- The part and everything below it, in pre-order. -/
def rows (depth : Nat) : Tree → List Row
  | node field kind children => ⟨depth, node field kind children⟩ :: rowsList (depth + 1) children
  | leaf field token => [⟨depth, leaf field token⟩]

/-- The rows of parts that follow one another. -/
def rowsList (depth : Nat) : List Tree → List Row
  | [] => []
  | tree :: rest => tree.rows depth ++ rowsList depth rest
end

end Tree

end MarkupSyntax
