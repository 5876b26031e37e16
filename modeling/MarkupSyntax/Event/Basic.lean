import MarkupSyntax.Tree.Kind

/-!
# `MarkupSyntax.Event.Basic`: the record of a parse

A parser does not build a tree. It records events: a node starts, a
token is consumed, the innermost node finishes. A node that turns out
to be the first child of another one, started later, names that parent
by its distance in the record.
-/

set_option autoImplicit false

namespace MarkupSyntax

/-- One step of a parse. -/
inductive Event where
  /-- A node starts. `forwardParent` is the distance to the later start
  of the node around it. -/
  | start (kind : SyntaxKind) (forwardParent : Option Nat) (field : Option String)
  /-- A token is consumed; it stops at offset `stop`. -/
  | token (kind : SyntaxKind) (stop : Nat) (field : Option String)
  /-- The innermost node finishes. -/
  | finish
deriving DecidableEq, Repr, Inhabited

namespace Event

/-- The start of a node whose kind is not known yet, or that is taken
back. -/
def pending : Event := start .tombstone none none

end Event

end MarkupSyntax
