import MarkupSyntax.Grammar.Element

/-!
# `MarkupSyntax.Grammar.Descent`: the recursive constructs

`step` parses one recursive construct, with the parsers of those inside
it as an argument. `descent` ties the knot by a bound on the depth.

The bound is no limit on sources. A construct inside another one starts
behind a token of it, or is of lower rank: the body of a control
construct starts with a value, a value with its operators, these with
an element. So a source allows a depth of four times the number of its
tokens.
-/

set_option autoImplicit false

namespace MarkupSyntax.Grammar

open Parse

/-- Parses a recursive construct with `descend` for those inside it. -/
def step (descend : Descent) : Descent
  | .value field => value descend field
  | .operators precedence => operators descend precedence
  | .element field => do return some (← element descend field)
  | .body .value field => descend (.value (some field))
  | .body .elements field => elementsExpression descend (some field) true
  | .body .properties field => propertyList descend (some field) true

/-- The parsers of the recursive constructs, to a depth. -/
def descentTo : (depth : Nat) → Descent
  | 0 => fun _ => throw .exhausted
  | depth + 1 => step (descentTo depth)

/-- The parsers of the recursive constructs, to the depth that the
source allows. -/
def descent : Descent := fun construct => do
  descentTo (4 * ((← get).text.length + 2)) construct

end MarkupSyntax.Grammar
