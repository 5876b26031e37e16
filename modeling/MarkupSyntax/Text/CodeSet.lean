import MarkupSyntax.Text.Basic

/-!
# `MarkupSyntax.Text.CodeSet`: sets of code points given by ranges

A character property is a sorted list of inclusive ranges. Membership
walks the list and stops at the first range that starts above the code
point, so ASCII is decided by the first few ranges.
-/

set_option autoImplicit false

namespace MarkupSyntax

/-- Inclusive ranges of code point numbers, in increasing order. -/
abbrev CodeSet := List (Nat × Nat)

/-- True when one of the ranges, which are in increasing order, holds
`n`. -/
def CodeSet.holds : CodeSet → Nat → Bool
  | [], _ => false
  | (lo, hi) :: rest, n =>
    if n < lo then false
    else if n ≤ hi then true
    else CodeSet.holds rest n

end MarkupSyntax
