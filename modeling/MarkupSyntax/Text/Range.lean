import MarkupSyntax.Text.Basic

/-!
# `MarkupSyntax.Text.Range`: ranges of offsets

A `TextRange` is half-open and never runs backwards; the type holds the
proof. Only ranges computed from data that promises nothing can be
refused, by `TextRange.ofBounds?` and `TextRange.ofInts`.
-/

set_option autoImplicit false

namespace MarkupSyntax

/-- The offsets from `start` up to, not including, `stop`. -/
structure TextRange where
  start : Nat
  stop : Nat
  start_le_stop : start ≤ stop := by omega
deriving DecidableEq, Repr

/-- Why two bounds, or a number, were refused. -/
inductive RangeFault where
  /-- A bound is below zero. -/
  | negativeBound
  /-- The start is past the end. -/
  | reversed
  /-- A length is below zero. -/
  | negativeLength
deriving DecidableEq, Repr

namespace RangeFault

/-- The text of the refusal. -/
def message : RangeFault → String
  | negativeBound => "TextRange positions cannot be negative"
  | reversed => "TextRange invariant violated: start > end"
  | negativeLength => "TextSize cannot be negative"

end RangeFault

namespace TextRange

/-- The empty range at an offset. -/
def empty (offset : Nat) : TextRange := ⟨offset, offset, Nat.le_refl _⟩

instance : Inhabited TextRange := ⟨empty 0⟩

/-- The range of `length` code points from `offset`. -/
def ofLength (offset length : Nat) : TextRange := ⟨offset, offset + length, Nat.le_add_right _ _⟩

/-- The range between two bounds, unless it runs backwards. -/
def ofBounds? (start stop : Nat) : Option TextRange :=
  if h : start ≤ stop then some ⟨start, stop, h⟩ else none

/-- The range between two integer bounds. -/
def ofInts (start stop : Int) : Except RangeFault TextRange :=
  if start < 0 || stop < 0 then .error .negativeBound
  else match ofBounds? start.toNat stop.toNat with
    | some range => .ok range
    | none => .error .reversed

/-- The number of code points in the range. -/
def length (r : TextRange) : Nat := r.stop - r.start

/-- True when the range holds no offset. -/
def isEmpty (r : TextRange) : Bool := r.start = r.stop

/-- True for the offsets of the range, its end excluded. -/
def contains (r : TextRange) (offset : Nat) : Bool := r.start ≤ offset && offset < r.stop

/-- True for the offsets of the range and for its end. -/
def touches (r : TextRange) (offset : Nat) : Bool := r.start ≤ offset && offset ≤ r.stop

/-- True when the other range lies within this one. -/
def containsRange (r other : TextRange) : Bool := r.start ≤ other.start && other.stop ≤ r.stop

/-- The least range that holds both. -/
def cover (r other : TextRange) : TextRange where
  start := min r.start other.start
  stop := max r.stop other.stop
  start_le_stop := by
    have := r.start_le_stop
    omega

/-- Order by start, then by end. -/
def isBefore (r other : TextRange) : Bool :=
  r.start < other.start || (r.start = other.start && r.stop < other.stop)

/-- The range as it is shown in messages. -/
def display (r : TextRange) : String := s!"TextRange({r.start}, {r.stop})"

end TextRange

/-- A length given as an integer. -/
def lengthOfInt (n : Int) : Except RangeFault Nat :=
  if n < 0 then .error .negativeLength else .ok n.toNat

/-- A length as it is shown. -/
def displayLength (n : Nat) : String := s!"TextSize({n})"

namespace Text

/-- The code points in a range. -/
def sliceRange (t : Text) (r : TextRange) : Text := t.slice r.start r.stop

end Text

end MarkupSyntax
