import MarkupSyntax.Diagnostic.Basic

/-!
# `MarkupSyntax.Proofs.Diagnostic.Placed`: where diagnostics point

A diagnostic is placed in a source if its range and those of its labels
lie in it, and if its first label is the primary one, at its own range
and with the name of the file. What makes a diagnostic of a code keeps
that, as long as the ranges that go in lie in the source.
-/

set_option autoImplicit false

namespace MarkupSyntax

/-- The range lies in a source of this length. That it does not run
backwards is part of its type. -/
def TextRange.IsIn (length : Nat) (range : TextRange) : Prop := range.stop ≤ length

namespace Diagnostic

/-- The diagnostic points into a source of this length, and first of all
at itself. -/
structure IsPlaced (length : Nat) (file : Text) (diagnostic : Diagnostic) : Prop where
  range : diagnostic.range.IsIn length
  labels : ∀ label ∈ diagnostic.labels, label.range.IsIn length
  first : ∃ label ∈ diagnostic.labels.head?, label.isPrimary = true ∧ label.file = file ∧
    label.range = diagnostic.range

namespace IsPlaced

variable {length : Nat} {file : Text} {diagnostic : Diagnostic}

/-- A diagnostic for a range of the source is placed in it, with its first
label. -/
theorem ofCode {range : TextRange} (code : Code) (h : range.IsIn length) :
    (Diagnostic.ofCode code range file).IsPlaced length file where
  range := h
  labels := fun label hmem => by
    rw [List.mem_singleton.mp hmem]
    exact h
  first := ⟨_, rfl, rfl, rfl, rfl⟩

/-- A text does not move a diagnostic. -/
theorem withMessage (h : diagnostic.IsPlaced length file) (message : Text) :
    (diagnostic.withMessage message).IsPlaced length file := ⟨h.range, h.labels, h.first⟩

/-- A note does not move a diagnostic. -/
theorem withNote (h : diagnostic.IsPlaced length file) (note : Text) :
    (diagnostic.withNote note).IsPlaced length file := ⟨h.range, h.labels, h.first⟩

/-- The severity does not move a diagnostic. -/
theorem withSeverity (h : diagnostic.IsPlaced length file) (severity : Severity) :
    (diagnostic.withSeverity severity).IsPlaced length file := ⟨h.range, h.labels, h.first⟩

/-- A text on the first label leaves it where it is. -/
theorem withLabel (h : diagnostic.IsPlaced length file) (message : Text) :
    (diagnostic.withLabel message).IsPlaced length file := by
  obtain ⟨hrange, hlabels, first, hfirst, hprimary, hfile, hplace⟩ := h
  obtain ⟨rest, hall⟩ := List.head?_eq_some_iff.mp hfirst
  have hmodified : (diagnostic.withLabel message).labels
      = { first with message := some message } :: rest := by
    show diagnostic.labels.modifyHead _ = _
    rw [hall]
    rfl
  refine ⟨hrange, fun label hmem => ?_, { first with message := some message }, ?_, hprimary, hfile,
    hplace⟩
  · rw [hmodified] at hmem
    rw [hall] at hlabels
    rcases List.mem_cons.mp hmem with rfl | hmem
    · exact hlabels first List.mem_cons_self
    · exact hlabels label (List.mem_cons_of_mem first hmem)
  · rw [hmodified]
    rfl

/-- Further labels come behind the first one. -/
theorem withSecondary (h : diagnostic.IsPlaced length file) {labels : List Label}
    (hlabels : ∀ label ∈ labels, label.range.IsIn length) :
    (diagnostic.withSecondary labels).IsPlaced length file := by
  obtain ⟨hrange, hown, first, hfirst, hplace⟩ := h
  refine ⟨hrange, fun label hmem => ?_, first, ?_, hplace⟩
  · exact (List.mem_append.mp hmem).elim (hown label) (hlabels label)
  · obtain ⟨rest, hall⟩ := List.head?_eq_some_iff.mp hfirst
    show (diagnostic.labels ++ labels).head? = some first
    rw [hall]
    rfl

end IsPlaced

end Diagnostic

end MarkupSyntax
