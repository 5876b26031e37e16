import MarkupSyntax.Grammar.Descent
import MarkupSyntax.Proofs.Grammar.Definitions

/-!
# `MarkupSyntax.Proofs.Grammar.Descent`: the recursion of the grammar

The recursive constructs call each other to any depth, and this module
proves that the depth built into `descent` is enough. `Works` counts the
room that is left four times, and the rank of the construct on top: a
construct that starts behind a token has less room, and one that starts
at the same token has a lower rank. So each step of the descent needs
one level more than the constructs inside it (`Works.step`), and a
descent to depth `n` works up to the bound `n` (`works_descentTo`).
-/

set_option autoImplicit false

namespace MarkupSyntax.Grammar

open Parse

variable {p : Parser} {descend : Descent} {bound : Nat}

/-- One more level of the descent allows one more unit of room and
rank. -/
theorem Works.step (h : Works descend bound) : Works (step descend) (bound + 1) where
  value field p hp hroom := yields_value h hp (by omega) field
  operators precedence p hp hroom := yields_operators h hp (by omega) precedence
  element field p hp hkind hroom := by
    refine (yields_element h hp (by omega) hkind field).bind ?_
    intro node q hq
    exact .pure ⟨node, rfl, hq⟩
  -- A body is of the next lower rank in each of its domains.
  body domain field p hp hroom := by
    cases domain with
    | value =>
      refine (h.value (some field) p hp (by omega)).mono ?_
      intro node q hq
      cases node with
      | none =>
        exact hq.1
      | some node =>
        exact hq.1
    | elements => exact yields_elementsExpression h hp (by omega) (some field) true
    | properties =>
      refine (yields_propertyList h hp (by omega) (some field) true).mono ?_
      intro node q hq
      cases node with
      | none =>
        exact hq
      | some node =>
        exact hq.mono (Set.subset_univ _)

/-- A descent to depth `n` works up to the bound `n`. The induction is on
the depth; at depth zero there is no room that the bound allows. -/
theorem works_descentTo (n : Nat) : Works (descentTo n) n := by
  induction n with
  | zero =>
    constructor
    · intro _ _ _ h
      omega
    · intro _ _ _ h
      omega
    · intro _ _ _ _ h
      omega
    · intro _ _ _ _ h
      omega
  | succ n ih => exact ih.step

/-- The descent that the source allows works everywhere in the source. -/
theorem works_descent (bound : Nat) : Works descent bound := by
  -- The depth that the descent starts with is above every measure.
  have hdepth : ∀ p : Parser, 4 * p.room + 3 < 4 * (p.text.length + 2) := by
    intro p
    unfold Parser.room
    omega
  constructor
  · intro field p hp _
    have := hdepth p
    exact .get ((works_descentTo _).value field p hp (by omega))
  · intro precedence p hp _
    have := hdepth p
    exact .get ((works_descentTo _).operators precedence p hp (by omega))
  · intro field p hp hkind _
    have := hdepth p
    exact .get ((works_descentTo _).element field p hp hkind (by omega))
  · intro domain field p hp _
    exact .get ((works_descentTo _).body domain field p hp (hdepth p))

/-- A module parses to the end of the source, and makes one node. -/
theorem yields_descent_module (hp : p.Live) :
    Yields (module descent) p fun node q =>
      Builds p q node none {.moduleDefinition} ∧ q.kind = .eof :=
  yields_module (works_descent (4 * p.room + 1)) hp (Nat.lt_succ_self _)

end MarkupSyntax.Grammar
