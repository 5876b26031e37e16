import MarkupSyntax.Document.Basic

/-!
# `MarkupSyntax.Proofs.Document.Memo`: what remembering decisions changes

Decisions are remembered by rule and offset. The offset of the body of
an element is that of its first token outside tags, and text that looks
like a comment is none. So two bodies can have the same offset, and the
second is read as the first turned out, although it would turn out
otherwise by itself (`exists_parse_ne_parseAfresh`).
-/

set_option autoImplicit false

namespace MarkupSyntax.Document

/-- Parses a decoded source and remembers no decision on the way. -/
def parseAfresh (decoded : Decoded) (options : Options) (file : Text) : Except Fault Document := do
  ofParser (← run { parser decoded.text options file with memoizes := false }) decoded.diagnostics

/-- The comment in front of `</p>` reaches to the end of its line, so the first
token of the body of `p` is `<x`, which is also that of the body of `q`. The
first body is mixed, and this is remembered at the offset of the token. So the
second body is read as mixed, and without the memo it is a sequence. Neither
parse reports anything. -/
theorem exists_parse_ne_parseAfresh :
    ∃ document fresh, parse (.ofText "<p>// </p><q>\n<x/></q>") {} "f" = .ok document ∧
      parseAfresh (.ofText "<p>// </p><q>\n<x/></q>") {} "f" = .ok fresh ∧
      document.diagnostics = [] ∧ fresh.diagnostics = [] ∧
      (∀ node ∈ document.root.nodes, node.kind ≠ .elementsExpression) ∧
      ∃ node ∈ fresh.root.nodes, node.kind = .elementsExpression := by
  have hparse : (parse (.ofText "<p>// </p><q>\n<x/></q>") {} "f").toOption.any (fun document =>
      document.diagnostics.isEmpty &&
        document.root.nodes.all fun node => node.kind ≠ .elementsExpression) = true := by
    decide +kernel
  have hfresh : (parseAfresh (.ofText "<p>// </p><q>\n<x/></q>") {} "f").toOption.any
      (fun document => document.diagnostics.isEmpty &&
        document.root.nodes.any fun node => node.kind = .elementsExpression) = true := by
    decide +kernel
  -- Nothing else is to be computed of the parses.
  generalize parse (.ofText "<p>// </p><q>\n<x/></q>") {} "f" = result at hparse ⊢
  generalize parseAfresh (.ofText "<p>// </p><q>\n<x/></q>") {} "f" = result' at hfresh ⊢
  cases result with
  | error => cases hparse
  | ok document =>
    cases result' with
    | error => cases hfresh
    | ok fresh =>
      simp only [Except.toOption, Option.any_some, Bool.and_eq_true, List.any_eq_true,
        List.all_eq_true, decide_eq_true_eq, List.isEmpty_iff] at hparse hfresh
      exact ⟨document, fresh, rfl, rfl, hparse.1, hfresh.1, hparse.2, hfresh.2⟩

end MarkupSyntax.Document
