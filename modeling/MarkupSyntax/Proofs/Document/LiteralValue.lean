import MarkupSyntax.Proofs.Document.Precedence
import MarkupSyntax.Proofs.Document.Source
import MarkupSyntax.Proofs.Token.NumberValue
import MarkupSyntax.Proofs.Token.StringEscapes
import MarkupSyntax.Proofs.Tree.Lookup

/-!
# `MarkupSyntax.Proofs.Document.LiteralValue`: which literals of a document have a value

Every literal node holds one token, of its own kind, and the token is what
the lexer takes for such a literal. For most of them there is a value. There
is none where an escape of a string names a number that no code point has,
where a digit of a decimal number is no decimal digit, as in `²`, or where
an integer in base ten has more than `maxDecimalDigits` digits
(`Document.parse_literalValue`). None of this is reported anywhere, so a
document without diagnostics may hold such a literal
(`Document.exists_literal_without_value`).
-/

set_option autoImplicit false

namespace MarkupSyntax

open Grammar

/-- The text of a literal has what it takes to be read: no escape of a
string names a number beyond the code points, all digits of a number in
base ten are decimal, and there are not too many of them in an integer. -/
def Text.IsReadable (kind : SyntaxKind) (t : Text) : Prop :=
  match kind with
  | .stringLiteral => ¬StringLiteral.TooLarge (StringLiteral.inside t)
  | .intLiteral => t.IsDecimal ∧ t.length ≤ maxDecimalDigits
  | .realLiteral => t.IsDecimal
  | _ => True

/-- A string has a value if no escape in it names a number beyond the code
points. -/
theorem StringLiteral.exists_value_iff {t : Text} :
    (∃ out, value t = .ok out) ↔ ¬TooLarge (inside t) := by
  constructor
  · rintro ⟨out, h⟩
    exact (valueFrom_eq_ok_iff.mp h).2
  · intro hsmall
    obtain ⟨out, hout⟩ := exists_decodes (inside t)
    exact ⟨out, hout.valueFrom_eq hsmall⟩

namespace Located

variable {node token : Located} {kind : TokenKind}

/-- The token of a number is a numeral. -/
theorem IsLexeme.numeral {source : Text} {context : LexContext}
    (h : token.IsLexeme source context) (hkind : token.kind = .token kind)
    (hnumber : kind ∈ [TokenKind.int, .hex, .real]) : Lexeme.Numeral kind token.text := by
  obtain ⟨lexer, -, hnext, htext⟩ := h.exists_lexer
  rw [hkind] at hnext
  have hsame := Option.some.inj hnext
  have hne : kind ≠ .eof := by
    rintro rfl
    exact absurd hnumber (by decide)
  rw [Token.text, ← hsame, if_neg hne] at htext
  rw [htext, hsame]
  exact Lexer.numeral_next (hsame ▸ hnumber)

/-- What a literal with this token stands for, if it can be read. The kinds of
literals are taken one by one. For numbers it matters that the lexer made the
token, since then its digits are where they should be and only their kind and
number is open. -/
theorem exists_literalValue_iff (hfirst : node.firstToken? = some token)
    (hkind : token.kind = .token kind) (hliteral : literalKind? kind = some node.kind)
    (hnumeral : kind ∈ [TokenKind.int, .hex, .real] → Lexeme.Numeral kind token.text) :
    (∃ value, node.literalValue = .ok value) ↔ token.text.IsReadable node.kind := by
  unfold literalValue
  rw [hfirst]
  generalize node.kind = nodeKind at hliteral ⊢
  cases kind <;> cases hliteral
  all_goals dsimp only [Text.IsReadable]
  case string =>
    rw [← StringLiteral.exists_value_iff]
    cases StringLiteral.value token.text with
    | error fault => exact iff_of_false nofun nofun
    | ok out => exact iff_of_true ⟨_, rfl⟩ ⟨_, rfl⟩
  case int =>
    rw [← (hnumeral (by decide)).exists_decimalInteger_iff]
    cases token.text.decimalInteger with
    | error fault => cases fault <;> exact iff_of_false nofun nofun
    | ok n => exact iff_of_true ⟨_, rfl⟩ ⟨n, rfl⟩
  case real =>
    rw [← (hnumeral (by decide)).isSome_realBits?_iff]
    cases token.text.realBits? with
    | none => exact iff_of_false nofun nofun
    | some bits => exact iff_of_true ⟨_, rfl⟩ rfl
  case hex =>
    obtain ⟨n, hn⟩ := Option.isSome_iff_exists.mp (hnumeral (by decide)).isSome_hexadecimalInteger?
    refine iff_of_true ⟨.integer n, ?_⟩ trivial
    simp only [hn]
  case trueKeyword => exact iff_of_true ⟨_, rfl⟩ trivial
  case falseKeyword => exact iff_of_true ⟨_, rfl⟩ trivial
  case nullKeyword => exact iff_of_true ⟨_, rfl⟩ trivial

end Located

namespace Document

/-- A literal node has one token, of its own kind, and the token is a lexeme of
the source. The grammar makes such nodes of single tokens only. -/
theorem Finished.exists_literalToken {source file : Text} {options : Options} {final : Parser}
    {sprout : Sprout} (h : Finished source options file final sprout) {node : Located}
    (hmem : node ∈ (Located.ofTree (treeOf final sprout) final.text).nodes)
    (hliteral : node.kind.isLiteral = true) :
    ∃ token kind, node.children = [token] ∧ node.firstToken? = some token ∧
      token.kind = .token kind ∧ literalKind? kind = some node.kind ∧
      ∃ context, token.IsLexeme source context := by
  have hnode : node.isNode = true := (List.mem_filter.mp hmem).2
  have hfits := h.fits hmem
  rw [← Located.kind_outline] at hliteral
  obtain ⟨kind, hparts, hkind⟩ := hfits.exists_literalToken hliteral
  rw [Located.kind_outline] at hkind
  -- The one part of the outline is that of the one child.
  rw [← Located.map_outline_children, List.map_eq_singleton_iff] at hparts
  obtain ⟨token, hchildren, htoken⟩ := hparts
  have htokenKind : token.kind = .token kind := by
    rw [← Located.kind_outline, htoken]
    rfl
  have htokens : node.tokens = [token] := by
    rw [Located.tokens_of_isNode hnode, hchildren, List.flatMap_singleton,
      Located.tokens_of_isNode_eq_false (Located.isNode_eq_false_of_outline htoken)]
  have hfirst : node.firstToken? = some token := by
    rw [Located.firstToken?_eq_head?, htokens, List.head?_cons]
  refine ⟨token, kind, hchildren, hfirst, htokenKind, hkind, h.exists_isLexeme ?_ ?_⟩
  · rw [← h.text]
    exact Located.mem_tokens_of_mem_nodes hmem (htokens ▸ List.mem_singleton_self token)
  · rw [htokenKind]
    rintro heof
    cases heof
    cases hkind

/-- In every document, whatever the source and the options, errors or not:
a literal node has one token, of its own kind, and reading it gives a value
if and only if its text is readable (`Text.IsReadable`). So a literal of a
kind other than string, integer and real always has a value. -/
theorem parse_literalValue (decoded : Decoded) (options : Options) (file : Text) :
    ∃ document, parse decoded options file = .ok document ∧
      ∀ node ∈ document.root.nodes, node.kind.isLiteral = true →
        ∃ token kind, node.children = [token] ∧ token.kind = .token kind ∧
          literalKind? kind = some node.kind ∧
          ((∃ value, node.literalValue = .ok value) ↔ token.text.IsReadable node.kind) := by
  obtain ⟨final, sprout, h⟩ := exists_finished decoded.text options file
  refine ⟨_, h.parse_eq, fun node hmem hliteral => ?_⟩
  obtain ⟨token, kind, hchildren, hfirst, hkind, htoken, context, hlexeme⟩ :=
    h.exists_literalToken hmem hliteral
  exact ⟨token, kind, hchildren, hkind, htoken,
    Located.exists_literalValue_iff hfirst hkind htoken (hlexeme.numeral hkind)⟩

/-- A string whose escape names a number beyond the code points has no
value, though nothing is reported. -/
theorem exists_literal_without_value :
    ∃ document, parse (.ofText "let v = \"\\u\x7b110000\x7d\"") {} "f" = .ok document ∧
      document.diagnostics = [] ∧ ∃ node ∈ document.root.nodes, node.kind.isLiteral = true ∧
        node.literalValue = .error .noSuchCodePoint := by
  have hparse : (parse (.ofText "let v = \"\\u\x7b110000\x7d\"") {} "f").toOption.any
      (fun document => document.diagnostics.isEmpty && document.root.nodes.any fun node =>
        node.kind.isLiteral && node.literalValue = .error .noSuchCodePoint) = true := by
    decide +kernel
  obtain ⟨document, hparse, hcheck⟩ := exists_ok_of_any hparse
  obtain ⟨hclean, hnodes⟩ := Bool.and_eq_true_iff.mp hcheck
  obtain ⟨node, hmem, hnode⟩ := List.any_eq_true.mp hnodes
  obtain ⟨hliteral, hvalue⟩ := Bool.and_eq_true_iff.mp hnode
  exact ⟨document, hparse, List.isEmpty_iff.mp hclean, node, hmem, hliteral,
    of_decide_eq_true hvalue⟩

end Document

end MarkupSyntax
