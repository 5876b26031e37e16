import MarkupSyntax.Proofs.Token.Escape
import MarkupSyntax.Proofs.Tree.Places

/-!
# `MarkupSyntax.Proofs.Tree.Runs`: what a run of text stands for

The text of a run is joined from its tokens and the white space between
them, and a tree has split that white space at line breaks: a part of it
trails the token in front, the rest leads the token behind. Here the two
parts come together again (`Seam.joinedText_of_shows`): where the tokens
of a run are those of some pieces of a text, the run stands for what the
pieces stand for.
-/

set_option autoImplicit false

namespace MarkupSyntax

/-- A piece of trivia with its text. -/
def Trivia.shown (source : Text) (piece : Trivia) : TriviaKind × Text :=
  (piece.kind, source.sliceRange piece.range)

namespace Lexer

variable {L : Lexer} {context : LexContext} {kind : TokenKind} {gap : List (TriviaKind × Text)}
  {text token rest : Text}

/-- The trivia passed on the way to a token is what the text behind has
in front of it. The induction follows the scan. -/
theorem passed_of_scans {fuel : Nat} (h : Scans context text gap kind token rest)
    (enough : L.Suffices fuel) (hrest : L.behind = text) (isTrailing : Bool) :
    (Trivia.ofTokens isTrailing (L.passed context fuel)).map (Trivia.shown L.source) = gap := by
  -- One step of the scan is one step of the lexer: the end, a token that stops it, or a piece of
  -- trivia.
  induction h generalizing L fuel isTrailing with
  | eof =>
    have hend : L.source.length ≤ L.position := List.drop_eq_nil_iff.mp hrest
    have hnext := @next_of_length_le L context hend
    cases fuel with
    | zero => exact absurd enough.2 (Nat.not_lt_zero _)
    | succ fuel =>
      have hsolid : (L.next context).current.kind.isTrivia = false := by rw [hnext]; rfl
      rw [passed, hsolid, if_neg Bool.false_ne_true]
      rfl
  | token splits solid =>
    obtain ⟨hkind, -, -, -⟩ := next_of_splits splits hrest
    cases fuel with
    | zero => exact absurd enough.2 (Nat.not_lt_zero _)
    | succ fuel =>
      rw [passed, hkind, solid, if_neg Bool.false_ne_true]
      rfl
  | @trivia _ kind' trivia _ _ _ _ _ splits isTrivia _ ih =>
    obtain ⟨hkind, hbehind, htext, -⟩ := next_of_splits splits hrest
    have htrivia : kind'.isTrivia = true := by rw [TokenKind.isTrivia, isTrivia]; rfl
    cases fuel with
    | zero => exact absurd enough.2 (Nat.not_lt_zero _)
    | succ fuel =>
      have hlater := ih (enough.next (hkind ▸ htrivia)) hbehind
        (isTrailing && (L.next context).current.kind ≠ .newline)
      rw [next_source] at hlater
      rw [passed, hkind, if_pos htrivia, Trivia.ofTokens, List.map_cons, hlater, Trivia.shown, htext,
        hkind, isTrivia]
      rfl

end Lexer

namespace Located

/-- What a token of a run stands for is a matter of its kind and text. -/
theorem decodedText_eq {part : Located} {kind : TokenKind} (h : part.kind.lexeme? = some kind) :
    part.decodedText = Lexeme.decoded kind part.text := by
  unfold decodedText
  revert h
  generalize part.kind = recorded
  intro h
  cases recorded with
  | token kind' =>
    cases h
    cases kind <;> rfl
  | rawKeyword =>
    cases h
    rfl
  | _ => cases h

end Located

namespace Seam

variable {seam : Seam} {context : LexContext} {kind : TokenKind} {gap : List (TriviaKind × Text)}
  {token rest : Text} {contexts : List LexContext} {pieces : List Piece} {parts others : List Located}

/-- The trivia in front of the next token of a known text. -/
theorem gap_of_scans (inside : seam.lexer.IsInside)
    (h : Scans context seam.behind gap kind token rest) :
    (seam.gap context).map (Trivia.shown seam.lexer.source) = gap :=
  Lexer.passed_of_scans h inside.suffices rfl _

/-- The token of a piece stands for what the piece says. -/
theorem decodedText_of_scans {part : Located} (inside : seam.lexer.IsInside)
    (h : Scans context seam.behind gap kind token rest) (first : part.IsNext seam context contexts) :
    part.decodedText = Lexeme.decoded kind token := by
  have hkind := first.lexeme?
  rw [kind_current_of_scans inside h] at hkind
  rw [Located.decodedText_eq hkind, first.text, text_current_of_scans inside h]

/-- Where no piece is a reference with too many digits, no token is one.
The induction is on the pieces. -/
theorem longNumber?_of_shows (inside : seam.lexer.IsInside)
    (h : Consists seam.behind pieces rest)
    (shows_ : seam.Shows (pieces.map (·.lexed.context) ++ contexts) (parts ++ others))
    (hlength : parts.length = pieces.length)
    (hpieces : ∀ piece ∈ pieces, piece.lexed.kind = .entity →
      References.longNumber? piece.lexed.text = none) :
    ∀ part ∈ parts, part.kind = .token .entity → References.longNumber? part.text = none := by
  induction pieces generalizing seam parts with
  | nil =>
    rw [List.length_eq_zero_iff.mp hlength]
    exact List.forall_mem_nil _
  | cons piece pieces ih =>
    cases parts with
    | nil => cases hlength
    | cons part parts =>
      rw [List.map_cons, List.cons_append, List.cons_append] at shows_
      generalize htext : seam.behind = text at h
      cases h with
      | cons hscan hlater =>
        cases shows_ with
        | next first later =>
          rw [← htext] at hscan
          rw [← behind_pass_of_scans inside hscan] at hlater
          obtain ⟨hpiece, hothers⟩ := List.forall_mem_cons.mp hpieces
          refine List.forall_mem_cons.mpr ⟨fun hentity => ?_,
            ih (isInside_pass inside _) hlater later (Nat.succ.inj hlength) hothers⟩
          have hkind := first.lexeme?
          rw [kind_current_of_scans inside hscan, hentity] at hkind
          rw [first.text, text_current_of_scans inside hscan]
          exact hpiece (Option.some.inj hkind).symm

/-- Behind a token of a run the other pieces follow, with the white space
in front of the next one split between the two. The induction is on the
pieces. -/
theorem joinedText_false_of_shows (inside : seam.lexer.IsInside)
    (h : Consists seam.behind pieces rest)
    (shows_ : seam.Shows (pieces.map (·.lexed.context) ++ contexts) (parts ++ others))
    (hlength : parts.length = pieces.length) :
    (if parts.isEmpty then [] else Located.whiteSpace
        ((seam.trailing (pieces.map (·.lexed.context) ++ contexts)).map
          (Trivia.shown seam.lexer.source))) ++ Located.joinedText false parts
      = pieces.flatMap Piece.value := by
  -- Piece by piece along the seams. The trivia between two tokens is divided between them,
  -- trailing and leading, and joining puts it together again.
  induction pieces generalizing seam parts with
  | nil =>
    rw [List.length_eq_zero_iff.mp hlength]
    rfl
  | cons piece pieces ih =>
    cases parts with
    | nil => cases hlength
    | cons part parts =>
      rw [List.map_cons, List.cons_append, List.cons_append] at shows_
      generalize htext : seam.behind = text at h
      cases h with
      | cons hscan hlater =>
        cases shows_ with
        | next first later =>
          rw [← htext] at hscan
          have inside' := isInside_pass inside piece.lexed.context
          have hbehind := behind_pass_of_scans inside hscan
          rw [← hbehind] at hlater
          have hsame := ih inside' hlater later (Nat.succ.inj hlength)
          rw [source_pass inside] at hsame
          have hgap := gap_of_scans inside hscan
          rw [← trailing_append_leading (pieces.map (·.lexed.context) ++ contexts), List.map_append]
            at hgap
          have hlead := first.leadingTrivia_eq inside
          have htrail := first.trailingTrivia_eq inside
          have hdecoded := decodedText_of_scans inside hscan first
          rw [first.source] at hlead htrail
          rw [Located.joinedText, List.flatMap_cons, ← hsame, Piece.value, ← hgap,
            Located.whiteSpace_append, hdecoded, hlead, htrail]
          simp only [List.isEmpty_cons, Bool.false_eq_true, if_false, List.append_assoc]
          rfl

/-- A run whose tokens are those of some pieces stands for what the pieces
stand for. -/
theorem joinedText_of_shows (inside : seam.lexer.IsInside) (h : Consists seam.behind pieces rest)
    (shows_ : seam.Shows (pieces.map (·.lexed.context) ++ contexts) (parts ++ others))
    (hlength : parts.length = pieces.length) (hgap : ∀ piece ∈ pieces.head?, piece.gap = []) :
    Located.joinedText true parts = pieces.flatMap Piece.value := by
  rw [← joinedText_false_of_shows inside h shows_ hlength]
  cases parts with
  | nil => rfl
  | cons part parts =>
    cases pieces with
    | nil => cases hlength
    | cons piece pieces =>
      rw [List.map_cons, List.cons_append, List.cons_append] at shows_
      generalize htext : seam.behind = text at h
      cases h with
      | cons hscan _ =>
        cases shows_ with
        | next first _ =>
          rw [← htext] at hscan
          -- In front of the first token there is nothing to split.
          have hnone := gap_of_scans inside hscan
          rw [hgap piece rfl, ← trailing_append_leading (pieces.map (·.lexed.context) ++ contexts),
            List.map_eq_nil_iff] at hnone
          obtain ⟨htrailing, hleading⟩ := List.append_eq_nil_iff.mp hnone
          have hlead := first.leadingTrivia_eq inside
          rw [hleading] at hlead
          rw [Located.joinedText, Located.joinedText, hlead, List.map_cons, List.cons_append,
            htrailing]
          rfl

end Seam

end MarkupSyntax
