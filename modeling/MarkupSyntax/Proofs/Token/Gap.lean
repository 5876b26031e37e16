import MarkupSyntax.Proofs.Token.Guard
import MarkupSyntax.Proofs.Token.Tags

/-!
# `MarkupSyntax.Proofs.Token.Gap`: where a tag ends, no trivia does

White space, comments in code and invalid characters do not end with a
`>`, unless it is the last character of a line comment. So a token that
has trivia in front of it does not stand right behind a tag
(`Seam.lt_start_of_gap`): what starts there starts with its first token.

Comments in markup are the exception, so the source must have none
(`Text.Uncommented`).
-/

set_option autoImplicit false

namespace MarkupSyntax

/-- No comment in markup starts in the text. -/
def Text.Uncommented : Text → Prop
  | [] => True
  | c :: rest => (c = '<' → rest.head? ≠ some (CodePoint.ofChar '!')) ∧ Uncommented rest

/-- A text without comments in markup has none behind any of its characters. -/
theorem Text.Uncommented.drop {t : Text} (h : t.Uncommented) (n : Nat) :
    Text.Uncommented (t.drop n) := by
  induction n generalizing t with
  | zero => exact h
  | succ n ih =>
    cases t with
    | nil => exact h
    | cons c t => exact ih h.2

/-- Characters that start no markup can come in front. -/
theorem Text.Uncommented.append {t rest : Text} (h : ∀ c ∈ t, c ≠ '<') (hrest : rest.Uncommented) :
    Text.Uncommented (t ++ rest) := by
  induction t with
  | nil => exact hrest
  | cons c t ih =>
    obtain ⟨hc, ht⟩ := List.forall_mem_cons.mp h
    exact ⟨fun hangle => absurd hangle hc, ih ht⟩

namespace Lexeme

variable {lexeme : Lexeme} {c : CodePoint} {rest t : Text}

/-- Where the lexeme ends with a `>`, a line ends, or the source does. -/
def EndsLine (lexeme : Lexeme) (t : Text) : Prop :=
  (t.take lexeme.length).getLast? = some (CodePoint.ofChar '>') →
    ∀ d ∈ (t.drop lexeme.length).head?, d.isLineEnd = true

/-- A lexeme that does not end with `>` need not end a line. -/
theorem endsLine_of_getLast? (h : (t.take lexeme.length).getLast? ≠ some (CodePoint.ofChar '>')) :
    lexeme.EndsLine t := fun hlast => absurd hlast h

/-- Nothing stands behind a lexeme that takes all of the text. -/
theorem endsLine_of_length_le (h : t.length ≤ lexeme.length) : lexeme.EndsLine t := by
  intro _ d hd
  rw [List.drop_eq_nil_of_le h] at hd
  cases hd

/-- A comment whose terminator does not end with `>` need not end a line. It
ends with its terminator or with the source. -/
theorem endsLine_blockComment {front body : Text} {terminator : String} (hfront : 0 < front.length)
    (hlength : terminator.length = (Text.ofString terminator).length)
    (hlast : ∃ d : CodePoint, (Text.ofString terminator).getLast? = some d ∧ d ≠ '>') :
    (blockComment (front.length - 1) terminator body).EndsLine (front ++ body) := by
  obtain ⟨d, hlast, hd⟩ := hlast
  have hne : Text.ofString terminator ≠ [] := by
    intro hnil
    rw [hnil] at hlast
    cases hlast
  rcases @getLast?_take_blockComment front body _ hfront hlength hne with hend | hend
  · refine endsLine_of_getLast? ?_
    rw [hend, hlast]
    exact fun h => hd (Option.some.inj h)
  · exact endsLine_of_length_le hend

/-- A character that starts no token is no `>`. -/
theorem endsLine_mark (htrivia : (mark false c rest).kind.isTrivia = true) :
    (mark false c rest).EndsLine (c :: rest) := by
  revert htrivia
  unfold mark
  split
  · rename_i kind hkind
    intro htrivia
    obtain ⟨entry, hentry, rfl⟩ := Option.map_eq_some_iff.mp hkind
    have hall : ∀ entry ∈ pairs, entry.2.2.isTrivia = false := by decide
    exact absurd htrivia (Bool.eq_false_iff.mp (hall entry (List.mem_of_find?_eq_some hentry)))
  · split
    · rename_i kind hkind
      intro htrivia
      obtain ⟨entry, hentry, rfl⟩ := Option.map_eq_some_iff.mp hkind
      have hall : ∀ entry ∈ singles, entry.2.isTrivia = false := by decide
      exact absurd htrivia (Bool.eq_false_iff.mp (hall entry (List.mem_of_find?_eq_some hentry)))
    · rename_i hsingle
      refine fun _ => endsLine_of_getLast? fun hlast => ?_
      rw [show c = CodePoint.ofChar '>' from Option.some.inj hlast] at hsingle
      exact absurd hsingle (by decide)

/-- Trivia of code ends no tag. -/
theorem endsLine_code (htrivia : (code false c rest).kind.isTrivia = true)
    (hplain : c = '<' → rest.head? ≠ some (CodePoint.ofChar '!')) :
    (code false c rest).EndsLine (c :: rest) := by
  have hnumber : (number c rest).kind.isTrivia = false := by
    simp only [number]
    split
    · rfl
    · split <;> rfl
  -- Case by case, as code is read. Only comments and separators are trivia, and only a comment in
  -- markup ends with a `>`.
  revert htrivia
  unfold code
  split
  · rename_i hwhite
    refine fun _ => endsLine_of_getLast? fun hlast => ?_
    exact absurd (isWhitespace_of_mem_separator hwhite _ (List.mem_of_getLast? hlast)) (by decide)
  split
  · exact fun _ _ => isLineEnd_of_lineComment
  split
  · rename_i h
    simp only [Bool.and_eq_true, decide_eq_true_eq] at h
    obtain ⟨rfl, hrest⟩ := h
    obtain ⟨body, rfl⟩ := exists_of_startsWith_singleton rfl hrest
    exact fun _ =>
      @endsLine_blockComment ['/', '*'] body "*/" (by decide) rfl ⟨'/', by decide, by decide⟩
  split
  · rename_i h
    simp only [Bool.and_eq_true, decide_eq_true_eq] at h
    obtain ⟨body, rfl⟩ := List.isPrefixOf_iff_prefix.mp h.2
    exact absurd rfl (hplain h.1)
  split
  · exact fun htrivia => absurd htrivia Bool.false_ne_true
  split
  · exact fun htrivia => absurd htrivia (Bool.eq_false_iff.mp hnumber)
  split
  · exact fun htrivia =>
      absurd htrivia (Bool.eq_false_iff.mp (isTrivia_of_mem_markupNameTokens kind_name))
  · exact endsLine_mark

end Lexeme

namespace Lexer

variable {L : Lexer}

/-- The lexer stands behind a `>`, in the middle of a line. -/
def BehindTag (L : Lexer) : Prop :=
  (L.source.take L.position).getLast? = some (CodePoint.ofChar '>') ∧
    ∃ c ∈ L.behind.head?, c.isLineEnd = false

/-- It does not come there by way of trivia. -/
theorem not_behindTag_next (huncommented : L.source.Uncommented)
    (htrivia : (L.next .normal).current.kind.isTrivia = true) : ¬(L.next .normal).BehindTag := by
  rintro ⟨hlast, c, hc, hline⟩
  have hinside : L.position < L.source.length := by
    refine Nat.lt_of_not_le fun hend => ?_
    rw [next_of_length_le hend] at htrivia
    cases htrivia
  obtain ⟨d, rest, hdrop⟩ := exists_drop_eq_cons hinside
  obtain ⟨hkind, hrange, -⟩ := @next_of_drop_eq L .normal _ _ hdrop
  have hposition : (L.next .normal).position = L.position + (Lexeme.next .normal d rest).length := by
    show (L.next .normal).current.range.stop = _
    rw [hrange]
    rfl
  rw [hkind] at htrivia
  have hplain : d = '<' → rest.head? ≠ some (CodePoint.ofChar '!') :=
    (show Text.Uncommented (d :: rest) from hdrop ▸ huncommented.drop _).1
  have hends := Lexeme.endsLine_code htrivia hplain
  -- The `>` in front of the place is the last character of the lexeme.
  have htaken : ((d :: rest).take (Lexeme.next .normal d rest).length).getLast?
      = some (CodePoint.ofChar '>') := by
    rw [hposition, next_source, List.take_add, hdrop, List.getLast?_append] at hlast
    cases hlast' : ((d :: rest).take (Lexeme.next .normal d rest).length).getLast? with
    | none =>
      have hpos := (Lexeme.next .normal d rest).length_pos
      rw [List.getLast?_eq_none_iff, List.take_eq_nil_iff] at hlast'
      rcases hlast' with hlast' | hlast'
      · omega
      · cases hlast'
    | some e =>
      rw [hlast', Option.some_or] at hlast
      exact hlast
  have hbehind : (L.next .normal).behind = (d :: rest).drop (Lexeme.next .normal d rest).length := by
    rw [behind, hposition, next_source, ← List.drop_drop, hdrop]
  rw [hbehind] at hc
  rw [hends htaken c hc] at hline
  cases hline

/-- Behind a `>` and in the middle of a line a token starts only if no
trivia comes before. The induction is on the steps of the lexer. -/
theorem start_landed_of_not_behindTag {fuel : Nat} (enough : L.Suffices fuel)
    (huncommented : L.source.Uncommented) (h : ¬L.BehindTag)
    (hlast : (L.source.take (L.landed .normal fuel).current.range.start).getLast?
      = some (CodePoint.ofChar '>')) :
    L.source.length ≤ (L.landed .normal fuel).current.range.start := by
  induction fuel generalizing L with
  | zero => exact absurd enough.2 (Nat.not_lt_zero _)
  | succ fuel ih =>
    rw [landed] at hlast ⊢
    split at hlast
    · rename_i htrivia
      rw [if_pos htrivia]
      rw [← @next_source L .normal] at hlast huncommented ⊢
      exact ih (enough.next htrivia) huncommented
        (not_behindTag_next (by rwa [next_source] at huncommented) htrivia) hlast
    · rename_i htrivia
      rw [if_neg htrivia]
      rw [start_next] at hlast ⊢
      refine Nat.le_of_not_lt fun hinside => ?_
      obtain ⟨c, rest, hdrop⟩ := exists_drop_eq_cons hinside
      by_cases hline : c.isLineEnd = true
      · -- The end of a line is trivia itself.
        refine htrivia ?_
        rw [(next_of_drop_eq hdrop).1]
        show (Lexeme.code false c rest).kind.isTrivia = true
        unfold Lexeme.code Lexeme.separator
        rw [if_pos (by rw [CodePoint.isWhitespace, hline, Bool.or_true]), if_pos hline]
        rfl
      · rw [Bool.not_eq_true] at hline
        exact h ⟨hlast, c, by rw [behind, hdrop]; rfl, hline⟩

end Lexer

/-- A token of code with trivia in front of it does not start right
behind a tag. -/
theorem Seam.length_le_start_of_gap {seam : Seam} (inside : seam.lexer.IsInside)
    (huncommented : seam.lexer.source.Uncommented) (hgap : seam.gap .normal ≠ [])
    (hlast : (seam.lexer.source.take (seam.current .normal).range.start).getLast?
      = some (CodePoint.ofChar '>')) :
    seam.lexer.source.length ≤ (seam.current .normal).range.start := by
  have htrivia : (seam.lexer.next .normal).current.kind.isTrivia = true := by
    by_contra htrivia
    refine hgap ?_
    unfold gap Lexer.gap Lexer.passed
    rw [if_neg htrivia]
    rfl
  have hlater := inside.suffices.next htrivia
  have hclear := Lexer.not_behindTag_next huncommented htrivia
  have hstart : (seam.current .normal).range.start
      = ((seam.lexer.next .normal).landed .normal seam.lexer.source.length).current.range.start := by
    show (seam.lexer.target .normal).current.range.start = _
    unfold Lexer.target
    rw [Lexer.landed, if_pos htrivia]
  rw [hstart] at hlast ⊢
  have hsource : (seam.lexer.next .normal).source = seam.lexer.source := Lexer.next_source
  rw [← hsource] at huncommented hlast hlater ⊢
  exact Lexer.start_landed_of_not_behindTag hlater huncommented hclear hlast

end MarkupSyntax
