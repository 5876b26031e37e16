import MarkupSyntax.Proofs.Text.Lines
import MarkupSyntax.Proofs.Token.Escape
import MarkupSyntax.Proofs.Token.Foresight
import MarkupSyntax.Proofs.Token.Guard

/-!
# `MarkupSyntax.Proofs.Token.Tiling`: tokens in contexts of any choice

Whoever asks for a token chooses the context, and nothing keeps a choice
from being wrong: a string can be entered in its middle, or a tag in text.
What holds of the tokens in any case is stated by `Tiles`, of a sequence
with one token for each number. They lie side by side from the start of
the source to its end, and there the end is read again and again. Each one
knows whether a line break came since the last token that is no trivia.
And none of them parts a carriage return from its line feed, so the line
breaks end where the lines of `LineIndex` start.

The lexer is a state that one token turns into the next one
(`Lexer.after`). Each part of `Tiles` is a fact about one step in any
context, and an induction on the number of steps.
-/

set_option autoImplicit false

namespace MarkupSyntax

/-! ### Line breaks stay whole -/

/-- The offset lies between a carriage return and the line feed behind
it. -/
def Text.PartsBreak (t : Text) (offset : Nat) : Prop :=
  ∃ front behind : Text,
    t = front ++ CodePoint.ofChar '\r' :: CodePoint.ofChar '\n' :: behind ∧
      offset = front.length + 1

namespace Lexeme

variable {context : LexContext} {c : CodePoint} {rest : Text}

/-- A separator takes the line feed along, or starts with a space or a
tab and goes on so. -/
theorem not_stopsBetween_separator (hwhite : c.isWhitespace = true) :
    ¬ (separator c rest).StopsBetween '\r' '\n' (c :: rest) := by
  unfold separator
  split
  · rename_i hline
    by_cases hbreak : c = '\r' ∧ rest.head? = some (CodePoint.ofChar '\n')
    · exact not_stopsBetween_two (by simp [lineBreakTail, hbreak]) hbreak.2 (by decide)
    · have hlength : lineBreakTail c rest + 1 = 1 := by simp [lineBreakTail, hbreak]
      intro hstops
      have hlast := hstops.last
      have hnext := hstops.next
      simp only [hlength, List.take_succ_cons, List.take_zero, List.getLast?_singleton,
        Option.some.injEq] at hlast
      simp only [hlength, List.drop_succ_cons, List.drop_zero] at hnext
      exact hbreak ⟨hlast, hnext⟩
  · rename_i hline
    have hspace : c.isSpaceOrTab = true := by
      rw [CodePoint.isWhitespace] at hwhite
      simpa [hline] using hwhite
    refine not_stopsBetween_of_forall (f := CodePoint.isSpaceOrTab) (by decide) ?_
    exact List.forall_mem_cons.mpr ⟨hspace, forall_take_takeWhile⟩

/-- No rule parts a carriage return from a line feed: text does not end
in front of a line feed. -/
theorem apart_return : Apart '\r' '\n' where
  last := by decide
  next := by decide
  line := .inl (by decide)
  separator _ _ hwhite := not_stopsBetween_separator hwhite
  run typed c rest _ := by
    unfold textRun
    simp only
    split
    · rename_i hwhite
      exact not_stopsBetween_separator (List.all_eq_true.mp hwhite c List.mem_cons_self)
    · intro hstops
      obtain ⟨tail, hdrop⟩ := List.head?_eq_some_iff.mp hstops.next
      have hends : endsText typed '\n' tail = true := endsText_of_drop_textLength hdrop
      cases typed <;> cases hends

/-- White space and line breaks are separators in every context. -/
theorem next_eq_separator
    (h : (next context c rest).kind = .whitespace ∨ (next context c rest).kind = .newline) :
    next context c rest = separator c rest := by
  have hwhite := (opens_next context c rest).white h
  have htext : ∀ typed, (text typed c rest).kind = .whitespace ∨
      (text typed c rest).kind = .newline → text typed c rest = separator c rest := by
    intro typed
    rw [text_eq_textRun (endsText_of_isWhitespace hwhite), textRun]
    split
    · exact fun _ => rfl
    · rintro (hkind | hkind) <;> cases hkind
  cases context with
  | normal => exact if_pos hwhite
  | tag => exact if_pos hwhite
  | text => exact htext false h
  | typedText => exact htext true h
  | raw tag =>
    exfalso
    change (raw tag c rest).kind = _ ∨ (raw tag c rest).kind = _ at h
    unfold raw at h
    split at h
    · rcases h with h | h <;> cases h
    · split at h <;> rcases h with h | h <;> cases h

end Lexeme

namespace Lexer

variable {L : Lexer} {context : LexContext}

/-- A step does not stop inside a line break: where it would, the lexeme
is a carriage return that is skipped, but that is white space. -/
theorem not_partsBreak_next : ¬ L.source.PartsBreak (L.next context).position := by
  rintro ⟨front, behind, hsource, hoffset⟩
  have hlength := congrArg List.length hsource
  simp only [List.length_append, List.length_cons] at hlength
  by_cases hend : L.source.length ≤ L.position
  · rw [next_of_length_le hend] at hoffset
    change L.position = _ at hoffset
    omega
  · obtain ⟨c, rest, hdrop⟩ := @exists_drop_eq_cons L (by omega)
    have hposition : (L.next context).position
        = L.position + (Lexeme.next context c rest).length :=
      congrArg TextRange.stop (next_of_drop_eq hdrop).2.1
    have hpos := (Lexeme.next context c rest).length_pos
    have hin : (front.drop L.position).length + 1 = (Lexeme.next context c rest).length := by
      rw [List.length_drop]
      omega
    rw [hsource, List.drop_append_of_le_length (by omega)] at hdrop
    generalize front.drop L.position = run at hin hdrop
    have hstops : (Lexeme.next context c rest).StopsBetween '\r' '\n' (c :: rest) := by
      constructor <;> rw [← hdrop, ← hin]
      · simp [List.take_append]
      · simp [List.drop_append]
    have hskips := Lexeme.stopsBetween_next Lexeme.apart_return hstops
    have hblack := hskips.black
    rw [hskips.same] at hblack
    cases hblack

/-- A line break that is read ends a line of the source. -/
theorem endsLine_next (h : (L.next context).current.kind = .newline) :
    L.source.EndsLine (L.next context).position := by
  have hinside : L.position < L.source.length := by
    apply Nat.lt_of_not_le
    intro hend
    rw [kind_next_eq_eof_iff.mpr hend] at h
    cases h
  obtain ⟨c, rest, hdrop⟩ := exists_drop_eq_cons hinside
  obtain ⟨hkind, hrange, -⟩ := @next_of_drop_eq L context c rest hdrop
  rw [hkind] at h
  -- A line break is a separator in every context.
  have hseparator := Lexeme.next_eq_separator (.inr h)
  have hline : c.isLineEnd = true := by
    by_contra hline
    rw [hseparator, Lexeme.separator, if_neg hline] at h
    cases h
  have hposition : (L.next context).position
      = L.position + (Lexeme.lineBreakTail c rest + 1) := by
    have hstop := congrArg TextRange.stop hrange
    rw [hseparator, Lexeme.separator, if_pos hline] at hstop
    exact hstop
  have hsource : L.source = L.source.take L.position ++ c :: rest := by
    rw [← hdrop, List.take_append_drop]
  have hfront : (L.source.take L.position).length = L.position :=
    List.length_take_of_le (Nat.le_of_lt hinside)
  by_cases hbreak : c = '\r' ∧ rest.head? = some (CodePoint.ofChar '\n')
  · -- The line feed behind a carriage return belongs to it and ends the line.
    obtain ⟨more, hrest⟩ := List.head?_eq_some_iff.mp hbreak.2
    refine ⟨L.source.take L.position ++ [c], more, '\n', ?_, ?_, by decide, ?_⟩
    · rw [List.append_assoc, List.singleton_append, ← hrest]
      exact hsource
    · rw [hposition, List.length_append, hfront]
      simp [Lexeme.lineBreakTail, hbreak]
    · exact fun h => absurd h.1 (by decide)
  · refine ⟨L.source.take L.position, rest, c, hsource, ?_, hline, hbreak⟩
    rw [hposition, hfront]
    simp [Lexeme.lineBreakTail, hbreak]

/-- What a lexer remembers of line breaks: trivia hands it on, and the end
of the source does, but any other token forgets it. -/
theorem afterLineBreak_next :
    (L.next context).afterLineBreak
      = ((L.afterLineBreak || (L.next context).current.kind = .newline) &&
          ((L.next context).current.kind.isTrivia || (L.next context).current.kind = .eof)) := by
  unfold next
  split
  · simp
  · rename_i c rest _
    have hne := (Lexeme.cuts_next context c rest).kind_ne
    simp [hne]

/-! ### Any number of steps -/

/-- The lexer after a number of steps, each in the context of its
number. -/
def after (L : Lexer) (contexts : Nat → LexContext) : (count : Nat) → Lexer
  | 0 => L
  | count + 1 => (L.after contexts count).next (contexts count)

/-- The tokens of these steps, counted from zero. -/
def token (L : Lexer) (contexts : Nat → LexContext) (n : Nat) : Token :=
  (L.after contexts (n + 1)).current

variable {contexts : Nat → LexContext} {m n : Nat}

/-- Any number of steps stay in the source. -/
@[simp] theorem source_after : (L.after contexts n).source = L.source := by
  induction n with
  | zero => rfl
  | succ n ih => rw [after, next_source, ih]

/-- Any number of steps stay inside the source. -/
theorem isInside_after (inside : L.IsInside) : (L.after contexts n).IsInside := by
  induction n with
  | zero => exact inside
  | succ n ih => exact ih.next _

/-- More steps do not stand further in front. -/
theorem position_after_le (h : m ≤ n) :
    (L.after contexts m).position ≤ (L.after contexts n).position := by
  induction h with
  | refl => exact Nat.le_refl _
  | step _ ih => exact Nat.le_trans ih position_le_next

/-- A step reads the end of the source exactly if the steps before it have read
all of the source. -/
theorem kind_token_eq_eof_iff :
    (L.token contexts n).kind = .eof ↔ L.source.length ≤ (L.after contexts n).position := by
  rw [token, after, kind_next_eq_eof_iff, source_after]

/-- Each token in front of the end takes a character. -/
theorem le_position_after (h : ∀ m < n, (L.token contexts m).kind ≠ .eof) :
    n ≤ (L.after contexts n).position := by
  induction n with
  | zero => exact Nat.zero_le _
  | succ n ih =>
    have hlt := position_lt_next (h n (Nat.lt_succ_self n))
    have hle := ih fun m hm => h m (Nat.lt_succ_of_lt hm)
    exact Nat.lt_of_le_of_lt hle hlt

/-- The end comes after no more tokens than the source has characters, and
from there on nothing else comes. -/
theorem exists_count_token (L : Lexer) (contexts : Nat → LexContext) :
    ∃ count ≤ L.source.length, ∀ n, (L.token contexts n).kind = .eof ↔ count ≤ n := by
  have hreached : L.source.length ≤ (L.after contexts L.source.length).position := by
    by_contra hshort
    refine hshort (le_position_after fun m hm hend => hshort ?_)
    exact Nat.le_trans (kind_token_eq_eof_iff.mp hend) (position_after_le (Nat.le_of_lt hm))
  have hexists : ∃ n, L.source.length ≤ (L.after contexts n).position := ⟨_, hreached⟩
  refine ⟨Nat.find hexists, Nat.find_min' hexists hreached, fun n => ?_⟩
  rw [kind_token_eq_eof_iff]
  constructor
  · exact Nat.find_min' hexists
  · exact fun hle => Nat.le_trans (Nat.find_spec hexists) (position_after_le hle)

end Lexer

/-! ### The sequence of tokens -/

/-- Some token in front of this one is a line break, and all tokens
between the two are trivia or the end of the source. -/
def Token.BreakBefore (token : Nat → Token) (n : Nat) : Prop :=
  ∃ m < n, (token m).kind = .newline ∧
    ∀ k, m < k → k < n → (token k).kind.isTrivia = true ∨ (token k).kind = .eof

/-- A break in front of the next token is this token, or one in front of
it that this token lets through. -/
theorem Token.breakBefore_succ {token : Nat → Token} {n : Nat} :
    BreakBefore token (n + 1) ↔ (BreakBefore token n ∨ (token n).kind = .newline) ∧
      ((token n).kind.isTrivia = true ∨ (token n).kind = .eof) := by
  constructor
  · rintro ⟨m, hm, hbreak, hbetween⟩
    by_cases hlast : m = n
    · rw [hlast] at hbreak
      exact ⟨.inr hbreak, .inl (by rw [hbreak]; rfl)⟩
    · refine ⟨.inl ⟨m, by omega, hbreak, fun k hmk hkn => hbetween k hmk (by omega)⟩, ?_⟩
      exact hbetween n (by omega) (Nat.lt_succ_self n)
  · rintro ⟨⟨m, hm, hbreak, hbetween⟩ | hbreak, hpasses⟩
    · refine ⟨m, by omega, hbreak, fun k hmk hkn => ?_⟩
      by_cases hk : k = n
      · rw [hk]
        exact hpasses
      · exact hbetween k hmk (by omega)
    · exact ⟨n, Nat.lt_succ_self n, hbreak, fun k hnk hkn => by omega⟩

/-- What a lexer remembers after some tokens is a break in front of the
next one. -/
theorem Lexer.afterLineBreak_after {L : Lexer} {contexts : Nat → LexContext} {n : Nat}
    (h : L.afterLineBreak = false) :
    (L.after contexts n).afterLineBreak = true ↔ Token.BreakBefore (L.token contexts) n := by
  induction n with
  | zero => simp [after, h, Token.BreakBefore]
  | succ n ih =>
    rw [Token.breakBefore_succ, ← ih, after, afterLineBreak_next]
    simp [token, after]

/-- The tokens cover the source from its start to its end, whatever they
are. -/
structure Tiles (source : Text) (token : Nat → Token) : Prop where
  first : (token 0).range.start = 0
  contiguous : ∀ n, (token (n + 1)).range.start = (token n).range.stop
  nonempty : ∀ n, (token n).kind ≠ .eof →
    (token n).range.start < (token n).range.stop ∧ (token n).range.stop ≤ source.length
  /-- The end is reached after at most one token for each character. -/
  ends : ∃ count ≤ source.length, ∀ n, (token n).kind = .eof ↔ count ≤ n
  atEnd : ∀ n, (token n).kind = .eof → (token n).range = .empty source.length
  lineBreak : ∀ n, (token n).flags.afterLineBreak = true ↔
    (token n).kind = .newline ∨ Token.BreakBefore token n
  whole : ∀ n, ¬ source.PartsBreak (token n).range.stop
  startsLine : ∀ n, (token n).kind = .newline →
    (token n).range.stop ∈ (LineIndex.ofText source).starts

/-- Read in any sequence of contexts, the tokens of a source cover it. -/
theorem Lexer.tiles_token (source file : Text) (contexts : Nat → LexContext) :
    Tiles source ((ofSource source file).token contexts) := by
  have inside : (ofSource source file).IsInside := Nat.zero_le _
  have hsource : ∀ n, ((ofSource source file).after contexts n).source = source :=
    fun n => source_after
  refine ⟨start_next, fun n => start_next, fun n hkind => ?_, exists_count_token (ofSource source file) contexts,
    fun n hkind => ?_, fun n => ?_, fun n => ?_, fun n hkind => ?_⟩
  · have hbounds := (cutIn_next hkind).bounds
    rwa [hsource] at hbounds
  · have hrange := range_next_of_eof (isInside_after inside) hkind
    rwa [hsource] at hrange
  · have hbefore := @afterLineBreak_after (ofSource source file) contexts n rfl
    rw [← hbefore, token, after, flags_afterLineBreak_next]
    simp [or_comm]
  · have hwhole := @not_partsBreak_next ((ofSource source file).after contexts n) (contexts n)
    rwa [hsource] at hwhole
  · have hends := endsLine_next hkind
    rw [hsource] at hends
    exact LineIndex.mem_starts_ofText.mpr (.inr hends)

end MarkupSyntax
