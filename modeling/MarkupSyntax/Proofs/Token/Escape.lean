import MarkupSyntax.Grammar.Content
import MarkupSyntax.Proofs.Token.Scan
import MarkupSyntax.View.Literal

/-!
# `MarkupSyntax.Proofs.Token.Escape`: text that is written with escapes

`Text.escape` writes a text so that it is no markup: `&` and `<` as
character references, braces behind a backslash, and `@` too where the
body is typed. In the context of a body the lexer cuts what is written
into pieces that stand for the text again (`exists_readsBack`): a piece is
one token with the white space in front of it.

The proof goes through the text from left to right. A character that is
written in another way is a token by itself (`exists_splits_escapeChar`).
The characters up to the next one of that kind are one token
(`splits_run`), unless they are all white space, which is cut at line
breaks and belongs to the next piece (`exists_splits_white`).
-/

set_option autoImplicit false

namespace MarkupSyntax

open Grammar

/-! ### Writing a text -/

namespace Text

/-- How a character of a text is written between tags, where it is no
markup then. In typed text `@` is escaped too. -/
def escapeChar (typed : Bool) (c : CodePoint) : Text :=
  if c = '&' then "&amp;"
  else if c = '<' then "&lt;"
  else if c = '\x7b' then "\\\x7b"
  else if c = '\x7d' then "\\\x7d"
  else if typed && c = '@' then "\\@"
  else [c]

/-- How a text is written between tags. -/
def escape (typed : Bool) (t : Text) : Text := t.flatMap (escapeChar typed)

/-- The empty text is written as the empty text. -/
@[simp] theorem escape_nil (typed : Bool) : escape typed [] = [] := rfl

/-- A text is written character by character. -/
theorem escape_cons (typed : Bool) (c : CodePoint) (t : Text) :
    escape typed (c :: t) = escapeChar typed c ++ escape typed t := List.flatMap_cons

/-- Two texts that are written one after the other are written as one. -/
theorem escape_append (typed : Bool) (t t' : Text) :
    escape typed (t ++ t') = escape typed t ++ escape typed t' := List.flatMap_append

end Text

/-- True for a character that is written as it is. -/
def CodePoint.isVerbatim (typed : Bool) (c : CodePoint) : Bool :=
  c ≠ '&' && c ≠ '<' && c ≠ '\x7b' && c ≠ '\x7d' && !(typed && c = '@')

/-- A character is written as itself exactly if it is none of `&`, `<`, `{` and
`}`, and no `@` in typed text. -/
theorem CodePoint.isVerbatim_iff {typed : Bool} {c : CodePoint} :
    c.isVerbatim typed = true ↔
      c ≠ '&' ∧ c ≠ '<' ∧ c ≠ '\x7b' ∧ c ≠ '\x7d' ∧ (typed = true → c ≠ '@') := by
  cases typed <;> simp [isVerbatim, and_assoc]

namespace Text

variable {typed : Bool} {c : CodePoint} {t : Text}

/-- A character of this kind is written as itself. -/
theorem escapeChar_of_isVerbatim (h : c.isVerbatim typed = true) : escapeChar typed c = [c] := by
  obtain ⟨hamp, hless, hopen, hclose, hat⟩ := CodePoint.isVerbatim_iff.mp h
  cases typed with
  | false => simp [escapeChar, hamp, hless, hopen, hclose]
  | true => simp [escapeChar, hamp, hless, hopen, hclose, hat rfl]

/-- A text of such characters is written as itself. -/
theorem escape_of_isVerbatim (h : ∀ c ∈ t, c.isVerbatim typed = true) : escape typed t = t := by
  induction t with
  | nil => rfl
  | cons c t ih =>
    obtain ⟨hc, ht⟩ := List.forall_mem_cons.mp h
    rw [escape_cons, escapeChar_of_isVerbatim hc, ih ht]
    rfl

/-- The characters that are not written as they are. -/
theorem eq_of_not_isVerbatim (h : c.isVerbatim typed = false) :
    c = '&' ∨ c = '<' ∨ c = '\x7b' ∨ c = '\x7d' ∨ typed = true ∧ c = '@' := by
  by_contra hnone
  simp only [not_or, not_and] at hnone
  rw [CodePoint.isVerbatim_iff.mpr hnone] at h
  cases h

end Text

/-- The white space of two runs of trivia is that of the first one and then that
of the second. -/
theorem Located.whiteSpace_append (pieces pieces' : List (TriviaKind × Text)) :
    whiteSpace (pieces ++ pieces') = whiteSpace pieces ++ whiteSpace pieces' := by
  rw [whiteSpace, List.filter_append, List.flatMap_append]
  rfl

/-! ### The tokens of a text -/

namespace Lexeme

/-- The context in which a text is read. -/
def textContext (typed : Bool) : LexContext := if typed then .typedText else .text

/-- The text that a token of a run of text stands for. -/
def decoded (kind : TokenKind) (text : Text) : Text :=
  match kind with
  | .entity => References.decode text
  | .escapedLBrace => "\x7b"
  | .escapedRBrace => "\x7d"
  | .escapedAt => "@"
  | _ => text

/-- The tokens of a run of text. -/
def runTokens (typed : Bool) : List TokenKind := if typed then typedTextTokens else textTokens

variable {typed : Bool} {c : CodePoint} {rest run : Text}

/-- The tokens of a run of text are no trivia: escapes, references and chunks
all stay in the text. -/
theorem isTrivia_of_mem_runTokens {kind : TokenKind} (h : kind ∈ runTokens typed) :
    kind.isTrivia = false := by
  revert h
  cases typed <;> cases kind <;> decide

/-- A character that is written in another way is one token, which stands
for it, and no reference by a number. -/
theorem exists_splits_escapeChar (h : c.isVerbatim typed = false) :
    ∃ kind ∈ runTokens typed, decoded kind (Text.escapeChar typed c) = [c] ∧
      References.longNumber? (Text.escapeChar typed c) = none ∧
      ∀ rest, Splits (textContext typed) kind (Text.escapeChar typed c) rest := by
  rcases Text.eq_of_not_isVerbatim h with rfl | rfl | rfl | rfl | ⟨rfl, rfl⟩
  · exact ⟨.entity, by cases typed <;> decide, by cases typed <;> decide,
      by cases typed <;> decide, fun rest => by cases typed <;> exact ⟨rfl, rfl, rfl⟩⟩
  · exact ⟨.entity, by cases typed <;> decide, by cases typed <;> decide,
      by cases typed <;> decide, fun rest => by cases typed <;> exact ⟨rfl, rfl, rfl⟩⟩
  · exact ⟨.escapedLBrace, by cases typed <;> decide, by cases typed <;> decide,
      by cases typed <;> decide, fun rest => by cases typed <;> exact ⟨rfl, rfl, rfl⟩⟩
  · exact ⟨.escapedRBrace, by cases typed <;> decide, by cases typed <;> decide,
      by cases typed <;> decide, fun rest => by cases typed <;> exact ⟨rfl, rfl, rfl⟩⟩
  · exact ⟨.escapedAt, by decide, by decide, by decide, fun rest => ⟨rfl, rfl, rfl⟩⟩

/-- A run of text stops between `front` and `rest`: text ends there, and
a backslash in front escapes nothing. -/
structure Stops (typed : Bool) (front rest : Text) : Prop where
  ends : ∃ c tail, rest = c :: tail ∧ endsText typed c tail = true
  black : ∀ c ∈ rest.head?, c.isWhitespace = false
  plain : front.getLast? = some (CodePoint.ofChar '\\') →
    ∀ c ∈ rest.head?, c ≠ '\x7b' ∧ c ≠ '\x7d' ∧ c ≠ '@'

/-- Only the last character in front matters. -/
theorem Stops.of_append {front : Text} (h : Stops typed (front ++ run) rest) :
    Stops typed run rest := by
  refine ⟨h.ends, h.black, fun hlast => h.plain ?_⟩
  rw [List.getLast?_append, hlast]
  rfl

/-- Text stops at a character that is written in another way. -/
theorem stops_escapeChar (h : c.isVerbatim typed = false) (front rest : Text) :
    Stops typed front (Text.escapeChar typed c ++ rest) := by
  have hstops : ∀ {d : CodePoint} {tail : Text}, d = '&' ∨ d = '\\' →
      endsText typed d tail = true → Stops typed front (d :: tail) := by
    intro d tail hd hends
    refine ⟨⟨d, tail, rfl, hends⟩, fun e he => ?_, fun _ e he => ?_⟩
    all_goals
      rw [← Option.some.inj he]
      rcases hd with rfl | rfl <;> decide
  rcases Text.eq_of_not_isVerbatim h with rfl | rfl | rfl | rfl | ⟨rfl, rfl⟩
  · exact hstops (.inl rfl) (by cases typed <;> rfl)
  · exact hstops (.inl rfl) (by cases typed <;> rfl)
  · exact hstops (.inr rfl) (by cases typed <;> rfl)
  · exact hstops (.inr rfl) (by cases typed <;> rfl)
  · exact hstops (.inr rfl) rfl

/-- Nothing ends a run of text inside characters that are written as they
are. -/
theorem endsText_of_isVerbatim (h : c.isVerbatim typed = true)
    (hrest : c = '\\' → ∀ d ∈ rest.head?,
      d.isVerbatim typed = true ∨ d ≠ '\x7b' ∧ d ≠ '\x7d' ∧ d ≠ '@') :
    endsText typed c rest = false := by
  obtain ⟨hamp, hless, hopen, hclose, hat⟩ := CodePoint.isVerbatim_iff.mp h
  have hescape : textEscape? typed c rest = none := by
    unfold textEscape?
    split
    · rfl
    rename_i hslash
    have hrest := hrest (by simpa using hslash)
    cases rest with
    | nil => simp [startsWith, Text.ofString]
    | cons d tail =>
      have hd : d ≠ '\x7b' ∧ d ≠ '\x7d' ∧ (typed = true → d ≠ '@') := by
        rcases hrest d rfl with hd | ⟨hopen, hclose, hat⟩
        · exact (CodePoint.isVerbatim_iff.mp hd).2.2
        · exact ⟨hopen, hclose, fun _ => hat⟩
      obtain ⟨hopen, hclose, hat⟩ := hd
      have hat' : (typed && startsWith "@" (d :: tail)) = false := by
        cases typed with
        | false => rfl
        | true => simp [startsWith, Text.ofString, List.isPrefixOf, Ne.symm (hat rfl)]
      rw [hat']
      simp [startsWith, Text.ofString, List.isPrefixOf, Ne.symm hopen, Ne.symm hclose]
  have hentity : entityLength (c :: rest) = 0 := by simp [entityLength, hamp]
  unfold endsText
  rw [hescape, hentity]
  cases typed with
  | false => simp [hless, hopen, hclose]
  | true => simp [hless, hat rfl]

/-- The number of characters up to the end of a run. -/
theorem textLength_append (h : ∀ c ∈ run, c.isVerbatim typed = true)
    (hrest : Stops typed run rest) : textLength typed (run ++ rest) = run.length := by
  induction run with
  | nil =>
    obtain ⟨c, tail, rfl, hends⟩ := hrest.ends
    rw [List.nil_append, textLength, if_pos hends]
    rfl
  | cons c run ih =>
    obtain ⟨hc, hrun⟩ := List.forall_mem_cons.mp h
    have hnext : endsText typed c (run ++ rest) = false := by
      refine endsText_of_isVerbatim hc fun hslash d hd => ?_
      cases run with
      | nil => exact .inr (hrest.plain (congrArg some hslash) d hd)
      | cons d' run =>
        rw [← Option.some.inj hd]
        exact .inl (List.forall_mem_cons.mp hrun).1
    rw [List.cons_append, textLength, hnext, if_neg Bool.false_ne_true, ih hrun (@Stops.of_append _ _ _ [c] hrest)]
    rfl

/-- White space ends no run of text. -/
theorem endsText_of_isWhitespace (h : c.isWhitespace = true) : endsText typed c rest = false := by
  have hverbatim : c.isVerbatim typed = true ∧ c ≠ '\\' := by
    simp only [CodePoint.isWhitespace, CodePoint.isSpaceOrTab, CodePoint.isLineEnd,
      Bool.or_eq_true, decide_eq_true_eq] at h
    rcases h with (rfl | rfl) | (rfl | rfl) <;> cases typed <;> decide
  exact endsText_of_isVerbatim hverbatim.1 fun hslash => absurd hslash hverbatim.2

/-- Where text does not end, a run of it starts. -/
theorem text_eq_textRun (hends : endsText typed c rest = false) :
    text typed c rest = textRun typed c rest := by
  have hescape : textEscape? typed c rest = none := by
    by_contra hescape
    have hsome := Option.isSome_iff_ne_none.mpr hescape
    rw [endsText, hsome] at hends
    cases hends
  have hentity : ¬0 < entityLength (c :: rest) := by
    intro hentity
    rw [endsText, decide_eq_true hentity] at hends
    simp at hends
  have hmarkup : textMarkup? typed c rest = none := by
    simp only [endsText, Bool.or_eq_false_iff] at hends
    cases typed with
    | false =>
      obtain ⟨⟨hless, hopen⟩, hclose⟩ : (c ≠ '<' ∧ c ≠ '\x7b') ∧ c ≠ '\x7d' := by
        simpa using hends.2
      simp [textMarkup?, hless, hopen, hclose]
    | true =>
      obtain ⟨hless, hat⟩ : (c = '<' && startsWith "/" rest) = false ∧
          (c = '@' && startsWith "\x7b" rest) = false := by
        simpa only [if_true, Bool.or_eq_false_iff] using hends.2
      simp only [textMarkup?, if_true, hless, hat, Bool.false_eq_true, if_false]
  unfold text
  rw [hescape]
  simp only [dif_neg hentity, hmarkup, Option.getD_none]

/-- In front of a character that is written as it is, a run of text is all
that is read. -/
theorem text_of_isVerbatim (hc : c.isVerbatim typed = true)
    (h : ∀ d ∈ run, d.isVerbatim typed = true) (hrest : Stops typed (c :: run) rest) :
    ((c :: run).all (·.isWhitespace) = true →
      text typed c (run ++ rest) = separator c (run ++ rest)) ∧
    ((c :: run).all (·.isWhitespace) = false → (text typed c (run ++ rest)).kind = .textChunk ∧
      (text typed c (run ++ rest)).length = run.length + 1 ∧
      (text typed c (run ++ rest)).problem = none) := by
  have hlength := textLength_append h (@Stops.of_append _ _ _ [c] hrest)
  have hends : endsText typed c (run ++ rest) = false := by
    have hlonger := @textLength_append typed rest (c :: run)
      (List.forall_mem_cons.mpr ⟨hc, h⟩) hrest
    by_contra hends
    rw [Bool.not_eq_false] at hends
    rw [List.cons_append, textLength, if_pos hends] at hlonger
    cases hlonger
  rw [text_eq_textRun hends]
  simp only [textRun, hlength, List.take_left]
  constructor
  · exact fun hwhite => if_pos hwhite
  · intro hblack
    rw [hblack]
    exact ⟨rfl, rfl, rfl⟩

/-- A separator ends in front of what is no white space. -/
theorem length_separator_le (hrest : ∀ d ∈ rest.head?, d.isWhitespace = false) :
    (separator c (run ++ rest)).length ≤ run.length + 1 := by
  have hhead : ∀ d ∈ rest.head?, d.isSpaceOrTab = false ∧ d.isLineEnd = false := by
    intro d hd
    have hwhite := hrest d hd
    rwa [CodePoint.isWhitespace, Bool.or_eq_false_iff] at hwhite
  unfold separator
  split
  · unfold lineBreakTail
    split
    · rename_i hbreak
      cases run with
      | nil =>
        simp only [List.nil_append, Bool.and_eq_true, decide_eq_true_eq] at hbreak
        have hline := (hhead _ hbreak.2).2
        cases hline
      | cons => simp
    · simp
  · show ((run ++ rest).takeWhile _).length + 1 ≤ _
    have hle : ((run ++ rest).takeWhile (·.isSpaceOrTab)).length ≤ run.length := by
      induction run with
      | nil =>
        cases rest with
        | nil => rfl
        | cons d rest => simp [(hhead d rfl).1]
      | cons d run ih =>
        rw [List.cons_append, List.takeWhile_cons]
        split
        · exact Nat.succ_le_succ ih
        · exact Nat.zero_le _
    omega

/-- In the context of a text the next lexeme is one of text; the context says
only whether `@` is special. -/
theorem next_textContext : next (textContext typed) c rest = text typed c rest := by
  cases typed <;> rfl

/-- A run of text that is not all white space is one token. -/
theorem splits_run (h : ∀ d ∈ c :: run, d.isVerbatim typed = true)
    (hrest : Stops typed (c :: run) rest) (hblack : (c :: run).all (·.isWhitespace) = false) :
    Splits (textContext typed) .textChunk (c :: run) rest := by
  obtain ⟨hc, hrun⟩ := List.forall_mem_cons.mp h
  rw [splits_cons, next_textContext]
  exact (text_of_isVerbatim hc hrun hrest).2 hblack

/-- Where white space is a separator, it comes in pieces, which separate
tokens. -/
theorem exists_splits_separator {context : LexContext}
    (hnext : next context c (run ++ rest) = separator c (run ++ rest))
    (hrest : ∀ d ∈ rest.head?, d.isWhitespace = false) :
    ∃ kind trivia piece back, c :: run = piece ++ back ∧ piece ≠ [] ∧
      Splits context kind piece (back ++ rest) ∧ kind.triviaKind? = some trivia ∧
      Located.whiteSpace [(trivia, piece)] = piece := by
  have hlength : (separator c (run ++ rest)).length ≤ run.length + 1 := length_separator_le hrest
  obtain ⟨n, hn⟩ : ∃ n, (separator c (run ++ rest)).length = n + 1 :=
    ⟨_, (Nat.succ_pred_eq_of_pos (separator c (run ++ rest)).length_pos).symm⟩
  have hsplits : ∀ kind, (separator c (run ++ rest)).kind = kind →
      (separator c (run ++ rest)).problem = none →
      Splits context kind (c :: run.take n) (run.drop n ++ rest) := by
    intro kind hkind hproblem
    rw [splits_cons, ← List.append_assoc, List.take_append_drop, hnext, hn, List.length_take,
      Nat.min_eq_left (by omega)]
    exact ⟨hkind, rfl, hproblem⟩
  have hrun : c :: run = (c :: run.take n) ++ run.drop n := by
    rw [List.cons_append, List.take_append_drop]
  by_cases hline : c.isLineEnd = true
  · refine ⟨.newline, .newline, _, _, hrun, List.cons_ne_nil _ _, hsplits _ ?_ ?_, rfl, ?_⟩
    · rw [separator, if_pos hline]
    · rw [separator, if_pos hline]
    · simp [Located.whiteSpace]
  · refine ⟨.whitespace, .whitespace, _, _, hrun, List.cons_ne_nil _ _, hsplits _ ?_ ?_, rfl, ?_⟩
    · rw [separator, if_neg hline]
    · rw [separator, if_neg hline]
    · simp [Located.whiteSpace]

/-- A run that is all white space is read as separators. -/
theorem exists_splits_white (h : ∀ d ∈ c :: run, d.isVerbatim typed = true)
    (hrest : Stops typed (c :: run) rest) (hwhite : (c :: run).all (·.isWhitespace) = true) :
    ∃ kind trivia piece back, c :: run = piece ++ back ∧ piece ≠ [] ∧
      Splits (textContext typed) kind piece (back ++ rest) ∧ kind.triviaKind? = some trivia ∧
      Located.whiteSpace [(trivia, piece)] = piece := by
  obtain ⟨hc, hrun⟩ := List.forall_mem_cons.mp h
  refine exists_splits_separator ?_ hrest.black
  rw [next_textContext, (text_of_isVerbatim hc hrun hrest).1 hwhite]

end Lexeme

/-- The text that a piece of a run stands for. -/
def Piece.value (piece : Piece) : Text :=
  Located.whiteSpace piece.gap ++ Lexeme.decoded piece.lexed.kind piece.lexed.text

/-- A token of a run of text that can be read: it is no reference with too
many digits. -/
structure Lexed.IsText (typed : Bool) (token : Lexed) : Prop where
  context : token.context = Lexeme.textContext typed
  kind : token.kind ∈ Lexeme.runTokens typed
  readable : token.kind = .entity → References.longNumber? token.text = none

/-- The pieces in which a text is read back, and a rest behind them. -/
structure ReadsBack (typed : Bool) (t rest : Text) (pieces : List Piece) : Prop where
  consists : Consists (Text.escape typed t ++ rest) pieces rest
  isText : ∀ piece ∈ pieces, piece.lexed.IsText typed
  value : pieces.flatMap Piece.value = t
  gap : (∀ c ∈ t.head?, c.isWhitespace = false) → ∀ piece ∈ pieces.head?, piece.gap = []
  nonempty : t ≠ [] → pieces ≠ []

open Lexeme

namespace ReadsBack

variable {typed : Bool} {c : CodePoint} {t run rest : Text} {pieces : List Piece}

/-- A token comes in front, with nothing between. -/
theorem token {kind : TokenKind} (run : Text) (h : ReadsBack typed t rest pieces)
    (hkind : kind ∈ runTokens typed) (hescape : Text.escape typed (c :: run ++ t)
      = Text.escape typed (c :: run) ++ Text.escape typed t)
    (hdecoded : decoded kind (Text.escape typed (c :: run)) = c :: run)
    (hreadable : kind = .entity → References.longNumber? (Text.escape typed (c :: run)) = none)
    (hsplits : Splits (textContext typed) kind (Text.escape typed (c :: run))
      (Text.escape typed t ++ rest)) :
    ∃ pieces, ReadsBack typed (c :: run ++ t) rest pieces := by
  refine ⟨⟨[], textContext typed, kind, Text.escape typed (c :: run)⟩ :: pieces, ?_, ?_, ?_, ?_,
    fun _ => List.cons_ne_nil _ _⟩
  · rw [hescape, List.append_assoc]
    exact .cons (.token hsplits (isTrivia_of_mem_runTokens hkind)) h.consists
  · exact List.forall_mem_cons.mpr ⟨⟨rfl, hkind, hreadable⟩, h.isText⟩
  · rw [List.flatMap_cons, h.value, Piece.value, hdecoded]
    rfl
  · intro _ piece hmem
    rw [← Option.some.inj hmem]

/-- A character that is written in another way comes in front. -/
theorem escaped (h : ReadsBack typed t rest pieces) (hc : c.isVerbatim typed = false) :
    ∃ pieces, ReadsBack typed (c :: t) rest pieces := by
  obtain ⟨kind, hkind, hdecoded, hreadable, hsplits⟩ := exists_splits_escapeChar hc
  have hchar : Text.escape typed [c] = Text.escapeChar typed c := List.append_nil _
  rw [← hchar] at hdecoded hreadable hsplits
  exact token [] h hkind (Text.escape_append typed [c] t) hdecoded (fun _ => hreadable) (hsplits _)

/-- A run that is not all white space comes in front. -/
theorem verbatim (h : ReadsBack typed t rest pieces)
    (hrun : ∀ d ∈ c :: run, d.isVerbatim typed = true)
    (hstops : Stops typed (c :: run) (Text.escape typed t ++ rest))
    (hblack : (c :: run).all (·.isWhitespace) = false) :
    ∃ pieces, ReadsBack typed (c :: run ++ t) rest pieces := by
  have hkind : TokenKind.textChunk ∈ runTokens typed := by cases typed <;> decide
  have hsplits := splits_run hrun hstops hblack
  have hsame := Text.escape_of_isVerbatim hrun
  rw [← hsame] at hsplits
  exact token run h hkind (Text.escape_append typed (c :: run) t) hsame nofun hsplits

/-- White space comes in front of the first piece. -/
theorem white {kind : TokenKind} {trivia : TriviaKind} {front : Text}
    (h : ReadsBack typed t rest pieces) (ht : t ≠ [])
    (hrun : ∀ d ∈ front, d.isVerbatim typed = true)
    (hwhite : ∀ d ∈ front, d.isWhitespace = true) (hne : front ≠ [])
    (hsplits : Splits (textContext typed) kind front (Text.escape typed t ++ rest))
    (hkind : kind.triviaKind? = some trivia)
    (hspace : Located.whiteSpace [(trivia, front)] = front) :
    ∃ pieces, ReadsBack typed (front ++ t) rest pieces := by
  obtain ⟨hconsists, hisText, hvalue, -, hnonempty⟩ := h
  have htext : Text.escape typed (front ++ t) ++ rest = front ++ (Text.escape typed t ++ rest) := by
    rw [Text.escape_append, Text.escape_of_isVerbatim hrun, List.append_assoc]
  -- The white space joins the trivia in front of the first piece; the text behind it must have
  -- one.
  generalize Text.escape typed t ++ rest = text at hconsists hsplits htext
  cases hconsists with
  | nil => exact absurd rfl (hnonempty ht)
  | @cons piece pieces _ _ _ first later =>
    obtain ⟨hfirst, hothers⟩ := List.forall_mem_cons.mp hisText
    refine ⟨⟨(trivia, front) :: piece.gap, piece.lexed⟩ :: pieces, ?_, ?_, ?_, ?_,
      fun _ => List.cons_ne_nil _ _⟩
    · rw [htext]
      rw [← hfirst.context] at hsplits
      exact .cons (.trivia hsplits hkind first) later
    · exact List.forall_mem_cons.mpr ⟨hfirst, hothers⟩
    · have hgap : Located.whiteSpace ((trivia, front) :: piece.gap)
          = front ++ Located.whiteSpace piece.gap := by
        conv_rhs => rw [← hspace]
        exact Located.whiteSpace_append [(trivia, front)] piece.gap
      rw [List.flatMap_cons, Piece.value] at hvalue ⊢
      rw [hgap, ← hvalue]
      simp only [List.append_assoc]
    · -- The text does not start with white space, but the piece does.
      intro hblack
      cases front with
      | nil => exact absurd rfl hne
      | cons d front =>
        have hd := hwhite d List.mem_cons_self
        rw [hblack d rfl] at hd
        cases hd

end ReadsBack

/-- The first characters that are written as they are, and the rest. -/
theorem exists_run {typed : Bool} {front t rest : Text} (hrest : Stops typed (front ++ t) rest) :
    ∃ run behind, t = run ++ behind ∧ (∀ d ∈ run, d.isVerbatim typed = true) ∧
      Stops typed (front ++ run) (Text.escape typed behind ++ rest) := by
  induction t generalizing front with
  | nil => exact ⟨[], [], rfl, nofun, hrest⟩
  | cons c t ih =>
    by_cases hc : c.isVerbatim typed = true
    · obtain ⟨run, behind, rfl, hrun, hstops⟩ := @ih (front ++ [c]) (by rwa [List.append_assoc])
      rw [List.append_assoc] at hstops
      exact ⟨c :: run, behind, rfl, List.forall_mem_cons.mpr ⟨hc, hrun⟩, hstops⟩
    · refine ⟨[], c :: t, rfl, nofun, ?_⟩
      rw [Text.escape_cons, List.append_assoc]
      exact stops_escapeChar (Bool.not_eq_true _ ▸ hc) _ _

/-- A text that ends with no white space is read back from what is
written for it. The induction is on its length: in each round a
character, a run or a piece of white space is read. -/
theorem exists_readsBack {typed : Bool} {t rest : Text} (hrest : Stops typed t rest)
    (hlast : ∀ c ∈ t.getLast?, c.isWhitespace = false) :
    ∃ pieces, ReadsBack typed t rest pieces := by
  -- By induction on the length: a token takes more than one character, so the induction on the
  -- text itself would not reach the rest.
  induction hn : t.length using Nat.strong_induction_on generalizing t with
  | _ n ih =>
    subst hn
    have hlater : ∀ {front behind : Text}, t = front ++ behind → front ≠ [] →
        ∃ pieces, ReadsBack typed behind rest pieces := by
      intro front behind ht hfront
      rw [ht] at hrest
      refine ih behind.length ?_ hrest.of_append (fun c hc => ?_) rfl
      · rw [ht, List.length_append]
        have := List.length_pos_iff.mpr hfront
        omega
      · refine hlast c ?_
        rw [ht, List.getLast?_append, hc]
        rfl
    cases t with
    | nil =>
      exact ⟨[], .nil rest, nofun, rfl, fun _ _ hmem => (nomatch hmem), fun h => absurd rfl h⟩
    | cons c t =>
      by_cases hc : c.isVerbatim typed = true
      · obtain ⟨run, behind, rfl, hrun, hstops⟩ := @exists_run typed [c] t rest hrest
        have hrun : ∀ d ∈ c :: run, d.isVerbatim typed = true := List.forall_mem_cons.mpr ⟨hc, hrun⟩
        -- A run of white space is trivia. As the text does not end in one, a token comes behind
        -- it.
        by_cases hwhite : (c :: run).all (·.isWhitespace) = true
        · obtain ⟨kind, trivia, front, back, hfront, hne, hsplits, hkind, hspace⟩ :=
            exists_splits_white hrun hstops hwhite
          have ht : c :: (run ++ behind) = front ++ (back ++ behind) := by
            rw [← List.cons_append, hfront, List.append_assoc]
          have hback : ∀ d ∈ back, d.isVerbatim typed = true := fun d hd =>
            hrun d (hfront ▸ List.mem_append_right _ hd)
          have hlater := hlater ht hne
          obtain ⟨pieces, hpieces⟩ := hlater
          rw [List.all_eq_true] at hwhite
          rw [ht]
          refine hpieces.white ?_ (fun d hd => hrun d (hfront ▸ List.mem_append_left _ hd))
            (fun d hd => hwhite d (hfront ▸ List.mem_append_left _ hd)) hne ?_ hkind hspace
          · -- The last character is no white space.
            intro hnil
            rw [ht, hnil, List.append_nil] at hlast
            have hmem := List.getLast?_eq_some_getLast hne
            have hwhite' := hwhite _ (hfront ▸ List.mem_append_left _ (List.getLast_mem hne))
            rw [hlast _ hmem] at hwhite'
            cases hwhite'
          · rw [Text.escape_append, Text.escape_of_isVerbatim hback, List.append_assoc]
            exact hsplits
        · rw [Bool.not_eq_true] at hwhite
          obtain ⟨pieces, hpieces⟩ := @hlater (c :: run) behind rfl (List.cons_ne_nil _ _)
          exact hpieces.verbatim hrun hstops hwhite
      · obtain ⟨pieces, hpieces⟩ := @hlater [c] t rfl (List.cons_ne_nil _ _)
        exact hpieces.escaped (Bool.not_eq_true _ ▸ hc)

end MarkupSyntax
