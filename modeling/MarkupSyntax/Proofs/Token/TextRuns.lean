import MarkupSyntax.Proofs.Token.Ends
import MarkupSyntax.Proofs.Token.Escape
import MarkupSyntax.Proofs.Token.Spelling

/-!
# `MarkupSyntax.Proofs.Token.TextRuns`: runs of text between marks

In a body of text a few characters are marks: markup, interpolations,
escapes and character references. `IsMark` lists them, each with the kind of
its token, as a description of texts and not of a lexer. All that stands
between two marks is one token, however long it is, unless it is white
space only (`TextRuns`).

The lexer has two functions that must agree on that. One reads the token at
an offset, and the other one looks for the end of a run of text, one
character after another. `isMarked_iff` says that the second one stops
exactly at the marks, and `kind_text_of_isMark` that the first one reads
them. What is left is an argument about offsets: from any offset without a
mark there is one next mark (`Unmarked`), and the token there goes up to it
or is white space (`Token.CutIn.run`).
-/

set_option autoImplicit false

namespace MarkupSyntax

/-! ### Marks -/

/-- What stands between `&` and `;` in a character reference: a name, or
the number of a character, in hexadecimal digits behind one of these
`letters`. -/
inductive IsReference (letters : Text) : Text → Prop
  | name {c : CodePoint} {rest : Text} (first : c.isAsciiLetter = true)
      (others : ∀ d ∈ rest, (d.isAsciiLetter || d.isAsciiDigit) = true) :
      IsReference letters (c :: rest)
  | decimal {digits : Text} (nonempty : digits ≠ []) (isDigit : ∀ d ∈ digits, d.isDigit = true) :
      IsReference letters (CodePoint.ofChar '#' :: digits)
  | hexadecimal {x : CodePoint} {digits : Text} (mark : x ∈ letters) (nonempty : digits ≠ [])
      (isHexDigit : ∀ d ∈ digits, d.isHexDigit = true) :
      IsReference letters (CodePoint.ofChar '#' :: x :: digits)

/-- In a text `mark ++ rest` there is a mark in front, and it is a token of
this kind. Of a comment only the opener is given. -/
inductive IsMark (letters : Text) : (typed : Bool) → TokenKind → (mark rest : Text) → Prop
  | reference {typed : Bool} {body rest : Text} (isReference : IsReference letters body) :
      IsMark letters typed .entity (CodePoint.ofChar '&' :: (body ++ [CodePoint.ofChar ';'])) rest
  | openEscape {typed : Bool} {rest : Text} : IsMark letters typed .escapedLBrace ['\\', '\x7b'] rest
  | closeEscape {typed : Bool} {rest : Text} : IsMark letters typed .escapedRBrace ['\\', '\x7d'] rest
  | atEscape {rest : Text} : IsMark letters true .escapedAt ['\\', '@'] rest
  | interpolation {rest : Text} : IsMark letters true .atLBrace ['@', '\x7b'] rest
  | closingTag {rest : Text} : IsMark letters true .lessThan ['<'] (CodePoint.ofChar '/' :: rest)
  | comment {rest : Text} : IsMark letters false .comment ['<', '!', '-', '-'] rest
  | angle {rest : Text} (noComment : ¬ Text.ofString "!--" <+: rest) :
      IsMark letters false .lessThan ['<'] rest
  | openBrace {rest : Text} : IsMark letters false .lBrace ['\x7b'] rest
  | closeBrace {rest : Text} : IsMark letters false .rBrace ['\x7d'] rest

/-- A mark stands in front of the text. -/
def IsMarked (letters : Text) (typed : Bool) (t : Text) : Prop :=
  ∃ kind mark rest, t = mark ++ rest ∧ IsMark letters typed kind mark rest

/-- The letters that start a hexadecimal number. -/
def hexLetters : Text := ['x', 'X']

namespace Lexeme

variable {typed : Bool} {c : CodePoint} {t rest body : Text} {n : Nat}

/-! ### Character references -/

/-- A text of digits is counted whole if it ends at a character that is none. -/
theorem digitCount_append_of_forall {d : CodePoint} (h : ∀ c ∈ t, c.isDigit = true)
    (hd : d.isDigit = false) : digitCount (t ++ d :: rest) = t.length := by
  rw [digitCount, takeWhile_append_cons hd, List.takeWhile_eq_self_iff.mpr h]

/-- A reference goes up to its semicolon. -/
theorem referenceLength_append (h : IsReference hexLetters body) :
    referenceLength (body ++ CodePoint.ofChar ';' :: rest) = body.length := by
  cases h with
  | @name c tail first others =>
    have hne : c ≠ '#' := by
      rintro rfl
      cases first
    have htail : (tail ++ CodePoint.ofChar ';' :: rest).takeWhile
        (fun d => d.isAsciiLetter || d.isAsciiDigit) = tail := by
      rw [takeWhile_append_cons (by decide), List.takeWhile_eq_self_iff.mpr others]
    simp [referenceLength, hne, first, htail]
  | @decimal digits nonempty isDigit =>
    obtain ⟨d, tail, rfl⟩ := List.exists_cons_of_ne_nil nonempty
    -- A digit is neither of the two marks of a hexadecimal number, so the decimal branch is
    -- taken.
    have hx : ∀ x : CodePoint, x.isDigit = false → d ≠ x := fun x =>
      CodePoint.ne_of_isDigit (isDigit d List.mem_cons_self)
    have hcount := @digitCount_append_of_forall (d :: tail) rest ';' isDigit (by decide)
    have hnone : startsWith "x" (d :: tail ++ CodePoint.ofChar ';' :: rest) = false ∧
        startsWith "X" (d :: tail ++ CodePoint.ofChar ';' :: rest) = false := by
      simp [startsWith, Text.ofString, List.isPrefixOf, Ne.symm (hx 'x' (by decide)),
        Ne.symm (hx 'X' (by decide))]
    simp only [List.cons_append, referenceLength, if_true] at hnone hcount ⊢
    simp [hnone, hcount]
  | @hexadecimal x digits mark nonempty isHexDigit =>
    have hcount : ((digits ++ CodePoint.ofChar ';' :: rest).takeWhile (·.isHexDigit)) = digits := by
      rw [takeWhile_append_cons (by decide), List.takeWhile_eq_self_iff.mpr isHexDigit]
    have hpos := List.length_pos_iff.mpr nonempty
    have hstart : (startsWith "x" (x :: (digits ++ CodePoint.ofChar ';' :: rest)) ||
        startsWith "X" (x :: (digits ++ CodePoint.ofChar ';' :: rest))) = true := by
      rcases List.mem_cons.mp mark with rfl | mark
      · rfl
      · rw [List.mem_singleton.mp mark]
        rfl
    simp only [List.cons_append, referenceLength, if_true, hstart, List.drop_succ_cons,
      List.drop_zero, hcount, hpos, List.length_cons]

/-- What is taken for a reference is one. -/
theorem isReference_of_pos (h : 0 < referenceLength t) :
    IsReference hexLetters (t.take (referenceLength t)) := by
  -- The tests of the lexer, one after another: a number sign, a letter for hexadecimal digits,
  -- and a letter for a name.
  cases t with
  | nil => cases h
  | cons c rest =>
    simp only [referenceLength] at h ⊢
    split at h
    · rename_i hc
      subst hc
      rw [if_pos rfl]
      split at h
      · rename_i hmark
        rw [if_pos hmark]
        split at h
        · rename_i hcount
          rw [if_pos hcount]
          obtain ⟨x, digits, rfl, hx⟩ : ∃ x digits, rest = x :: digits ∧ x ∈ hexLetters := by
            rcases Bool.or_eq_true_iff.mp hmark with hx | hx
            · obtain ⟨digits, hdigits⟩ := exists_of_startsWith_singleton rfl hx
              exact ⟨'x', digits, hdigits, by decide⟩
            · obtain ⟨digits, hdigits⟩ := exists_of_startsWith_singleton rfl hx
              exact ⟨'X', digits, hdigits, by decide⟩
          exact .hexadecimal hx (take_takeWhile_ne_nil hcount) forall_take_takeWhile
        · cases h
      · rename_i hmark
        rw [if_neg hmark]
        split at h
        · rename_i hcount
          rw [if_pos hcount]
          exact .decimal (take_takeWhile_ne_nil hcount) forall_take_takeWhile
        · cases h
    · rename_i hc
      rw [if_neg hc]
      split at h
      · rename_i hletter
        rw [if_pos hletter]
        exact .name hletter forall_take_takeWhile
      · cases h

/-- The lexer takes a well-formed reference whole: the `&`, the body and the
semicolon. `IsReference` is what the body must be. -/
theorem entityLength_append (h : IsReference hexLetters body) :
    entityLength (CodePoint.ofChar '&' :: (body ++ CodePoint.ofChar ';' :: rest))
      = body.length + 2 := by
  have hpos : 0 < body.length := by cases h <;> simp
  have hsemicolon : startsWith ";" (CodePoint.ofChar ';' :: rest) = true := rfl
  simp only [entityLength, referenceLength_append h, List.drop_left, hsemicolon, hpos, if_true,
    decide_true, Bool.and_self]

/-- Where the lexer finds a character reference, there is one. -/
theorem exists_reference (h : 0 < entityLength (c :: rest)) :
    ∃ body more, IsReference hexLetters body ∧ c = '&' ∧
      rest = body ++ CodePoint.ofChar ';' :: more := by
  simp only [entityLength] at h
  split at h
  · rename_i hc
    split at h
    · rename_i hreference
      obtain ⟨hpos, hsemicolon⟩ := Bool.and_eq_true_iff.mp hreference
      obtain ⟨more, hmore⟩ :=
        exists_of_startsWith_singleton (c := CodePoint.ofChar ';') rfl hsemicolon
      refine ⟨_, more, isReference_of_pos (of_decide_eq_true hpos), hc, ?_⟩
      rw [← hmore, List.take_append_drop]
    · cases h
  · cases h

/-! ### Both functions know the marks -/

/-- Text ends exactly where a mark stands. -/
theorem isMarked_iff : IsMarked hexLetters typed (c :: rest) ↔ endsText typed c rest = true := by
  -- Both sides list the same marks. From the left, each kind of mark is looked up; from the
  -- right, each test that succeeds gives its mark.
  constructor
  · rintro ⟨kind, mark, behind, heq, hmark⟩
    cases hmark with
    | @reference _ body _ isReference =>
      rw [List.cons_append, List.append_assoc] at heq
      obtain ⟨rfl, rfl⟩ := List.cons.inj heq
      have hlength := @entityLength_append behind body isReference
      simp only [List.singleton_append, endsText, hlength]
      simp
    | openEscape => cases heq; cases typed <;> rfl
    | closeEscape => cases heq; cases typed <;> rfl
    | atEscape => cases heq; rfl
    | interpolation => cases heq; rfl
    | closingTag => cases heq; rfl
    | comment => cases heq; rfl
    | angle => cases heq; simp [endsText]
    | openBrace => cases heq; simp [endsText]
    | closeBrace => cases heq; simp [endsText]
  · intro h
    simp only [endsText, Bool.or_eq_true, decide_eq_true_eq] at h
    rcases h with (hescape | hentity) | hmarkup
    · unfold textEscape? at hescape
      split at hescape
      · cases hescape
      rename_i hslash
      obtain rfl : c = '\\' := by simpa using hslash
      split at hescape
      · rename_i hs
        obtain ⟨more, rfl⟩ := exists_of_startsWith_singleton (c := CodePoint.ofChar '\x7b') rfl hs
        exact ⟨_, _, more, rfl, .openEscape⟩
      split at hescape
      · rename_i hs
        obtain ⟨more, rfl⟩ := exists_of_startsWith_singleton (c := CodePoint.ofChar '\x7d') rfl hs
        exact ⟨_, _, more, rfl, .closeEscape⟩
      split at hescape
      · rename_i hs
        obtain ⟨rfl, hs⟩ := Bool.and_eq_true_iff.mp hs
        obtain ⟨more, rfl⟩ := exists_of_startsWith_singleton (c := CodePoint.ofChar '@') rfl hs
        exact ⟨_, _, more, rfl, .atEscape⟩
      · cases hescape
    · -- Only the length of a reference is known; its body comes from that.
      obtain ⟨body, more, hreference, rfl, rfl⟩ := exists_reference hentity
      exact ⟨.entity, _, more, by simp, .reference hreference⟩
    · cases typed with
      | true =>
        simp only [if_true, Bool.or_eq_true, Bool.and_eq_true, decide_eq_true_eq] at hmarkup
        rcases hmarkup with ⟨rfl, hs⟩ | ⟨rfl, hs⟩
        · obtain ⟨more, rfl⟩ := exists_of_startsWith_singleton (c := CodePoint.ofChar '/') rfl hs
          exact ⟨_, _, _, rfl, .closingTag⟩
        · obtain ⟨more, rfl⟩ := exists_of_startsWith_singleton (c := CodePoint.ofChar '\x7b') rfl hs
          exact ⟨_, _, more, rfl, .interpolation⟩
      | false =>
        simp only [Bool.false_eq_true, if_false, Bool.or_eq_true, decide_eq_true_eq] at hmarkup
        rcases hmarkup with (rfl | rfl) | rfl
        · by_cases hcomment : Text.ofString "!--" <+: rest
          · obtain ⟨more, rfl⟩ := hcomment
            exact ⟨_, _, more, rfl, .comment⟩
          · exact ⟨_, _, rest, rfl, .angle hcomment⟩
        · exact ⟨_, _, rest, rfl, .openBrace⟩
        · exact ⟨_, _, rest, rfl, .closeBrace⟩

/-- The token at a mark is the one of its kind. -/
theorem kind_text_of_isMark {kind : TokenKind} {mark tail : Text}
    (h : IsMark hexLetters typed kind mark rest) (heq : mark ++ rest = c :: tail) :
    (text typed c tail).kind = kind ∧
      (kind ≠ .comment → (text typed c tail).length = mark.length) := by
  cases h with
  | @reference _ body _ isReference =>
    rw [List.cons_append, List.append_assoc, List.singleton_append] at heq
    obtain ⟨rfl, rfl⟩ := List.cons.inj heq
    have hlength := @entityLength_append rest body isReference
    have hescape : textEscape? typed '&' (body ++ CodePoint.ofChar ';' :: rest) = none := rfl
    simp only [text, hescape, hlength]
    simp
  | openEscape => cases heq; cases typed <;> exact ⟨rfl, fun _ => rfl⟩
  | closeEscape => cases heq; cases typed <;> exact ⟨rfl, fun _ => rfl⟩
  | atEscape => cases heq; exact ⟨rfl, fun _ => rfl⟩
  | interpolation => cases heq; exact ⟨rfl, fun _ => rfl⟩
  | closingTag => cases heq; exact ⟨rfl, fun _ => rfl⟩
  | comment =>
    cases heq
    refine ⟨?_, fun hne => absurd rfl hne⟩
    show (blockComment 3 "-->" rest).kind = .comment
    unfold blockComment
    split <;> rfl
  | angle noComment =>
    cases heq
    have hcomment : startsWith "!--" rest = false := by
      rw [startsWith, Bool.eq_false_iff]
      exact fun h => noComment (List.isPrefixOf_iff_prefix.mp h)
    have hmarkup : textMarkup? false '<' rest = some { kind := .lessThan, length := 1 } := by
      simp [textMarkup?, hcomment]
    show ((textMarkup? false '<' rest).getD (textRun false '<' rest)).kind = .lessThan ∧
      (_ → ((textMarkup? false '<' rest).getD (textRun false '<' rest)).length = 1)
    rw [hmarkup]
    exact ⟨rfl, fun _ => rfl⟩
  | openBrace => cases heq; exact ⟨rfl, fun _ => rfl⟩
  | closeBrace => cases heq; exact ⟨rfl, fun _ => rfl⟩

/-- Where no mark stands, a run of text is read. -/
theorem text_of_not_isMarked (h : ¬ IsMarked hexLetters typed (c :: rest)) :
    text typed c rest = textRun typed c rest := by
  rw [isMarked_iff, Bool.not_eq_true] at h
  exact text_eq_textRun h

/-- No mark stands inside a run of text. -/
theorem not_isMarked_of_lt_textLength (h : n < textLength typed t) :
    ¬ IsMarked hexLetters typed (t.drop n) := by
  induction t generalizing n with
  | nil => cases h
  | cons c rest ih =>
    unfold textLength at h
    split at h
    · cases h
    · rename_i hends
      cases n with
      | zero => exact fun hmarked => hends (isMarked_iff.mp hmarked)
      | succ n => exact ih (Nat.lt_of_succ_lt_succ h)

/-- It stops at a mark, or with the text. -/
theorem isMarked_drop_textLength :
    t.length = textLength typed t ∨ IsMarked hexLetters typed (t.drop (textLength typed t)) := by
  cases hdrop : t.drop (textLength typed t) with
  | nil => exact .inl (Nat.le_antisymm (List.drop_eq_nil_iff.mp hdrop) (textLength_le typed t))
  | cons d tail => exact .inr (isMarked_iff.mpr (endsText_of_drop_textLength hdrop))

end Lexeme

/-! ### The next mark -/

/-- From `start` on there is no mark in the source up to `stop`, where one
stands or the source ends. -/
structure Unmarked (letters : Text) (typed : Bool) (source : Text) (start stop : Nat) : Prop where
  lt : start < stop
  le : stop ≤ source.length
  plain : ∀ offset, start ≤ offset → offset < stop →
    ¬ IsMarked letters typed (source.drop offset)
  ends : stop = source.length ∨ IsMarked letters typed (source.drop stop)

namespace Unmarked

variable {letters : Text} {typed : Bool} {source : Text} {start start' stop stop' : Nat}

/-- A stretch without a mark does not go past the end of another one. -/
theorem le_stop (h : Unmarked letters typed source start stop)
    (h' : Unmarked letters typed source start' stop') (hle : start ≤ stop') : stop ≤ stop' := by
  by_contra hlt
  rcases h'.ends with hend | hmarked
  · have hstop := h.le
    omega
  · exact h.plain stop' hle (by omega) hmarked

/-- There is one next mark. -/
theorem stop_eq (h : Unmarked letters typed source start stop)
    (h' : Unmarked letters typed source start' stop') (hle : start ≤ start') (hlt : start' < stop) :
    stop = stop' := by
  have hlt' := h'.lt
  exact Nat.le_antisymm (h.le_stop h' (by omega)) (h'.le_stop h (by omega))

end Unmarked

/-! ### Tokens of a body of text -/

section Cut

variable {typed : Bool} {source : Text} {token : Token}
  (h : token.CutIn source (Lexeme.textContext typed))

include h

/-- A token at a mark is the one of its kind, and takes the mark and no
more, unless that only opens a comment. -/
theorem Token.CutIn.mark {kind : TokenKind} {mark rest : Text}
    (hmark : IsMark hexLetters typed kind mark rest)
    (hdrop : source.drop token.range.start = mark ++ rest) :
    token.kind = kind ∧
      (kind ≠ .comment → token.range.stop = token.range.start + mark.length) := by
  obtain ⟨c, tail, hcons, hkind, hstop⟩ := h
  rw [Lexeme.next_textContext] at hkind hstop
  obtain ⟨hsame, hlength⟩ := Lexeme.kind_text_of_isMark hmark (hdrop.symm.trans hcons)
  exact ⟨hkind.trans hsame, fun hne => by rw [hstop, hlength hne]⟩

/-- A token where no mark stands is part of the white space up to the next
mark, if there is nothing else, and otherwise it is all the text up to
there. -/
theorem Token.CutIn.run
    (hplain : ¬ IsMarked hexLetters typed (source.drop token.range.start)) :
    ∃ stop, Unmarked hexLetters typed source token.range.start stop ∧ token.range.stop ≤ stop ∧
      ((∀ c ∈ source.slice token.range.start stop, c.isWhitespace = true) ∧
          (token.kind = .whitespace ∨ token.kind = .newline) ∨
        (∃ c ∈ source.slice token.range.start stop, c.isWhitespace = false) ∧
          token.kind = .textChunk ∧ token.range.stop = stop) := by
  obtain ⟨c, rest, hcons, hkind, hstop⟩ := h
  rw [hcons] at hplain
  rw [Lexeme.next_textContext, Lexeme.text_of_not_isMarked hplain] at hkind hstop
  have hlength := congrArg List.length hcons
  rw [List.length_drop, List.length_cons] at hlength
  have hfits := Lexeme.textLength_le typed rest
  -- Behind the first character the source is the rest.
  have hdrop : ∀ n, source.drop (token.range.start + (n + 1)) = rest.drop n := by
    intro n
    rw [← List.drop_drop, hcons, List.drop_succ_cons]
  have hslice : source.slice token.range.start
      (token.range.start + (Lexeme.textLength typed rest + 1))
        = c :: rest.take (Lexeme.textLength typed rest) := by
    rw [Text.slice, Nat.add_sub_cancel_left, hcons, List.take_succ_cons]
  refine ⟨token.range.start + (Lexeme.textLength typed rest + 1), ⟨by omega, by omega, ?_, ?_⟩, ?_⟩
  · intro offset hle hlt
    rcases Nat.eq_or_lt_of_le hle with rfl | hbehind
    · rwa [hcons]
    · obtain ⟨n, rfl⟩ : ∃ n, offset = token.range.start + (n + 1) :=
        ⟨offset - token.range.start - 1, by omega⟩
      rw [hdrop]
      exact Lexeme.not_isMarked_of_lt_textLength (by omega)
  · rw [hdrop]
    exact Lexeme.isMarked_drop_textLength.imp_left fun hend => by omega
  · rw [hslice]
    unfold Lexeme.textRun at hkind hstop
    by_cases hwhite : (c :: rest.take (Lexeme.textLength typed rest)).all (·.isWhitespace) = true
    · simp only [hwhite, if_true] at hkind hstop
      have hseparator : (Lexeme.separator c rest).length ≤ Lexeme.textLength typed rest + 1 := by
        have hle := @Lexeme.length_separator_le c (rest.drop (Lexeme.textLength typed rest))
          (rest.take (Lexeme.textLength typed rest)) ?_
        · rwa [List.take_append_drop, List.length_take_of_le hfits] at hle
        · intro d hd
          obtain ⟨tail, htail⟩ := List.head?_eq_some_iff.mp hd
          have hends := Lexeme.endsText_of_drop_textLength htail
          by_contra hblank
          rw [Lexeme.endsText_of_isWhitespace (Bool.eq_true_of_not_eq_false hblank)] at hends
          cases hends
      refine ⟨by omega, .inl ⟨List.all_eq_true.mp hwhite, ?_⟩⟩
      rw [hkind]
      unfold Lexeme.separator
      split
      · exact .inr rfl
      · exact .inl rfl
    · simp only [hwhite, Bool.false_eq_true, if_false] at hkind hstop
      rw [List.all_eq_true, not_forall] at hwhite
      obtain ⟨d, hd⟩ := hwhite
      rw [Classical.not_imp, Bool.not_eq_true] at hd
      exact ⟨Nat.le_of_eq hstop, .inr ⟨⟨d, hd⟩, hkind, hstop⟩⟩

end Cut

/-! ### Neighbours in a chain of tokens -/

namespace Token.Chain

variable {tokens : List Token} {token : Token} {start stop : Nat}

/-- A chain of tokens that is not empty has one at its start. -/
theorem exists_first (h : Chain start tokens stop) (hne : start ≠ stop) :
    ∃ first ∈ tokens, first.range.start = start := by
  cases tokens with
  | nil => exact absurd h hne
  | cons first rest => exact ⟨first, List.mem_cons_self, h.1⟩

/-- Behind each token but the last one there is another one. -/
theorem exists_next (h : Chain start tokens stop) (hmem : token ∈ tokens)
    (hne : token.range.stop ≠ stop) : ∃ next ∈ tokens, next.range.start = token.range.stop := by
  induction tokens generalizing start with
  | nil => cases hmem
  | cons first rest ih =>
    rcases List.mem_cons.mp hmem with rfl | hmem
    · obtain ⟨next, hnext, hstart⟩ := h.2.exists_first hne
      exact ⟨next, List.mem_cons_of_mem _ hnext, hstart⟩
    · obtain ⟨next, hnext, hstart⟩ := ih h.2 hmem
      exact ⟨next, List.mem_cons_of_mem _ hnext, hstart⟩

/-- In front of each token but the first one there is another one. -/
theorem exists_previous (h : Chain start tokens stop) (hmem : token ∈ tokens)
    (hne : token.range.start ≠ start) :
    ∃ previous ∈ tokens, previous.range.stop = token.range.start := by
  induction tokens generalizing start with
  | nil => cases hmem
  | cons first rest ih =>
    rcases List.mem_cons.mp hmem with rfl | hmem
    · exact absurd h.1 hne
    · by_cases hsecond : token.range.start = first.range.stop
      · exact ⟨first, List.mem_cons_self, hsecond.symm⟩
      · obtain ⟨previous, hprevious, hstop⟩ := ih h.2 hmem hsecond
        exact ⟨previous, List.mem_cons_of_mem _ hprevious, hstop⟩

end Token.Chain

/-! ### Runs of text -/

/-- A maximal stretch of the source without a mark: it starts with the
source or behind a token at a mark, and goes up to the next mark. -/
structure Stretch (letters : Text) (typed : Bool) (source : Text) (tokens : List Token)
    (start stop : Nat) : Prop extends Unmarked letters typed source start stop where
  fresh : start = 0 ∨ ∃ token ∈ tokens, IsMarked letters typed (source.drop token.range.start) ∧
    token.range.stop = start

/-- The kinds of tokens inside of which a mark can start. -/
def compoundKinds : List TokenKind :=
  [.comment, .entity, .escapedLBrace, .escapedRBrace, .escapedAt, .atLBrace]

/-- The tokens of a body of text are its marks and the maximal stretches
between them. -/
structure TextRuns (letters : Text) (typed : Bool) (source : Text) (tokens : List Token) :
    Prop where
  contiguous : Token.Chain 0 tokens source.length
  /-- No other token goes over a mark. -/
  inside : ∀ token ∈ tokens, ∀ offset, token.range.start < offset → offset < token.range.stop →
    IsMarked letters typed (source.drop offset) → token.kind ∈ compoundKinds
  /-- A token at a mark is the mark. -/
  marked : ∀ token ∈ tokens, ∀ kind mark rest, IsMark letters typed kind mark rest →
    source.drop token.range.start = mark ++ rest →
      token.kind = kind ∧ (kind ≠ .comment → source.sliceRange token.range = mark)
  /-- A stretch that is not all white space is one token. -/
  chunk : ∀ start stop, Stretch letters typed source tokens start stop →
    (∃ c ∈ source.slice start stop, c.isWhitespace = false) →
      ∃ token ∈ tokens, token.kind = .textChunk ∧ token.range.start = start ∧
        token.range.stop = stop
  /-- Other stretches have no tokens but white space. -/
  white : ∀ start stop, Stretch letters typed source tokens start stop →
    (∀ c ∈ source.slice start stop, c.isWhitespace = true) →
      ∀ token ∈ tokens, start ≤ token.range.start → token.range.start < stop →
        (token.kind = .whitespace ∨ token.kind = .newline) ∧ token.range.stop ≤ stop
  /-- Each token of text is such a stretch. -/
  stretch : ∀ token ∈ tokens, token.kind = .textChunk →
    Stretch letters typed source tokens token.range.start token.range.stop
  /-- No two of them are neighbours. -/
  apart : ∀ token ∈ tokens, ∀ next ∈ tokens, token.range.stop = next.range.start →
    ¬(token.kind = .textChunk ∧ next.kind = .textChunk)

section Marks

variable {letters : Text} {typed : Bool} {kind : TokenKind} {mark rest : Text}

/-- A mark inside of which no other one can start is one character. -/
theorem IsMark.compound_or_length_eq_one (h : IsMark letters typed kind mark rest) :
    kind ∈ compoundKinds ∨ kind ≠ .comment ∧ mark.length = 1 := by
  cases h <;> simp [compoundKinds]

/-- No mark is a chunk of text. -/
theorem IsMark.kind_ne_textChunk (h : IsMark letters typed kind mark rest) : kind ≠ .textChunk := by
  cases h <;> decide

/-- No mark stands at the end of the source. -/
theorem not_isMarked_nil : ¬ IsMarked letters typed [] := by
  rintro ⟨kind, mark, rest, hnil, hmark⟩
  cases hmark <;> cases hnil

end Marks

/-- A slice that starts later holds no other characters. -/
theorem Text.slice_subset {t : Text} {start start' stop : Nat} (hle : start ≤ start') :
    t.slice start' stop ⊆ t.slice start stop := by
  have hslice : t.slice start' stop = (t.slice start stop).drop (start' - start) := by
    rw [Text.slice, Text.slice, List.drop_take, List.drop_drop]
    congr 1 <;> [skip; congr 1] <;> omega
  rw [hslice]
  exact List.drop_subset _ _

/-- The tokens of a body of text, up to the end of the source. -/
structure Token.Body (typed : Bool) (source : Text) (tokens : List Token) : Prop where
  chain : Chain 0 tokens source.length
  cut : ∀ token ∈ tokens, token.kind ≠ .eof → token.CutIn source (Lexeme.textContext typed)
  ends : ∀ token ∈ tokens, token.kind = .eof → token.range = .empty source.length

namespace Token.Body

variable {typed : Bool} {source : Text} {tokens : List Token} {token : Token} {start stop : Nat}
  (h : Token.Body typed source tokens)

include h

/-- A token that starts inside the source is not its end. -/
theorem cutIn (hmem : token ∈ tokens) (hlt : token.range.start < source.length) :
    token.CutIn source (Lexeme.textContext typed) := by
  apply h.cut token hmem
  intro heof
  rw [h.ends token hmem heof] at hlt
  exact Nat.lt_irrefl _ hlt

/-- A token starts where a stretch does. -/
theorem exists_start (hstretch : Stretch hexLetters typed source tokens start stop) :
    ∃ token ∈ tokens, token.range.start = start := by
  have hlt := hstretch.lt
  have hle := hstretch.le
  rcases hstretch.fresh with rfl | ⟨token, hmem, -, rfl⟩
  · exact h.chain.exists_first (by omega)
  · exact h.chain.exists_next hmem (by omega)

/-- What is read inside of a stretch is read of its rest. -/
theorem run_of_stretch (hstretch : Stretch hexLetters typed source tokens start stop)
    (hmem : token ∈ tokens) (hle : start ≤ token.range.start) (hlt : token.range.start < stop) :
    token.range.stop ≤ stop ∧
      ((∀ c ∈ source.slice token.range.start stop, c.isWhitespace = true) ∧
          (token.kind = .whitespace ∨ token.kind = .newline) ∨
        (∃ c ∈ source.slice token.range.start stop, c.isWhitespace = false) ∧
          token.kind = .textChunk ∧ token.range.stop = stop) := by
  have hcut := h.cutIn hmem (Nat.lt_of_lt_of_le hlt hstretch.le)
  obtain ⟨stop', hunmarked, hrun⟩ := hcut.run (hstretch.plain _ hle hlt)
  rwa [← hstretch.stop_eq hunmarked hle hlt] at hrun

/-- A mark can start inside a token only if the token is of a compound kind, as
the opener of a comment inside a comment. -/
theorem inside (hmem : token ∈ tokens) {offset : Nat} (hstart : token.range.start < offset)
    (hstop : offset < token.range.stop) (hmarked : IsMarked hexLetters typed (source.drop offset)) :
    token.kind ∈ compoundKinds := by
  have hcut : token.CutIn source (Lexeme.textContext typed) := by
    apply h.cut token hmem
    intro heof
    rw [h.ends token hmem heof] at hstart hstop
    exact Nat.lt_asymm hstart hstop
  by_cases hfront : IsMarked hexLetters typed (source.drop token.range.start)
  · obtain ⟨kind, mark, rest, hdrop, hmark⟩ := hfront
    obtain ⟨hkind, hlength⟩ := hcut.mark hmark hdrop
    rcases hmark.compound_or_length_eq_one with hcompound | ⟨hne, hone⟩
    · rwa [hkind]
    · have := hlength hne
      omega
  · obtain ⟨stop, hunmarked, hle, -⟩ := hcut.run hfront
    exact absurd hmarked (hunmarked.plain offset (by omega) (by omega))

/-- In front of text there is a mark: the token before would go on with the
text up to its end, or, as white space, would be text itself. -/
theorem fresh (hmem : token ∈ tokens)
    (hunmarked : Unmarked hexLetters typed source token.range.start stop)
    (hblack : ∃ c ∈ source.slice token.range.start stop, c.isWhitespace = false) :
    token.range.start = 0 ∨ ∃ previous ∈ tokens,
      IsMarked hexLetters typed (source.drop previous.range.start) ∧
        previous.range.stop = token.range.start := by
  have hlt := hunmarked.lt
  have hle := hunmarked.le
  by_cases hzero : token.range.start = 0
  · exact .inl hzero
  right
  obtain ⟨previous, hprevious, hneighbour⟩ := h.chain.exists_previous hmem hzero
  refine ⟨previous, hprevious, ?_, hneighbour⟩
  by_contra hfront
  have hstart := previous.range.start_le_stop
  obtain ⟨stop', hunmarked', hends, hrun⟩ := (h.cutIn hprevious (by omega)).run hfront
  by_cases hinside : token.range.start < stop'
  · -- Both tokens are in front of the same mark.
    have hsame := hunmarked'.stop_eq hunmarked (by omega) hinside
    rcases hrun with ⟨hwhite, -⟩ | ⟨-, -, hend⟩
    · obtain ⟨c, hc, hblack⟩ := hblack
      rw [hsame] at hwhite
      rw [hwhite c (Text.slice_subset (by omega) hc)] at hblack
      cases hblack
    · omega
  · -- The next mark is where the token starts, but there is none.
    have hend : stop' = token.range.start := by omega
    rcases hunmarked'.ends with hlength | hmarked
    · omega
    · rw [hend] at hmarked
      exact hunmarked.plain _ (Nat.le_refl _) hlt hmarked

/-- A token of text is a stretch. -/
theorem stretch (hmem : token ∈ tokens) (hkind : token.kind = .textChunk) :
    Stretch hexLetters typed source tokens token.range.start token.range.stop := by
  have hcut := h.cut token hmem (by rw [hkind]; decide)
  have hplain : ¬ IsMarked hexLetters typed (source.drop token.range.start) := by
    rintro ⟨kind, mark, rest, hdrop, hmark⟩
    exact hmark.kind_ne_textChunk ((hcut.mark hmark hdrop).1.symm.trans hkind)
  obtain ⟨stop, hunmarked, -, hrun⟩ := hcut.run hplain
  rcases hrun with ⟨-, hwhite⟩ | ⟨hblack, -, hstop⟩
  · rw [hkind] at hwhite
    rcases hwhite with hwhite | hwhite <;> cases hwhite
  · rw [hstop]
    exact ⟨hunmarked, h.fresh hmem hunmarked hblack⟩

/-- Tokens that are read of a body of text are its marks and the maximal
stretches between them. -/
theorem textRuns : TextRuns hexLetters typed source tokens where
  contiguous := h.chain
  inside _ hmem _ hstart hstop hmarked := h.inside hmem hstart hstop hmarked
  marked token hmem kind mark rest hmark hdrop := by
    -- The end of the source stands at no mark.
    have hne : token.kind ≠ .eof := by
      intro heof
      rw [h.ends token hmem heof, TextRange.empty, List.drop_length] at hdrop
      exact not_isMarked_nil ⟨kind, mark, rest, hdrop, hmark⟩
    obtain ⟨hkind, hlength⟩ := (h.cut token hmem hne).mark hmark hdrop
    refine ⟨hkind, fun hcomment => ?_⟩
    rw [Text.sliceRange, Text.slice, hlength hcomment, Nat.add_sub_cancel_left, hdrop,
      List.take_left]
  chunk start stop hstretch hblack := by
    obtain ⟨token, hmem, rfl⟩ := h.exists_start hstretch
    refine ⟨token, hmem, ?_⟩
    rcases (h.run_of_stretch hstretch hmem (Nat.le_refl _) hstretch.lt).2 with
      ⟨hwhite, -⟩ | ⟨-, hkind, hstop⟩
    · obtain ⟨c, hc, hblack⟩ := hblack
      rw [hwhite c hc] at hblack
      cases hblack
    · exact ⟨hkind, rfl, hstop⟩
  white start stop hstretch hwhite token hmem hle hlt := by
    obtain ⟨hstop, ⟨-, hkind⟩ | ⟨⟨c, hc, hblack⟩, -⟩⟩ := h.run_of_stretch hstretch hmem hle hlt
    · exact ⟨hkind, hstop⟩
    · rw [hwhite c (Text.slice_subset hle hc)] at hblack
      cases hblack
  stretch _ hmem hkind := h.stretch hmem hkind
  apart token hmem next hnext hneighbour hboth := by
    -- Of two neighbours that are both text, the front one would have gone on.
    have hfront := h.stretch hmem hboth.1
    have hbehind := h.stretch hnext hboth.2
    have hlt := hbehind.lt
    have hle := hbehind.le
    rcases hfront.ends with hend | hmarked
    · omega
    · rw [hneighbour] at hmarked
      exact hbehind.plain _ (Nat.le_refl _) hlt hmarked

end Token.Body

/-- The tokens of a source that is read as a body of text are its marks and
the maximal stretches between them, in plain and in typed text. -/
theorem Lexer.textRuns_tokens (typed : Bool) (source file : Text) :
    TextRuns hexLetters typed source
      ((ofSource source file).tokens (Lexeme.textContext typed)).1 := by
  apply Token.Body.textRuns
  have enough := suffices_ofSource source file
  have hreads := reads_take (Lexeme.textContext typed) (source.length + 1) (ofSource source file)
  refine ⟨?_, fun token hmem hkind => ?_, fun token hmem heof => ?_⟩
  · have hchain := hreads.chain
    have hmap : ∀ tokens : List Token,
        (tokens.map (Lexeme.textContext typed, ·)).map (·.2) = tokens := by simp
    rwa [hmap, position_take enough] at hchain
  · exact hreads.cutIn _ (List.mem_map_of_mem hmem) hkind
  · exact range_of_mem_take enough.1 hmem heof

/-- Fewer letters make fewer marks. -/
theorem IsMarked.mono {letters letters' : Text} {typed : Bool} {t : Text} (hsub : letters ⊆ letters')
    (h : IsMarked letters typed t) : IsMarked letters' typed t := by
  obtain ⟨kind, mark, rest, ht, hmark⟩ := h
  refine ⟨kind, mark, rest, ht, ?_⟩
  cases hmark with
  | reference isReference =>
    refine .reference ?_
    cases isReference with
    | name first others => exact .name first others
    | decimal nonempty isDigit => exact .decimal nonempty isDigit
    | hexadecimal hx nonempty isHexDigit => exact .hexadecimal (hsub hx) nonempty isHexDigit
  | openEscape => exact .openEscape
  | closeEscape => exact .closeEscape
  | atEscape => exact .atEscape
  | interpolation => exact .interpolation
  | closingTag => exact .closingTag
  | comment => exact .comment
  | angle noComment => exact .angle noComment
  | openBrace => exact .openBrace
  | closeBrace => exact .closeBrace

/-- It is not enough to know `x`: the lexer takes `&#X41;` for a character
reference, and not for text. -/
theorem Lexer.not_textRuns_tokens_of_x :
    ¬ TextRuns ['x'] false "&#X41;"
      ((ofSource "&#X41;" []).tokens (Lexeme.textContext false)).1 := by
  intro h
  -- With the small letter alone the text is no reference, so it has no mark.
  have hfront : ¬ IsMarked ['x'] false ['&', '#', 'X', '4', '1', ';'] := by
    rintro ⟨kind, mark, rest, heq, hmark⟩
    cases hmark with
    | reference isReference =>
      cases isReference with
      | name first =>
        obtain ⟨rfl, -⟩ := List.cons.inj (List.cons.inj heq).2
        cases first
      | decimal nonempty isDigit =>
        obtain ⟨d, digits, rfl⟩ := List.exists_cons_of_ne_nil nonempty
        obtain ⟨rfl, -⟩ := List.cons.inj (List.cons.inj (List.cons.inj heq).2).2
        have hdigit := isDigit 'X' List.mem_cons_self
        cases hdigit
      | hexadecimal hx =>
        obtain ⟨rfl, -⟩ := List.cons.inj (List.cons.inj (List.cons.inj heq).2).2
        cases List.mem_singleton.mp hx
    | _ => cases heq
  have hstretch : Stretch ['x'] false "&#X41;"
      ((ofSource "&#X41;" []).tokens (Lexeme.textContext false)).1 0 6 := by
    refine ⟨⟨by decide, by decide, fun offset _ hlt => ?_, .inl (by decide)⟩, .inl rfl⟩
    cases offset with
    | zero => exact hfront
    | succ offset =>
      have hlength : Lexeme.textLength false ['#', 'X', '4', '1', ';'] = 5 := by decide +kernel
      have hbehind := @Lexeme.not_isMarked_of_lt_textLength false ['#', 'X', '4', '1', ';'] offset
        (by omega)
      exact fun hmarked => hbehind (hmarked.mono (by decide))
  obtain ⟨token, hmem, hkind, -⟩ := h.chunk 0 6 hstretch ⟨'&', by decide, by decide⟩
  -- The lexer reads it as one, so no token is a chunk.
  have hkinds : ∀ token ∈ ((ofSource "&#X41;" []).tokens (Lexeme.textContext false)).1,
      token.kind ≠ .textChunk := by decide +kernel
  exact hkinds token hmem hkind

end MarkupSyntax
