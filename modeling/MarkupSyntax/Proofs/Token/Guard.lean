import MarkupSyntax.Proofs.Token.Ends

/-!
# `MarkupSyntax.Proofs.Token.Guard`: braces behind backslashes

Text that is read as code by mistake has each of its braces behind a
backslash. A backslash is no code, so a brace cannot be read there without
an error in front of it (`Lexer.Reads.exists_defect`).

The reason is one fact about lexemes (`Lexeme.guards_next`): in whichever
context a text is read, a lexeme that ends with a backslash in front of a
`{` is an invalid character, since no rule parts the two characters
(`Lexeme.apart_slash`).
-/

set_option autoImplicit false

namespace MarkupSyntax

namespace Lexeme

/-! ### Lexemes in front of a brace -/

/-- Where the lexeme ends with a backslash and a `{` follows, the
backslash is an invalid character. -/
def Guards (lexeme : Lexeme) (t : Text) : Prop :=
  (t.take lexeme.length).getLast? = some (CodePoint.ofChar '\\') →
    (t.drop lexeme.length).head? = some (CodePoint.ofChar '\x7b') →
    lexeme.kind = .skipped ∧ lexeme.problem = some .invalidCharacter

variable {lexeme : Lexeme} {c : CodePoint} {rest t : Text}

/-- A backslash in front of a `{` is an escape with it. -/
theorem textEscape?_slash (typed : Bool) (rest : Text) :
    textEscape? typed '\\' (CodePoint.ofChar '\x7b' :: rest) = some .escapedLBrace := rfl

/-- A run of text does not stop between a backslash and a `{`. The
induction passes from one character of the run to the next. -/
theorem getLast?_take_textLength {typed : Bool} (hescape : textEscape? typed c rest = none)
    (hnext : (rest.drop (textLength typed rest)).head? = some (CodePoint.ofChar '\x7b')) :
    (c :: rest.take (textLength typed rest)).getLast? ≠ some (CodePoint.ofChar '\\') := by
  induction rest generalizing c with
  | nil => cases hnext
  | cons d rest ih =>
    unfold textLength at hnext ⊢
    split
    · rename_i hends
      rw [if_pos hends] at hnext
      intro hlast
      rw [show c = _ from Option.some.inj hlast, show d = _ from Option.some.inj hnext,
        textEscape?_slash] at hescape
      cases hescape
    · rename_i hends
      rw [if_neg hends, List.drop_succ_cons] at hnext
      rw [List.take_succ_cons, List.getLast?_cons_cons]
      refine ih ?_ hnext
      simp only [endsText, Bool.or_eq_true, not_or] at hends
      simpa using hends.1.1

/-- Nothing parts a backslash from a brace but an error: text makes an
escape of both. -/
theorem apart_slash : Apart '\\' '\x7b' where
  last := by decide
  next := by decide
  line := .inr (by decide)
  separator c rest hwhite :=
    not_stopsBetween_of_forall (by decide) (isWhitespace_of_mem_separator hwhite)
  run typed c rest hescape := by
    unfold textRun
    simp only
    split
    · rename_i hwhite
      have hc := List.all_eq_true.mp hwhite c List.mem_cons_self
      exact not_stopsBetween_of_forall (by decide) (isWhitespace_of_mem_separator hc)
    · intro hstops
      exact getLast?_take_textLength hescape hstops.next hstops.last

/-- In every context a backslash at the end of a lexeme that a `{`
follows is an invalid character. -/
theorem guards_next (context : LexContext) (c : CodePoint) (rest : Text) :
    (next context c rest).Guards (c :: rest) := by
  intro hlast hnext
  have hskips := stopsBetween_next apart_slash ⟨hlast, hnext⟩
  exact ⟨hskips.kind, hskips.problem⟩

/-! ### First characters -/

/-- The lexeme is a brace, an angle bracket or white space only where one
stands. -/
structure Opens (lexeme : Lexeme) (c : CodePoint) : Prop where
  brace : lexeme.kind = .lBrace → c = CodePoint.ofChar '\x7b'
  angle : lexeme.kind = .lessThan → c = CodePoint.ofChar '<'
  white : lexeme.kind = .whitespace ∨ lexeme.kind = .newline → c.isWhitespace = true

/-- The kinds that tell the first character. -/
def openKinds : List TokenKind := [.lBrace, .lessThan, .whitespace, .newline]

/-- The other kinds tell nothing. -/
theorem opens_of_notMem (h : lexeme.kind ∉ openKinds) : lexeme.Opens c := by
  simp only [openKinds, List.mem_cons, List.not_mem_nil, or_false, not_or] at h
  obtain ⟨hbrace, hangle, hspace, hbreak⟩ := h
  exact ⟨fun hkind => absurd hkind hbrace, fun hkind => absurd hkind hangle,
    fun hkind => (hkind.elim hspace hbreak).elim⟩

/-- For a lexeme that is a brace it is enough to know its first character. -/
theorem opens_brace (hkind : lexeme.kind = .lBrace) (hc : c = CodePoint.ofChar '\x7b') :
    lexeme.Opens c := by
  refine ⟨fun _ => hc, ?_, ?_⟩ <;> rw [hkind]
  · exact fun h => absurd h (by decide)
  · exact fun h => absurd h (by decide)

/-- For a lexeme that is an angle bracket it is enough to know its first
character. -/
theorem opens_angle (hkind : lexeme.kind = .lessThan) (hc : c = CodePoint.ofChar '<') :
    lexeme.Opens c := by
  refine ⟨?_, fun _ => hc, ?_⟩ <;> rw [hkind]
  · exact fun h => absurd h (by decide)
  · exact fun h => absurd h (by decide)

/-- A separator is white space, which its first character is. -/
theorem opens_separator (hwhite : c.isWhitespace = true) : (separator c rest).Opens c := by
  have hkind : (separator c rest).kind = .whitespace ∨ (separator c rest).kind = .newline := by
    unfold separator
    split
    · exact .inr rfl
    · exact .inl rfl
  refine ⟨?_, ?_, fun _ => hwhite⟩ <;> rcases hkind with hkind | hkind <;> rw [hkind] <;>
    exact fun h => absurd h (by decide)

/-- A comment is none of the four kinds that tell the first character. -/
theorem opens_blockComment {opener : Nat} {terminator : String} {body : Text} :
    (blockComment opener terminator body).Opens c := by
  unfold blockComment
  split <;> exact opens_of_notMem (show TokenKind.comment ∉ openKinds by decide)

/-- A number is none of the four kinds that tell the first character. -/
theorem opens_number : (number c rest).Opens c := by
  simp only [number]
  split
  · exact opens_of_notMem (show TokenKind.hex ∉ openKinds by decide)
  · split
    · exact opens_of_notMem (show TokenKind.int ∉ openKinds by decide)
    · exact opens_of_notMem (show TokenKind.real ∉ openKinds by decide)

/-- A name or a keyword is none of the four kinds that tell the first
character. -/
theorem opens_name {inTag : Bool} : (name inTag c rest).Opens c := by
  refine opens_of_notMem ?_
  simp only [name]
  split
  · decide
  · cases hword : TokenKind.ofKeyword? (c :: rest.takeWhile (continuesName inTag)) with
    | none => decide
    | some kind =>
      have hall : ∀ kind ∈ TokenKind.reserved, kind ∉ openKinds := by decide
      exact hall kind (List.mem_of_find?_eq_some hword)

/-- A mark that is a brace or an angle bracket is so by the table of the marks
of one character, which has each of them once. -/
theorem opens_mark {inTag : Bool} : (mark inTag c rest).Opens c := by
  unfold mark
  split
  · rename_i kind hkind
    split at hkind
    · cases hkind
    · obtain ⟨entry, hentry, rfl⟩ := Option.map_eq_some_iff.mp hkind
      have hall : ∀ entry ∈ pairs, entry.2.2 ∉ openKinds := by decide
      exact opens_of_notMem (hall entry (List.mem_of_find?_eq_some hentry))
  · split
    · rename_i kind hkind
      obtain ⟨entry, hentry, rfl⟩ := Option.map_eq_some_iff.mp hkind
      have hall : ∀ entry ∈ singles, (entry.2 = .lBrace → entry.1 = '\x7b') ∧
          (entry.2 = .lessThan → entry.1 = '<') ∧ entry.2 ≠ .whitespace ∧ entry.2 ≠ .newline := by
        decide
      obtain ⟨hbrace, hangle, hspace, hbreak⟩ := hall entry (List.mem_of_find?_eq_some hentry)
      have hsame := List.find?_some hentry
      simp only [decide_eq_true_eq] at hsame
      exact ⟨fun h => by rw [hsame, hbrace h], fun h => by rw [hsame, hangle h],
        fun h => (h.elim hspace hbreak).elim⟩
    · exact opens_of_notMem (show TokenKind.skipped ∉ openKinds by decide)

/-- In code every lexeme tells its first character, by the cases in which the
lexer reads it. -/
theorem opens_code (inTag : Bool) (c : CodePoint) (rest : Text) : (code inTag c rest).Opens c := by
  unfold code
  split
  · rename_i hwhite
    exact opens_separator hwhite
  split
  · exact opens_of_notMem (show TokenKind.comment ∉ openKinds by decide)
  split
  · exact opens_blockComment
  split
  · exact opens_blockComment
  split
  · exact opens_of_notMem (show TokenKind.string ∉ openKinds by decide)
  split
  · exact opens_number
  split
  · exact opens_name
  · exact opens_mark

/-- The markup that ends a run of text tells its first character. -/
theorem opens_textMarkup {typed : Bool} (h : textMarkup? typed c rest = some lexeme) :
    lexeme.Opens c := by
  unfold textMarkup? at h
  split at h
  · split at h
    · cases h
      exact opens_of_notMem (show TokenKind.atLBrace ∉ openKinds by decide)
    split at h
    · rename_i hs
      simp only [Bool.and_eq_true, decide_eq_true_eq] at hs
      cases h
      exact opens_angle rfl hs.1
    · cases h
  · split at h
    · cases h
      exact opens_blockComment
    split at h
    · rename_i hc
      cases h
      exact opens_angle rfl hc
    split at h
    · rename_i hc
      cases h
      exact opens_brace rfl hc
    split at h
    · cases h
      exact opens_of_notMem (show TokenKind.rBrace ∉ openKinds by decide)
    · cases h

/-- In text every lexeme tells its first character. A brace that is escaped is a
token of its own kind, which is no brace. -/
theorem opens_text (typed : Bool) (c : CodePoint) (rest : Text) : (text typed c rest).Opens c := by
  unfold text
  split
  · rename_i kind hkind
    have hall : ∀ kind ∈ [TokenKind.escapedLBrace, .escapedRBrace, .escapedAt],
        kind ∉ openKinds := by decide
    exact opens_of_notMem (hall kind (of_textEscape?_eq_some hkind).1)
  · split
    · exact opens_of_notMem (show TokenKind.entity ∉ openKinds by decide)
    · cases hmarkup : textMarkup? typed c rest with
      | none =>
        show (textRun typed c rest).Opens c
        unfold textRun
        simp only
        split
        · rename_i hwhite
          exact opens_separator (List.all_eq_true.mp hwhite c List.mem_cons_self)
        · exact opens_of_notMem (show TokenKind.textChunk ∉ openKinds by decide)
      | some lexeme => exact opens_textMarkup hmarkup

/-- In every context a brace, an angle bracket and white space start with
the character that they are. -/
theorem opens_next (context : LexContext) (c : CodePoint) (rest : Text) :
    (next context c rest).Opens c := by
  cases context with
  | normal => exact opens_code false c rest
  | tag => exact opens_code true c rest
  | text => exact opens_text false c rest
  | typedText => exact opens_text true c rest
  | raw tag =>
    show (raw tag c rest).Opens c
    unfold raw
    split
    · rename_i hends
      exact opens_angle rfl (Option.some.inj (head?_of_endsRaw hends))
    · split <;> exact opens_of_notMem (show TokenKind.rawTextChunk ∉ openKinds by decide)

end Lexeme

/-! ### Guarded texts -/

/-- Every `{` of the text stands right behind a backslash. -/
def Text.Guarded (t : Text) : Prop :=
  ∀ front behind : Text, t = front ++ CodePoint.ofChar '\x7b' :: behind →
    front.getLast? = some (CodePoint.ofChar '\\')

namespace Text.Guarded

variable {t : Text}

/-- A text without a brace is guarded. -/
theorem of_notMem (h : CodePoint.ofChar '\x7b' ∉ t) : t.Guarded := by
  rintro front behind rfl
  exact absurd (List.mem_append_right _ List.mem_cons_self) h

/-- A guarded text does not start with a `{`. -/
theorem head?_ne (h : t.Guarded) : t.head? ≠ some (CodePoint.ofChar '\x7b') := by
  intro hhead
  obtain ⟨rest, rfl⟩ := List.head?_eq_some_iff.mp hhead
  cases h [] rest rfl

/-- Two guarded texts make a guarded text: what stands in front of a brace of
the second one ends as its own front does, and that front is not empty. -/
theorem append {t' : Text} (h : t.Guarded) (h' : t'.Guarded) : Text.Guarded (t ++ t') := by
  intro front behind hsplit
  rcases List.append_eq_append_iff.mp hsplit with ⟨middle, rfl, hmiddle⟩ | ⟨middle, rfl, hmiddle⟩
  · have hfront := h' middle behind hmiddle
    rw [List.getLast?_append, hfront]
    rfl
  · cases middle with
    | nil => exact absurd (congrArg List.head? hmiddle).symm h'.head?_ne
    | cons d middle =>
      obtain ⟨rfl, -⟩ := List.cons.inj hmiddle
      exact h front middle rfl

/-- A backslash stands in front of a place where a `{` is. -/
theorem getLast?_take (h : t.Guarded) {n : Nat}
    (hnext : (t.drop n).head? = some (CodePoint.ofChar '\x7b')) :
    (t.take n).getLast? = some (CodePoint.ofChar '\\') := by
  obtain ⟨rest, hrest⟩ := List.head?_eq_some_iff.mp hnext
  exact h (t.take n) rest (by rw [← hrest, List.take_append_drop])

/-- A part at the end is guarded if it does not start with a `{`. -/
theorem drop (h : t.Guarded) {n : Nat}
    (hnext : (t.drop n).head? ≠ some (CodePoint.ofChar '\x7b')) : Text.Guarded (t.drop n) := by
  intro front behind hsplit
  have hfront := h (t.take n ++ front) behind (by
    rw [List.append_assoc, ← hsplit, List.take_append_drop])
  rw [List.getLast?_append] at hfront
  cases hlast : front.getLast? with
  | some d => rwa [hlast] at hfront
  | none =>
    rw [List.getLast?_eq_none_iff.mp hlast] at hsplit
    rw [hsplit] at hnext
    exact absurd rfl hnext

end Text.Guarded

namespace Lexer

variable {L L' : Lexer} {items : List (LexContext × Token)}

/-- A step leaves the text behind its lexeme. -/
theorem behind_next {c : CodePoint} {rest : Text} {context : LexContext}
    (h : L.behind = c :: rest) :
    (L.next context).behind = (c :: rest).drop (Lexeme.next context c rest).length := by
  obtain ⟨-, hrange, -⟩ := @next_of_drop_eq L context c rest h
  have hposition :
      (L.next context).position = L.position + (Lexeme.next context c rest).length := by
    show (L.next context).current.range.stop = _
    rw [hrange]
    rfl
  rw [behind, hposition, next_source, ← List.drop_drop, ← h]
  rfl

/-- The tokens of a run start where it starts or later. -/
theorem Reads.position_le_start (h : L.Reads items L') :
    ∀ item ∈ items, L.position ≤ item.2.range.start := by
  induction h with
  | refl L => simp
  | @step L L' items context _ ih =>
    intro item hmem
    rcases List.mem_cons.mp hmem with rfl | hmem
    · exact Nat.le_of_eq start_next.symm
    · exact Nat.le_trans position_le_next (ih item hmem)

/-- In front of a guarded text no brace is read. -/
theorem kind_next_ne_lBrace {context : LexContext} (hguarded : L.behind.Guarded) :
    (L.next context).current.kind ≠ .lBrace := by
  intro hbrace
  cases hbehind : L.behind with
  | nil =>
    rw [@next_of_length_le L context (List.drop_eq_nil_iff.mp hbehind)] at hbrace
    cases hbrace
  | cons c rest =>
    rw [(@next_of_drop_eq L context c rest hbehind).1] at hbrace
    refine hguarded.head?_ne ?_
    rw [hbehind, (Lexeme.opens_next context c rest).brace hbrace]
    rfl

/-- Behind a lexeme a guarded text is guarded again, unless the lexeme is
an invalid character, which is reported. -/
theorem guarded_next_or_defect (context : LexContext) (hguarded : L.behind.Guarded) :
    (L.next context).behind.Guarded ∨ (L.next context).current.kind = .skipped ∧
      ∃ diagnostic, (L.next context).current.defect? L.source L.file = some diagnostic ∧
        diagnostic.range.start = L.position := by
  cases hbehind : L.behind with
  | nil =>
    left
    rw [@next_of_length_le L context (List.drop_eq_nil_iff.mp hbehind)]
    exact hguarded
  | cons c rest =>
    obtain ⟨hkind, -, hdiagnostics⟩ := @next_of_drop_eq L context c rest hbehind
    rw [behind_next hbehind]
    rw [hbehind] at hguarded
    -- Only a lexeme that stops right in front of a brace can break the condition.
    by_cases hbrace : ((c :: rest).drop (Lexeme.next context c rest).length).head?
        = some (CodePoint.ofChar '\x7b')
    · right
      obtain ⟨hskipped, hproblem⟩ :=
        Lexeme.guards_next context c rest (hguarded.getLast?_take hbrace) hbrace
      refine ⟨hkind.trans hskipped, ?_⟩
      have hsame := congrArg Array.toList hdiagnostics
      rw [diagnostics_next, Array.toList_append, List.append_cancel_left_eq, Option.toList_toArray,
        problem?, hproblem] at hsame
      cases hdefect : (L.next context).current.defect? L.source L.file with
      | none =>
        rw [hdefect] at hsame
        cases hsame
      | some diagnostic =>
        rw [hdefect] at hsame
        refine ⟨diagnostic, rfl, ?_⟩
        rw [(List.cons.inj hsame).1]
        rfl
    · exact .inl (hguarded.drop hbrace)

/-- In a guarded text no brace is read without an error in front of it:
the backslash is an invalid character. The induction is on the run, as
long as the text that is left is guarded. -/
theorem Reads.exists_defect (h : L.Reads items L') (hguarded : L.behind.Guarded) :
    ∀ item ∈ items, item.2.kind = .lBrace →
      ∃ diagnostic ∈ items.flatMap (fun item => (item.2.defect? L.source L.file).toList),
        diagnostic.range.start < item.2.range.stop := by
  induction h with
  | refl L => simp
  | @step L L' items context later ih =>
    intro item hmem hkind
    rw [next_source, next_file] at ih
    rw [List.flatMap_cons]
    rcases List.mem_cons.mp hmem with rfl | hmem
    · exact absurd hkind (kind_next_ne_lBrace hguarded)
    rcases guarded_next_or_defect context hguarded with hguarded | hdefect
    · obtain ⟨diagnostic, hdiagnostic, hlt⟩ := ih hguarded item hmem hkind
      exact ⟨diagnostic, List.mem_append_right _ hdiagnostic, hlt⟩
    · obtain ⟨hskipped, diagnostic, hdefect, hstart⟩ := hdefect
      have hlt : L.position < (L.next context).position :=
        position_lt_next (by rw [hskipped]; decide)
      have hle := later.position_le_start item hmem
      have hstop := item.2.range.start_le_stop
      refine ⟨diagnostic, List.mem_append_left _ ?_, by omega⟩
      rw [hdefect]
      exact List.mem_singleton_self _

end Lexer

/-! ### Seams in front of guarded texts -/

/-- Trivia that is no comment and no invalid character is white space. -/
theorem TokenKind.white_of_triviaKind? {kind : TokenKind} {trivia : TriviaKind}
    (h : kind.triviaKind? = some trivia) (hcomment : trivia ≠ .comment)
    (hskipped : trivia ≠ .skipped) : kind = .whitespace ∨ kind = .newline := by
  unfold triviaKind? at h
  split at h <;> simp_all

namespace Seam

variable {seam : Seam}

/-- A token on a way was read on that way. -/
theorem exists_mem_legs_of_mem_takes {contexts : List LexContext} {kind : TokenKind} {stop : Nat}
    (h : (some kind, stop) ∈ seam.takes contexts) :
    ∃ item ∈ seam.legs contexts, item.2.kind = kind ∧ item.2.range.stop = stop := by
  induction contexts generalizing seam with
  | nil => cases h
  | cons context rest ih =>
    rcases List.mem_cons.mp h with h | h
    · obtain ⟨hkind, hstop⟩ := Prod.mk.inj h
      refine ⟨(context, (seam.lexer.target context).current), List.mem_append_left _
        (List.mem_append_right _ (List.mem_singleton_self _)), (Option.some.inj hkind).symm,
        hstop.symm⟩
    · obtain ⟨item, hmem, hitem⟩ := ih h
      exact ⟨item, List.mem_append_right _ hmem, hitem⟩

/-- A brace that is consumed in a guarded text has an error in front of
it. -/
theorem exists_defect_of_mem_takes (inside : seam.lexer.IsInside) (hguarded : seam.behind.Guarded)
    {contexts : List LexContext} {stop : Nat} (h : (some .lBrace, stop) ∈ seam.takes contexts) :
    ∃ fresh, (seam.along contexts).lexer.diagnostics.toList
        = seam.lexer.diagnostics.toList ++ fresh ∧
      ∃ diagnostic ∈ fresh, diagnostic.range.start < stop := by
  obtain ⟨item, hmem, hkind, rfl⟩ := exists_mem_legs_of_mem_takes h
  have hreads := reads_legs inside contexts
  exact ⟨_, hreads.diagnostics, hreads.exists_defect hguarded item hmem hkind⟩

/-- A text that does not start with white space starts with its first
token, unless that is behind a comment or invalid characters. -/
theorem target_eq_next {context : LexContext}
    (hblack : ∀ c ∈ seam.behind.head?, c.isWhitespace = false)
    (hplain : ∀ piece ∈ seam.gap context, piece.kind ≠ .comment ∧ piece.kind ≠ .skipped) :
    seam.lexer.target context = seam.lexer.next context := by
  unfold Lexer.target Lexer.landed
  by_cases htrivia : (seam.lexer.next context).current.kind.isTrivia = true
  · exfalso
    obtain ⟨kind, hkind⟩ := Option.isSome_iff_exists.mp htrivia
    have hgap : ∃ piece ∈ seam.gap context, piece.kind = kind := by
      unfold gap Lexer.gap Lexer.passed
      rw [if_pos htrivia]
      exact ⟨_, List.mem_cons_self, by rw [hkind]; rfl⟩
    obtain ⟨piece, hmem, rfl⟩ := hgap
    obtain ⟨hcomment, hskipped⟩ := hplain piece hmem
    cases hbehind : seam.behind with
    | nil =>
      rw [@Lexer.next_of_length_le seam.lexer context (List.drop_eq_nil_iff.mp hbehind)] at hkind
      cases hkind
    | cons c rest =>
      rw [(@Lexer.next_of_drop_eq seam.lexer context c rest hbehind).1] at hkind
      have hwhite := (Lexeme.opens_next context c rest).white
      rw [hblack c (by rw [hbehind]; rfl)] at hwhite
      cases hwhite (TokenKind.white_of_triviaKind? hkind hcomment hskipped)
  · rw [if_neg htrivia]

end Seam

end MarkupSyntax
