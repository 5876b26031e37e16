import MarkupSyntax.Proofs.Token.Dotted

/-!
# `MarkupSyntax.Proofs.Token.Raw`: raw bodies

A raw body ends in front of the first closing tag of its element, which
may have blanks between its parts (`Lexeme.endsRaw_iff`). No part of such
a tag but its first character is `<`. So a tag that starts in the body
and ends behind it would hold the `<` of the tag that closes the element,
and there is none: the body is all that stands in front of that tag
(`Lexeme.rawLength?_append`).
-/

set_option autoImplicit false

namespace MarkupSyntax

namespace Text

/-- The text is blank. -/
def Blank (t : Text) : Prop := ∀ c ∈ t, c.isBlank = true

/-- White space is blank. -/
theorem White.blank {t : Text} (h : t.White) : t.Blank := by
  intro c hc
  rcases Lexeme.eq_of_isWhitespace (h c hc) with rfl | rfl | rfl | rfl <;> decide

/-- `<`, `/`, the name and `>`, with blanks behind each of them but the
last. -/
def rawTerminator (name slash mark close : Text) : Text :=
  CodePoint.ofChar '<' :: (slash ++ CodePoint.ofChar '/' :: (mark ++ (name ++
    (close ++ [CodePoint.ofChar '>']))))

/-- No closing tag of this name stands in the text. -/
def Unclosed (name body : Text) : Prop :=
  ∀ front slash mark close back : Text, slash.Blank → mark.Blank → close.Blank →
    body ≠ front ++ (rawTerminator name slash mark close ++ back)

end Text

open Text

namespace Lexeme

variable {name body rest t : Text} {c : CodePoint}

/-! ### Where a raw body ends -/

/-- What is asked behind blanks holds exactly if the text is some blanks and a
rest of which it holds. The blanks need not be all that there are. -/
theorem afterBlanks_iff {continues : Text → Bool} :
    afterBlanks continues t = true ↔
      ∃ blanks rest : Text, blanks.Blank ∧ t = blanks ++ rest ∧ continues rest = true := by
  induction t with
  | nil =>
    constructor
    · exact fun h => ⟨[], [], List.forall_mem_nil _, rfl, h⟩
    · rintro ⟨blanks, rest, -, happend, h⟩
      obtain ⟨rfl, rfl⟩ := List.append_eq_nil_iff.mp happend.symm
      exact h
  | cons c t ih =>
    rw [afterBlanks, Bool.or_eq_true, Bool.and_eq_true, ih]
    constructor
    · rintro (h | ⟨hc, blanks, rest, hblanks, rfl, h⟩)
      · exact ⟨[], c :: t, List.forall_mem_nil _, rfl, h⟩
      · exact ⟨c :: blanks, rest, List.forall_mem_cons.mpr ⟨hc, hblanks⟩, rfl, h⟩
    · rintro ⟨blanks, rest, hblanks, happend, h⟩
      cases blanks with
      | nil => exact .inl (happend ▸ h)
      | cons d blanks =>
        obtain ⟨rfl, rfl⟩ := List.cons.inj happend
        obtain ⟨hc, hblanks⟩ := List.forall_mem_cons.mp hblanks
        exact .inr ⟨hc, blanks, rest, hblanks, rfl, h⟩

/-- A text starts with a mark of one character exactly if it has that character
in front. -/
theorem startsWith_mark_iff {mark : String} (hmark : Text.ofString mark = [c]) :
    startsWith mark t = true ↔ ∃ rest, t = c :: rest := by
  refine ⟨exists_of_startsWith_singleton hmark, ?_⟩
  rintro ⟨rest, rfl⟩
  rw [startsWith, hmark]
  simp

/-- A raw body ends in front of a closing tag. -/
theorem endsRaw_iff : endsRaw (some name) t = true ↔
    ∃ slash mark close rest : Text, slash.Blank ∧ mark.Blank ∧ close.Blank ∧
      t = rawTerminator name slash mark close ++ rest := by
  have hless : Text.ofString "<" = [CodePoint.ofChar '<'] := rfl
  have hslash : Text.ofString "/" = [CodePoint.ofChar '/'] := rfl
  have hgreater : Text.ofString ">" = [CodePoint.ofChar '>'] := rfl
  simp only [endsRaw, Bool.and_eq_true, startsWith_mark_iff hless, startsWith_mark_iff hslash,
    startsWith_mark_iff hgreater, afterBlanks_iff, List.isPrefixOf_iff_prefix]
  constructor
  · rintro ⟨⟨_, rfl⟩, slash, _, hslash, hfirst, ⟨_, rfl⟩, mark, _, hmark, hsecond, ⟨behind, rfl⟩,
      close, _, hclose, hthird, rest, rfl⟩
    rw [List.drop_left] at hthird
    refine ⟨slash, mark, close, rest, hslash, hmark, hclose, ?_⟩
    simp only [List.drop_succ_cons, List.drop_zero] at hfirst hsecond
    simp [rawTerminator, hfirst, hsecond, hthird]
  · rintro ⟨slash, mark, close, rest, hslash, hmark, hclose, rfl⟩
    have hbehind : rawTerminator name slash mark close ++ rest = CodePoint.ofChar '<' :: (slash ++
        CodePoint.ofChar '/' :: (mark ++ (name ++ (close ++ CodePoint.ofChar '>' :: rest)))) := by
      simp [rawTerminator]
    rw [hbehind]
    exact ⟨⟨_, rfl⟩, slash, _, hslash, rfl, ⟨_, rfl⟩, mark, _, hmark, rfl, ⟨_, rfl⟩, close, _, hclose,
      List.drop_left, rest, rfl⟩

/-- Where no closing tag stands in a text, none stands at its start nor in
the rest. -/
theorem unclosed_cons_iff :
    Unclosed name (c :: body) ↔ endsRaw (some name) (c :: body) = false ∧ Unclosed name body := by
  rw [Bool.eq_false_iff, Ne, endsRaw_iff]
  constructor
  · refine fun h => ⟨?_, fun front slash mark close back hslash hmark hclose hbody => ?_⟩
    · rintro ⟨slash, mark, close, rest, hslash, hmark, hclose, hbody⟩
      exact h [] slash mark close rest hslash hmark hclose hbody
    · exact h (c :: front) slash mark close back hslash hmark hclose (congrArg (c :: ·) hbody)
  · rintro ⟨hstart, htail⟩ front slash mark close back hslash hmark hclose hbody
    cases front with
    | nil => exact hstart ⟨slash, mark, close, back, hslash, hmark, hclose, hbody⟩
    | cons d front =>
      exact htail front slash mark close back hslash hmark hclose (List.cons.inj hbody).2

/-- No closing tag stands in a text that is read as an open raw body. -/
theorem unclosed_iff : Unclosed name body ↔ rawLength? (some name) body = none := by
  induction body with
  | nil => simp [Unclosed, rawLength?, rawTerminator]
  | cons c body ih =>
    rw [unclosed_cons_iff, ih, rawLength?]
    cases endsRaw (some name) (c :: body) <;> simp

/-- Whether a raw body closes its element is decided by looking for the place
where it would end. -/
instance : Decidable (Unclosed name body) := decidable_of_iff _ unclosed_iff.symm

/-- No character of a closing tag but its first is `<`. -/
theorem notMem_tail_rawTerminator {slash mark close : Text} (hname : CodePoint.ofChar '<' ∉ name)
    (hslash : slash.Blank) (hmark : mark.Blank) (hclose : close.Blank) :
    CodePoint.ofChar '<' ∉ (rawTerminator name slash mark close).tail := by
  have hblank : ∀ t : Text, t.Blank → CodePoint.ofChar '<' ∉ t := fun t ht hmem =>
    absurd (ht _ hmem) (by decide)
  have hne : CodePoint.ofChar '<' ≠ CodePoint.ofChar '/' ∧
      CodePoint.ofChar '<' ≠ CodePoint.ofChar '>' := by decide
  simp [rawTerminator, hblank slash hslash, hblank mark hmark, hblank close hclose, hname, hne]

/-- A raw body does not end inside a text without closing tags that has one
behind it: a tag that starts in the text would go on behind it, and hold
the `<` of that tag. -/
theorem endsRaw_append (hname : CodePoint.ofChar '<' ∉ name) (hbody : Unclosed name (c :: body)) :
    endsRaw (some name) (c :: body ++ CodePoint.ofChar '<' :: rest) = false := by
  rw [Bool.eq_false_iff]
  intro hends
  obtain ⟨slash, mark, close, back, hslash, hmark, hclose, hwhole⟩ := endsRaw_iff.mp hends
  have hinside : ∀ more : Text, c :: body ≠ rawTerminator name slash mark close ++ more :=
    fun more => hbody [] slash mark close more hslash hmark hclose
  rcases List.append_eq_append_iff.mp hwhole with ⟨beyond, hterminator, hover⟩ | ⟨more, hbefore, -⟩
  · cases beyond with
    | nil =>
      rw [List.append_nil] at hterminator
      exact hinside [] (by rw [List.append_nil, hterminator])
    | cons d beyond =>
      obtain ⟨rfl, -⟩ := List.cons.inj hover
      refine notMem_tail_rawTerminator hname hslash hmark hclose ?_
      rw [hterminator]
      exact List.mem_append_right _ List.mem_cons_self
  · exact hinside more hbefore

/-- The length of a raw body is that of the text in front of its closing
tag. -/
theorem rawLength?_append (hname : CodePoint.ofChar '<' ∉ name) (hbody : Unclosed name body)
    (hends : endsRaw (some name) (CodePoint.ofChar '<' :: rest) = true) :
    rawLength? (some name) (body ++ CodePoint.ofChar '<' :: rest) = some body.length := by
  induction body with
  | nil => rw [List.nil_append, rawLength?, if_pos hends, List.length_nil]
  | cons c body ih =>
    have hnot := @endsRaw_append _ _ rest _ hname hbody
    rw [List.cons_append] at hnot ⊢
    rw [rawLength?, hnot, if_neg Bool.false_ne_true, ih (unclosed_cons_iff.mp hbody).2]
    rfl

/-- A raw body that is not empty is one token. -/
theorem splits_raw (hname : CodePoint.ofChar '<' ∉ name) (hbody : Unclosed name (c :: body))
    (hends : endsRaw (some name) (CodePoint.ofChar '<' :: rest) = true) :
    Splits (.raw (some name)) .rawTextChunk (c :: body) (CodePoint.ofChar '<' :: rest) := by
  have hnot := @endsRaw_append _ _ rest _ hname hbody
  have hlength := rawLength?_append hname (unclosed_cons_iff.mp hbody).2 hends
  rw [List.cons_append] at hnot
  have hraw : next (.raw (some name)) c (body ++ CodePoint.ofChar '<' :: rest) =
      { kind := .rawTextChunk, length := body.length + 1 } := by
    show raw _ _ _ = _
    unfold raw
    rw [hnot, hlength]
    rfl
  rw [splits_cons, hraw]
  exact ⟨rfl, rfl, rfl⟩

/-- Where a raw body ends, its closing tag starts. -/
theorem splits_raw_end (hends : endsRaw (some name) (CodePoint.ofChar '<' :: rest) = true) :
    Splits (.raw (some name)) .lessThan [CodePoint.ofChar '<'] rest := by
  have hraw : next (.raw (some name)) '<' ([] ++ rest) = { kind := .lessThan, length := 1 } :=
    if_pos hends
  rw [splits_cons, hraw]
  exact ⟨rfl, rfl, rfl⟩

end Lexeme

namespace MarkupName

variable {name : MarkupName} {body rest : Text}

/-- No character of a name is `<`. -/
theorem notMem_text (name : MarkupName) : CodePoint.ofChar '<' ∉ name.text := by
  intro hmem
  rcases name.eq_dot_or_continuesName _ hmem with hdot | hcontinues
  · exact absurd hdot (by decide)
  · exact absurd hcontinues (by decide)

/-- A loose closing tag ends a raw body. -/
theorem endsRaw_looseClosing (name : MarkupName) (spacing : Spacing) (rest : Text) :
    Lexeme.endsRaw (some name.text) (name.looseClosing spacing ++ rest) = true :=
  Lexeme.endsRaw_iff.mpr ⟨_, _, _, rest, spacing.slash_white.blank, spacing.name_white.blank,
    spacing.close_white.blank, rfl⟩

/-- The tokens of a raw body: one, or none if it is empty. -/
def rawTokens (name : MarkupName) (body : Text) : List Lexed :=
  if body = [] then [] else [⟨.raw (some name.text), .rawTextChunk, body⟩]

/-- A raw body is read as raw text only: one token, or none if it is empty. -/
theorem kind_of_mem_rawTokens (name : MarkupName) {token : Lexed} (h : token ∈ name.rawTokens body) :
    token.kind = .rawTextChunk := by
  unfold rawTokens at h
  split at h
  · cases h
  · rw [List.mem_singleton.mp h]

/-- A raw body is read in the context of its element, whose name the closing tag
must repeat. -/
theorem context_of_mem_rawTokens (name : MarkupName) {token : Lexed}
    (h : token ∈ name.rawTokens body) : token.context = .raw (some name.text) := by
  unfold rawTokens at h
  split at h
  · cases h
  · rw [List.mem_singleton.mp h]

/-- The texts of the tokens are the body. -/
theorem flatMap_text_rawTokens (name : MarkupName) (body : Text) :
    (name.rawTokens body).flatMap (·.text) = body := by
  unfold rawTokens
  split
  · rename_i hempty
    exact hempty.symm
  · exact List.append_nil body

/-- A raw body is read up to its closing tag, however that is written. -/
theorem lexes_raw (hbody : Unclosed name.text body) (spacing : Spacing) :
    Lexes (body ++ (name.looseClosing spacing ++ rest)) (name.rawTokens body)
      (name.looseClosing spacing ++ rest) := by
  have hends := name.endsRaw_looseClosing spacing rest
  cases body with
  | nil => exact .nil _
  | cons c body =>
    rw [looseClosing_append] at hends ⊢
    exact .cons (.token (Lexeme.splits_raw name.notMem_text hbody hends) rfl) (.nil _)

end MarkupName

end MarkupSyntax
