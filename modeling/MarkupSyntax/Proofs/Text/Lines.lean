import MarkupSyntax.Proofs.Text.Utf8
import MarkupSyntax.Text.Lines

/-!
# `MarkupSyntax.Proofs.Text.Lines`: byte positions

The lines of a text are put together to the text again, so the byte at an
offset, which is looked up by its line, is the number of bytes in front of
the offset (`LineIndex.byteOffset_ofText`). Lengths are taken line by
line and add up where the text was decoded from bytes.

Lines start at the front of the text and behind each line break, of which
a carriage return in front of a line feed is only a part
(`LineIndex.mem_starts_ofText`).
-/

set_option autoImplicit false

namespace MarkupSyntax

/-- The lines of a text are the whole text. -/
theorem flatten_splitLines (t : Text) : (splitLines t).flatten = t := by
  induction t with
  | nil => rfl
  | cons c rest ih =>
    unfold splitLines
    dsimp only
    split
    · rw [List.flatten_cons, ih]
      rfl
    · split
      · rename_i hnone
        rw [hnone] at ih
        rw [← ih]
        rfl
      · rename_i line lines hlines
        rw [hlines, List.flatten_cons] at ih
        rw [List.flatten_cons, List.cons_append, ih]

/-- There is always a line, also in an empty text. -/
theorem splitLines_ne_nil (t : Text) : splitLines t ≠ [] := by
  cases t with
  | nil => nofun
  | cons c rest =>
    unfold splitLines
    dsimp only
    split
    · nofun
    · split <;> nofun

namespace Text

/-- A line ends after `c`, if `rest` is what follows: a carriage return
and a line feed end it together. -/
def BreaksAfter (c : CodePoint) (rest : Text) : Prop :=
  c.isLineEnd = true ∧ ¬(c = '\r' ∧ rest.head? = some (CodePoint.ofChar '\n'))

/-- A line of the text ends at the offset. -/
def EndsLine (t : Text) (offset : Nat) : Prop :=
  ∃ (front behind : Text) (c : CodePoint),
    t = front ++ c :: behind ∧ offset = front.length + 1 ∧ BreaksAfter c behind

/-- A line ends after the first character, or in the text behind it. -/
theorem endsLine_cons {c : CodePoint} {rest : Text} {offset : Nat} :
    EndsLine (c :: rest) offset ↔
      offset = 1 ∧ BreaksAfter c rest ∨ ∃ before, EndsLine rest before ∧ offset = before + 1 := by
  constructor
  · rintro ⟨front, behind, d, ht, hoffset, hbreak⟩
    cases front with
    | nil =>
      obtain ⟨rfl, rfl⟩ := List.cons.inj ht
      exact .inl ⟨hoffset, hbreak⟩
    | cons e front =>
      exact .inr ⟨front.length + 1, ⟨front, behind, d, (List.cons.inj ht).2, rfl, hbreak⟩, hoffset⟩
  · rintro (⟨hoffset, hbreak⟩ | ⟨before, ⟨front, behind, d, ht, hbefore, hbreak⟩, hoffset⟩)
    · exact ⟨[], rest, c, rfl, hoffset, hbreak⟩
    · exact ⟨c :: front, behind, d, by simp [ht], by simp [hoffset, hbefore], hbreak⟩

end Text

namespace LineIndex

/-- The line before the first one that starts behind an offset has the
offset, and its bytes are counted from where the lines start. -/
theorem exists_line {parts : List Text} {start startByte offset : Nat} (hparts : parts ≠ [])
    (hstart : start ≤ offset) (h : Utf8.IsDecoded parts.flatten) :
    ∃ line, (Line.consecutive start startByte parts)[
        (Line.consecutive start startByte parts).findIdx (fun line => offset < line.start) - 1]?
          = some line ∧
      line.startByte + line.column offset
        = startByte + (Utf8.encode (parts.flatten.take (offset - start))).length := by
  induction parts generalizing start startByte with
  | nil => exact absurd rfl hparts
  | cons text rest ih =>
    rw [List.flatten_cons] at h ⊢
    have htext : Utf8.length text = (Utf8.encode text).length :=
      Utf8.length_eq (h.of_subset (List.subset_append_left ..))
    have hskip : ∀ lines : List Line,
        (⟨start, startByte, text⟩ :: lines).findIdx (fun line => offset < line.start)
          = lines.findIdx (fun line => offset < line.start) + 1 := fun lines => by
      rw [List.findIdx_cons, decide_eq_false (Nat.not_lt.mpr hstart)]
      rfl
    have hcolumn : Line.column ⟨start, startByte, text⟩ offset
        = (Utf8.encode (text.take (offset - start))).length := by
      refine Utf8.length_eq (h.of_subset ?_)
      exact List.Subset.trans (List.take_subset ..) (List.subset_append_left ..)
    rw [Line.consecutive, hskip, Nat.add_sub_cancel]
    cases rest with
    | nil =>
      refine ⟨_, rfl, ?_⟩
      rw [hcolumn, List.flatten_nil, List.append_nil]
    | cons next rest =>
      by_cases hoffset : offset < start + text.length
      · have hzero : (Line.consecutive (start + text.length) (startByte + Utf8.length text)
            (next :: rest)).findIdx (fun line => offset < line.start) = 0 := by
          rw [Line.consecutive, List.findIdx_cons, decide_eq_true hoffset]
          rfl
        rw [hzero]
        refine ⟨_, rfl, ?_⟩
        rw [hcolumn, List.take_append_of_le_length (by omega)]
      · have hbehind : start + text.length ≤ offset := by omega
        obtain ⟨line, hline, hbytes⟩ := @ih (start + text.length)
          (startByte + Utf8.length text) (by simp) hbehind (h.of_subset (List.subset_append_right ..))
        have hpositive : 0 < (Line.consecutive (start + text.length)
            (startByte + Utf8.length text) (next :: rest)).findIdx
              (fun line => offset < line.start) := by
          rw [Line.consecutive, List.findIdx_cons, decide_eq_false (Nat.not_lt.mpr hbehind)]
          exact Nat.succ_pos _
        refine ⟨line, ?_, ?_⟩
        · rw [List.getElem?_cons, if_neg (by omega)]
          exact hline
        · have htake : (text ++ (next :: rest).flatten).take (offset - start)
              = text ++ (next :: rest).flatten.take (offset - (start + text.length)) := by
            rw [List.take_append, List.take_of_length_le (l := text) (by omega), Nat.sub_sub]
          rw [hbytes, htake, Utf8.encode_append, List.length_append, htext, Nat.add_assoc]

/-- Where lines start does not depend on the bytes in front of them. -/
theorem map_start_consecutive (parts : List Text) (start startByte startByte' : Nat) :
    (Line.consecutive start startByte parts).map (·.start)
      = (Line.consecutive start startByte' parts).map (·.start) := by
  induction parts generalizing start startByte startByte' with
  | nil => rfl
  | cons text rest ih =>
    simp only [Line.consecutive, List.map_cons]
    rw [ih]

/-- The lines after the first one start behind the line breaks. The
induction is on the text: its first character is a line by itself, or the
front of the line that comes next. -/
theorem mem_tail_starts {t : Text} {start startByte offset : Nat} :
    offset ∈ ((Line.consecutive start startByte (splitLines t)).map (·.start)).tail ↔
      ∃ before, t.EndsLine before ∧ offset = start + before := by
  induction t generalizing start startByte with
  | nil => simp [splitLines, Line.consecutive, Text.EndsLine]
  | cons c rest ih =>
    cases hrest : splitLines rest with
    | nil => exact absurd hrest (splitLines_ne_nil rest)
    | cons line lines =>
      have hlater := @ih (start + 1) startByte
      simp only [hrest, Line.consecutive, List.map_cons, List.tail_cons] at hlater
      simp only [Text.endsLine_cons]
      -- A break behind the first character adds a line whose start is one further. Without one
      -- the first line only gets longer.
      by_cases hbreak : Text.BreaksAfter c rest
      · have hlines : splitLines (c :: rest) = [c] :: line :: lines := by
          rw [splitLines, hrest]
          exact if_pos (by simpa [Text.BreaksAfter, imp_iff_not_or] using hbreak)
        simp only [hlines, Line.consecutive, List.map_cons, List.tail_cons, List.mem_cons,
          List.length_singleton, map_start_consecutive lines _ _ (startByte + Utf8.length line),
          hlater]
        constructor
        · rintro (rfl | ⟨before, hends, rfl⟩)
          · exact ⟨1, .inl ⟨rfl, hbreak⟩, rfl⟩
          · exact ⟨before + 1, .inr ⟨before, hends, rfl⟩, by omega⟩
        · rintro ⟨_, ⟨rfl, -⟩ | ⟨before, hends, rfl⟩, rfl⟩
          · exact .inl rfl
          · exact .inr ⟨before, hends, by omega⟩
      · have hlines : splitLines (c :: rest) = (c :: line) :: lines := by
          rw [splitLines, hrest]
          exact if_neg (by simpa [Text.BreaksAfter] using hbreak)
        have hstart : start + (c :: line).length = start + 1 + line.length := by
          simp only [List.length_cons]
          omega
        simp only [hlines, Line.consecutive, List.map_cons, List.tail_cons, hstart,
          map_start_consecutive lines _ _ (startByte + Utf8.length line), hlater]
        constructor
        · rintro ⟨before, hends, rfl⟩
          exact ⟨before + 1, .inr ⟨before, hends, rfl⟩, by omega⟩
        · rintro ⟨_, ⟨-, hbreak'⟩ | ⟨before, hends, rfl⟩, rfl⟩
          · exact absurd hbreak' hbreak
          · exact ⟨before, hends, by omega⟩

/-- The lines of a text start at its front and behind its line breaks. -/
theorem mem_starts_ofText {t : Text} {offset : Nat} :
    offset ∈ (ofText t).starts ↔ offset = 0 ∨ t.EndsLine offset := by
  have htail := @mem_tail_starts t 0 0 offset
  cases hlines : splitLines t with
  | nil => exact absurd hlines (splitLines_ne_nil t)
  | cons line lines =>
    simp only [hlines, Line.consecutive, List.map_cons, List.tail_cons, Nat.zero_add,
      exists_eq_right'] at htail
    simp only [starts, ofText, hlines, Line.consecutive, List.map_cons, List.mem_cons,
      Nat.zero_add, htail]

/-- The byte at an offset comes behind the bytes of the text in front. -/
theorem byteOffset_ofText {t : Text} (h : Utf8.IsDecoded t) (offset : Nat) :
    (ofText t).byteOffset offset = (Utf8.encode (t.take offset)).length := by
  have hflatten := flatten_splitLines t
  obtain ⟨line, hline, hbytes⟩ := @exists_line _ 0 0 offset (splitLines_ne_nil t)
    (Nat.zero_le offset) (by rwa [hflatten])
  rw [hflatten, Nat.sub_zero, Nat.zero_add] at hbytes
  rw [byteOffset, byteAt, lineCol, lineOf]
  show ((Line.consecutive 0 0 (splitLines t))[_]?.map _).getD 0
    + ((Line.consecutive 0 0 (splitLines t))[_]?.map _).getD 0 = _
  rw [show (ofText t).lines = Line.consecutive 0 0 (splitLines t) from rfl, hline]
  exact hbytes

end LineIndex

end MarkupSyntax
