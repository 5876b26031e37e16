import Mathlib
import MarkupSyntax.Proofs.Text.Lines

/-!
# `MarkupSyntax.Proofs.Text.Positions`: positions tell offsets apart

An offset is on the line whose start it has reached and whose end it has
not (`Text.OnLine`). The number of that line is the number of line breaks
in front of the offset, and its byte and its column are read off the line.

The number of bytes of a text is not the sum over its parts, since one
surrogate decides how the others are counted. But a longer text has more
bytes (`Utf8.length_take_lt`), and that is enough for the bytes and the
columns to grow with the offset, within a line and across lines.
-/

set_option autoImplicit false

namespace MarkupSyntax

namespace Utf8

variable {c : CodePoint} {t rest : Text} {few many : Nat}

/-- A character has at least one byte, as long as a surrogate has. -/
theorem lengthOne_pos (h : 0 < few) : 0 < lengthOne (fun _ => few) c := by
  unfold lengthOne
  repeat' split
  all_goals omega

/-- A character is not shorter where surrogates count more. -/
theorem lengthOne_le (h : few ≤ many) :
    lengthOne (fun _ => few) c ≤ lengthOne (fun _ => many) c := by
  unfold lengthOne
  repeat' split
  all_goals omega

/-- The number of bytes of a surrogate in the text: any surrogate that
stands for no byte makes it three. -/
def surrogateLength (t : Text) : Nat :=
  if t.any fun c => c.isSurrogate && !isEscapedByte c then 3 else 1

/-- A surrogate counts for one byte or three. -/
theorem surrogateLength_pos (t : Text) : 0 < surrogateLength t := by
  unfold surrogateLength
  split <;> omega

/-- More text behind may make surrogates longer and never shorter: one escaped
byte less is enough for a text to be no decoded file. -/
theorem surrogateLength_le_append (t rest : Text) :
    surrogateLength t ≤ surrogateLength (t ++ rest) := by
  unfold surrogateLength
  rw [List.any_append]
  cases t.any _ <;> cases rest.any _ <;> decide

/-- The length of a text adds up from its characters, with one length for all
its surrogates. -/
theorem length_eq_sum (t : Text) :
    length t = (t.map (lengthOne fun _ => surrogateLength t)).sum := by
  rw [List.sum, List.foldr_map]
  rfl

/-- More text has more bytes, though the bytes need not add up. -/
theorem length_lt_append (h : rest ≠ []) : length t < length (t ++ rest) := by
  have hfront : (t.map (lengthOne fun _ => surrogateLength t)).sum
      ≤ (t.map (lengthOne fun _ => surrogateLength (t ++ rest))).sum :=
    List.sum_le_sum fun c _ => lengthOne_le (surrogateLength_le_append t rest)
  have hrest : 0 < (rest.map (lengthOne fun _ => surrogateLength (t ++ rest))).sum := by
    obtain ⟨c, rest, rfl⟩ := List.exists_cons_of_ne_nil h
    rw [List.map_cons, List.sum_cons]
    exact Nat.add_pos_left (lengthOne_pos (surrogateLength_pos _)) _
  rw [length_eq_sum, length_eq_sum, List.map_append, List.sum_append]
  omega

/-- A longer part from the start has more bytes. -/
theorem length_take_lt {i j : Nat} (hij : i < j) (hi : i < t.length) :
    length (t.take i) < length (t.take j) := by
  have hsplit : t.take j = t.take i ++ (t.drop i).take (j - i) := by
    rw [← List.take_add, Nat.add_sub_cancel' (Nat.le_of_lt hij)]
  rw [hsplit]
  refine length_lt_append (List.ne_nil_of_length_pos ?_)
  rw [List.length_take, List.length_drop]
  omega

end Utf8

/-! ### Line breaks -/

namespace Text

open CodePoint (ofChar)

variable {t : Text} {start start' stop : Nat}

/-- A line break of the text and the offsets between which it stands: a
carriage return and a line feed, or one of the two alone. -/
inductive BreakAt (t : Text) : (start stop : Nat) → Prop
  /-- Both together. -/
  | pair {front behind : Text} (ht : t = front ++ ofChar '\r' :: ofChar '\n' :: behind) :
      BreakAt t front.length (front.length + 2)
  /-- A carriage return alone. -/
  | carriageReturn {front behind : Text} (ht : t = front ++ ofChar '\r' :: behind)
      (halone : behind.head? ≠ some (ofChar '\n')) : BreakAt t front.length (front.length + 1)
  /-- A line feed alone. -/
  | lineFeed {front behind : Text} (ht : t = front ++ ofChar '\n' :: behind)
      (halone : front.getLast? ≠ some (ofChar '\r')) : BreakAt t front.length (front.length + 1)

/-- A line ends where a line break ends. -/
theorem endsLine_iff : t.EndsLine stop ↔ ∃ start, t.BreakAt start stop := by
  constructor
  · rintro ⟨front, behind, c, ht, rfl, hend, hbreak⟩
    obtain rfl | rfl : c = ofChar '\n' ∨ c = ofChar '\r' := by
      simpa [CodePoint.isLineEnd] using hend
    · by_cases hfront : front.getLast? = some (ofChar '\r')
      · obtain ⟨front, rfl⟩ := List.getLast?_eq_some_iff.mp hfront
        refine ⟨front.length, ?_⟩
        rw [List.length_append, List.length_singleton]
        exact .pair (by rw [ht, List.append_assoc]; rfl)
      · exact ⟨front.length, .lineFeed ht hfront⟩
    · exact ⟨front.length, .carriageReturn ht fun hnext => hbreak ⟨rfl, hnext⟩⟩
  · rintro ⟨start, hbreak⟩
    cases hbreak with
    | @pair front behind ht =>
      refine ⟨front ++ [ofChar '\r'], behind, ofChar '\n', by simp [ht], by simp, rfl, ?_⟩
      rintro ⟨h, -⟩
      exact absurd h (by decide)
    | @carriageReturn front behind ht halone =>
      exact ⟨front, behind, ofChar '\r', ht, rfl, rfl, fun h => halone h.2⟩
    | @lineFeed front behind ht halone =>
      refine ⟨front, behind, ofChar '\n', ht, rfl, rfl, ?_⟩
      rintro ⟨h, -⟩
      exact absurd h (by decide)

/-- Where a line break starts is read off the two characters in front of
its end. -/
theorem BreakAt.start_eq (h : t.BreakAt start stop) :
    start = if 2 ≤ stop ∧ t[stop - 2]? = some (ofChar '\r') ∧
        t[stop - 1]? = some (ofChar '\n') then stop - 2 else stop - 1 := by
  cases h with
  | @pair front behind ht => rw [if_pos (by simp [ht])]; rfl
  | @carriageReturn front behind ht =>
    rw [if_neg (by simp [ht, show ofChar '\r' ≠ ofChar '\n' by decide])]
    rfl
  | @lineFeed front behind ht halone =>
    refine (if_neg ?_).symm
    rintro ⟨htwo, hreturn, -⟩
    obtain ⟨front, c, rfl⟩ := 
      (List.eq_nil_or_concat' front).resolve_left (List.ne_nil_of_length_pos (by omega))
    refine halone ?_
    simpa [ht] using hreturn

/-- No two line breaks end at the same offset. -/
theorem BreakAt.start_unique (h : t.BreakAt start stop) (h' : t.BreakAt start' stop) :
    start = start' := by
  rw [h.start_eq, h'.start_eq]

/-- The line breaks that end at the offset or before it. -/
def breaksUpTo (t : Text) (offset : Nat) : Set (Nat × Nat) :=
  {place | t.BreakAt place.1 place.2 ∧ place.2 ≤ offset}

/-- The ends of the lines that end at the offset or before it. -/
def endsUpTo (t : Text) (offset : Nat) : Set Nat := {stop | t.EndsLine stop ∧ stop ≤ offset}

/-- Line breaks are counted by their ends. -/
theorem ncard_breaksUpTo (t : Text) (offset : Nat) :
    (t.breaksUpTo offset).ncard = (t.endsUpTo offset).ncard := by
  have himage : Prod.snd '' t.breaksUpTo offset = t.endsUpTo offset := by
    ext stop
    simp only [breaksUpTo, endsUpTo, Set.mem_image, Set.mem_ofPred_eq, Prod.exists,
      exists_eq_right, endsLine_iff, exists_and_right]
  rw [← himage, Set.InjOn.ncard_image]
  rintro ⟨start, stop⟩ ⟨h, -⟩ ⟨start', stop'⟩ ⟨h', -⟩ rfl
  exact Prod.ext (h.start_unique h') rfl

/-- Only finitely many lines end up to an offset. -/
theorem finite_endsUpTo (t : Text) (offset : Nat) : (t.endsUpTo offset).Finite :=
  (Set.finite_Iic offset).subset fun _ h => h.2

/-- No line ends at the very start. -/
theorem pos_of_endsLine (h : t.EndsLine stop) : 0 < stop := by
  obtain ⟨front, -, -, -, rfl, -⟩ := h
  exact Nat.succ_pos _

/-- So none ends up to there. -/
theorem endsUpTo_zero (t : Text) : t.endsUpTo 0 = ∅ :=
  Set.eq_empty_of_forall_notMem fun _ ⟨hends, hle⟩ =>
    Nat.not_lt.mpr hle (pos_of_endsLine hends)

/-- There is no line break in an empty text. -/
theorem endsUpTo_nil (offset : Nat) : endsUpTo [] offset = ∅ :=
  Set.eq_empty_of_forall_notMem fun _ ⟨⟨front, _, _, hnil, _⟩, _⟩ => by simp at hnil

/-- The first character ends a line or not; the other ends are those of the
text behind it. -/
theorem ncard_endsUpTo_cons {c : CodePoint} {rest : Text} (offset : Nat) :
    (BreaksAfter c rest → (endsUpTo (c :: rest) (offset + 1)).ncard
      = (rest.endsUpTo offset).ncard + 1) ∧
    (¬BreaksAfter c rest → (endsUpTo (c :: rest) (offset + 1)).ncard
      = (rest.endsUpTo offset).ncard) := by
  -- All ends of the rest are one further in the whole.
  have hrest : (Nat.succ '' rest.endsUpTo offset).ncard = (rest.endsUpTo offset).ncard :=
    Set.ncard_image_of_injective _ Nat.succ_injective
  constructor
  · intro hbreak
    have hends : endsUpTo (c :: rest) (offset + 1)
        = insert 1 (Nat.succ '' rest.endsUpTo offset) := by
      ext stop
      simp only [endsUpTo, endsLine_cons, Set.mem_ofPred_eq, Set.mem_insert_iff, Set.mem_image]
      constructor
      · rintro ⟨⟨rfl, -⟩ | ⟨before, hbefore, rfl⟩, hle⟩
        · exact .inl rfl
        · exact .inr ⟨before, ⟨hbefore, by omega⟩, rfl⟩
      · rintro (rfl | ⟨before, ⟨hbefore, hle⟩, rfl⟩)
        · exact ⟨.inl ⟨rfl, hbreak⟩, by omega⟩
        · exact ⟨.inr ⟨before, hbefore, rfl⟩, Nat.succ_le_succ hle⟩
    have hnew : 1 ∉ Nat.succ '' rest.endsUpTo offset := by
      rintro ⟨before, ⟨hbefore, -⟩, hone⟩
      have := pos_of_endsLine hbefore
      omega
    rw [hends, Set.ncard_insert_of_notMem hnew ((finite_endsUpTo rest offset).image _), hrest]
  · intro hbreak
    have hends : endsUpTo (c :: rest) (offset + 1) = Nat.succ '' rest.endsUpTo offset := by
      ext stop
      simp only [endsUpTo, endsLine_cons, Set.mem_ofPred_eq, Set.mem_image]
      constructor
      · rintro ⟨⟨-, hhere⟩ | ⟨before, hbefore, rfl⟩, hle⟩
        · exact absurd hhere hbreak
        · exact ⟨before, ⟨hbefore, by omega⟩, rfl⟩
      · rintro ⟨before, ⟨hbefore, hle⟩, rfl⟩
        exact ⟨.inr ⟨before, hbefore, rfl⟩, Nat.succ_le_succ hle⟩
    rw [hends, hrest]

end Text

/-! ### The line of an offset -/

/-- The lines of a text around an offset: the offset has reached the start
of `line`, and not its end unless no line is left. -/
structure Text.OnLine (t : Text) (offset : Nat) (before : List Text) (line : Text)
    (after : List Text) : Prop where
  lines : splitLines t = before ++ line :: after
  start_le : before.flatten.length ≤ offset
  lt_stop : after = [] ∨ offset < before.flatten.length + line.length

namespace Line

/-- The number of lines and the line behind others. -/
theorem length_consecutive (parts : List Text) (start startByte : Nat) :
    (consecutive start startByte parts).length = parts.length := by
  induction parts generalizing start startByte with
  | nil => rfl
  | cons text rest ih => rw [consecutive, List.length_cons, ih, List.length_cons]

/-- Lines one after another start where the ones before end, in characters and
in bytes. -/
theorem consecutive_append (parts rest : List Text) (start startByte : Nat) :
    consecutive start startByte (parts ++ rest) = consecutive start startByte parts
      ++ consecutive (start + parts.flatten.length) (startByte + (parts.map Utf8.length).sum)
        rest := by
  induction parts generalizing start startByte with
  | nil => rfl
  | cons text parts ih =>
    simp only [List.cons_append, consecutive, ih, List.flatten_cons, List.length_append,
      List.map_cons, List.sum_cons, Nat.add_assoc]

/-- No line starts behind the start of a line that comes later. -/
theorem start_le_of_mem {parts : List Text} {start startByte : Nat} {line : Line}
    (h : line ∈ consecutive start startByte parts) :
    line.start ≤ start + parts.flatten.length := by
  induction parts generalizing start startByte with
  | nil => nomatch h
  | cons text rest ih =>
    rw [List.flatten_cons, List.length_append]
    rcases List.mem_cons.mp h with rfl | h
    · exact Nat.le_add_right ..
    · have := ih h
      omega

end Line

namespace Text.OnLine

variable {t : Text} {offset i j : Nat} {before before' after after' : List Text} {line line' : Text}

/-- Every offset is on a line, behind as many lines as end up to it. The
induction is on the text and follows `splitLines`: its first character is a
line by itself, or the front of the line that comes next. -/
theorem exists_of (t : Text) (offset : Nat) : ∃ before line after,
    t.OnLine offset before line after ∧ before.length = (t.endsUpTo offset).ncard := by
  induction t generalizing offset with
  | nil => exact ⟨[], [], [], ⟨rfl, Nat.zero_le _, .inl rfl⟩, by simp [endsUpTo_nil]⟩
  | cons c rest ih =>
    cases offset with
    | zero =>
      obtain ⟨line, after, hlines⟩ :
          ∃ line after, splitLines (c :: rest) = (c :: line) :: after := by
        unfold splitLines
        dsimp only
        split
        · exact ⟨_, _, rfl⟩
        · split
          · exact ⟨_, _, rfl⟩
          · exact ⟨_, _, rfl⟩
      refine ⟨[], c :: line, after, ⟨hlines, Nat.zero_le _, .inr (by simp)⟩, ?_⟩
      rw [endsUpTo_zero, Set.ncard_empty, List.length_nil]
    | succ offset =>
      obtain ⟨before, line, after, hon, hcount⟩ := ih offset
      have hstart := hon.start_le
      -- If a line ends behind the first character, that is a line more in front. Otherwise it is
      -- put in front of the first line of the rest, which is the line at hand exactly if there is
      -- none before it.
      by_cases hbreak : BreaksAfter c rest
      · have hlines : splitLines (c :: rest) = [c] :: splitLines rest := by
          rw [splitLines]
          exact if_pos (by simpa [BreaksAfter, imp_iff_not_or] using hbreak)
        have hparts : splitLines (c :: rest) = ([c] :: before) ++ line :: after := by
          rw [hlines, hon.lines, List.cons_append]
        refine ⟨[c] :: before, line, after, ⟨hparts, ?_, ?_⟩, ?_⟩
        · simpa using hstart
        · refine hon.lt_stop.imp_right fun hstop => ?_
          simp only [List.flatten_cons, List.length_append, List.length_singleton]
          omega
        · rw [List.length_cons, hcount, (ncard_endsUpTo_cons offset).1 hbreak]
      · have hcount' := hcount.trans ((ncard_endsUpTo_cons offset).2 hbreak).symm
        -- Without a break the first character joins the line behind it.
        have hjoin : ∀ first others, splitLines rest = first :: others →
            splitLines (c :: rest) = (c :: first) :: others := by
          intro first others hrest
          rw [splitLines, hrest]
          exact if_neg (by simpa [BreaksAfter] using hbreak)
        cases before with
        | nil =>
          refine ⟨[], c :: line, after, ⟨hjoin _ _ hon.lines, Nat.zero_le _, ?_⟩, hcount'⟩
          refine hon.lt_stop.imp_right fun hstop => ?_
          simp only [List.flatten_nil, List.length_nil, List.length_cons] at hstop ⊢
          omega
        | cons first before =>
          refine ⟨(c :: first) :: before, line, after,
            ⟨hjoin _ _ hon.lines, ?_, ?_⟩, hcount'⟩
          · simp only [List.flatten_cons, List.length_append, List.length_cons] at hstart ⊢
            omega
          · refine hon.lt_stop.imp_right fun hstop => ?_
            simp only [List.flatten_cons, List.length_append, List.length_cons] at hstop ⊢
            omega

/-- The line in the index, with what comes before and behind it. -/
theorem lines_ofText (h : t.OnLine offset before line after) :
    (LineIndex.ofText t).lines = Line.consecutive 0 0 before ++
      ⟨before.flatten.length, (before.map Utf8.length).sum, line⟩ ::
        Line.consecutive (before.flatten.length + line.length)
          ((before.map Utf8.length).sum + Utf8.length line) after := by
  rw [LineIndex.ofText, h.lines, Line.consecutive_append, Nat.zero_add, Nat.zero_add,
    Line.consecutive]

/-- The line of an offset is found by the number of lines in front of it. -/
theorem getElem?_lines (h : t.OnLine offset before line after) :
    (LineIndex.ofText t).lines[before.length]?
      = some ⟨before.flatten.length, (before.map Utf8.length).sum, line⟩ := by
  rw [h.lines_ofText, List.getElem?_append_right (Line.length_consecutive ..).le,
    Line.length_consecutive, Nat.sub_self]
  rfl

/-- The line is found by its offset. -/
theorem lineOf (h : t.OnLine offset before line after) :
    (LineIndex.ofText t).lineOf offset = before.length := by
  have hbefore : (Line.consecutive 0 0 before).findIdx (fun line => offset < line.start)
      = before.length := by
    rw [← Line.length_consecutive before 0 0, List.findIdx_eq_length]
    intro line hline
    have := Line.start_le_of_mem hline
    have := h.start_le
    exact decide_eq_false (by omega)
  have hafter : ∀ startByte, (Line.consecutive (before.flatten.length + line.length) startByte
      after).findIdx (fun line => offset < line.start) = 0 := by
    intro startByte
    rcases h.lt_stop with rfl | hstop
    · rfl
    · cases after with
      | nil => rfl
      | cons text rest => rw [Line.consecutive, List.findIdx_cons, decide_eq_true hstop]; rfl
  rw [LineIndex.lineOf, h.lines_ofText, List.findIdx_append, hbefore, Line.length_consecutive,
    if_neg (Nat.lt_irrefl _), List.findIdx_cons, decide_eq_false (Nat.not_lt.mpr h.start_le)]
  show _ + 1 + _ - 1 = _
  rw [hafter]
  omega

/-- The position of an offset: its line, and the bytes in front of it on that
line. -/
theorem lineCol (h : t.OnLine offset before line after) :
    (LineIndex.ofText t).lineCol offset
      = ⟨before.length, Utf8.length (line.take (offset - before.flatten.length))⟩ := by
  rw [LineIndex.lineCol, h.lineOf, h.getElem?_lines]
  rfl

/-- The byte of an offset: the bytes of the lines in front, and those on its own
line. -/
theorem byteOffset (h : t.OnLine offset before line after) :
    (LineIndex.ofText t).byteOffset offset = (before.map Utf8.length).sum
      + Utf8.length (line.take (offset - before.flatten.length)) := by
  rw [LineIndex.byteOffset, LineIndex.byteAt, h.lineCol, h.getElem?_lines]
  rfl

/-- The line of an offset is also the line of its own start, as every line
but the last holds something. -/
theorem start (h : t.OnLine offset before line after) :
    t.OnLine before.flatten.length before line after := by
  refine ⟨h.lines, Nat.le_refl _, h.lt_stop.imp_right fun hstop => ?_⟩
  have := h.start_le
  omega

/-- A later offset is on the same line or on a later one. -/
theorem same_or_later (hi : t.OnLine i before line after) (hj : t.OnLine j before' line' after')
    (hij : i < j) : before' = before ∧ line' = line ∨
      ∃ between, before' = before ++ line :: between := by
  have hlines := hi.lines.symm.trans hj.lines
  rcases List.append_eq_append_iff.mp hlines with ⟨more, rfl, hmore⟩ | ⟨more, rfl, hmore⟩
  · cases more with
    | nil => exact .inl ⟨List.append_nil _, (List.cons.inj hmore).1.symm⟩
    | cons text between =>
      obtain ⟨rfl, rfl⟩ := List.cons.inj hmore
      exact .inr ⟨between, rfl⟩
  · cases more with
    | nil => exact .inl ⟨(List.append_nil _).symm, (List.cons.inj hmore).1⟩
    | cons text between =>
      obtain ⟨rfl, rfl⟩ := List.cons.inj hmore
      have hstart := hi.start_le
      have hstop := hj.lt_stop.resolve_left (by simp)
      rw [List.flatten_append, List.flatten_cons, List.length_append, List.length_append] at hstart
      omega

/-- An offset inside the text that is not its end is in front of the end of
its line. -/
theorem lt_of_lt_length (h : t.OnLine offset before line after) (hlt : offset < t.length) :
    offset < before.flatten.length + line.length := by
  rcases h.lt_stop with rfl | hstop
  · have hlength := congrArg List.length (flatten_splitLines t)
    rw [h.lines, List.flatten_append, List.flatten_cons, List.flatten_nil, List.append_nil,
      List.length_append] at hlength
    omega
  · exact hstop

/-- The text from the start of the line up to the offset. -/
theorem slice (h : t.OnLine offset before line after) :
    t.slice before.flatten.length offset = line.take (offset - before.flatten.length) := by
  have ht : t = before.flatten ++ (line ++ after.flatten) := by
    rw [← List.flatten_cons, ← List.flatten_append, ← h.lines, flatten_splitLines]
  conv_lhs => rw [ht, Text.slice, List.drop_left]
  rcases h.lt_stop with rfl | hstop
  · rw [List.flatten_nil, List.append_nil]
  · exact List.take_append_of_le_length (by omega)

end Text.OnLine

/-- The first place is on an earlier line, or on the same one in an earlier
column. -/
def LineCol.Before (a b : LineCol) : Prop := a.line < b.line ∨ a.line = b.line ∧ a.col < b.col

/-- No position is in front of itself. -/
theorem LineCol.not_before_self (a : LineCol) : ¬a.Before a := by
  unfold LineCol.Before
  omega

namespace LineIndex

variable {i j : Nat}

/-- Bytes and positions grow with the offset: within a line because the
text in front does, and from a line to the next because the bytes of a
whole line are more than those in front of an offset on it. -/
theorem byteOffset_lt (t : Text) (hij : i < j) (hj : j ≤ t.length) :
    (ofText t).byteOffset i < (ofText t).byteOffset j := by
  obtain ⟨before, line, after, honi, -⟩ := Text.OnLine.exists_of t i
  obtain ⟨before', line', after', honj, -⟩ := Text.OnLine.exists_of t j
  have hstart := honi.start_le
  have hstop := honi.lt_of_lt_length (by omega)
  rw [honi.byteOffset, honj.byteOffset]
  rcases honi.same_or_later honj hij with ⟨rfl, rfl⟩ | ⟨between, rfl⟩
  · exact Nat.add_lt_add_left (Utf8.length_take_lt (by omega) (by omega)) _
  · have hline : Utf8.length (line.take (i - before.flatten.length)) < Utf8.length line := by
      have := Utf8.length_take_lt (t := line) (i := i - before.flatten.length) (j := line.length)
        (by omega) (by omega)
      rwa [List.take_length] at this
    rw [List.map_append, List.map_cons, List.sum_append, List.sum_cons]
    omega

/-- Positions go up with offsets. On one line the column does, and from one line
to a later one the number of the line. -/
theorem lineCol_lt (t : Text) (hij : i < j) (hj : j ≤ t.length) :
    ((ofText t).lineCol i).Before ((ofText t).lineCol j) := by
  obtain ⟨before, line, after, honi, -⟩ := Text.OnLine.exists_of t i
  obtain ⟨before', line', after', honj, -⟩ := Text.OnLine.exists_of t j
  have hstart := honi.start_le
  have hstop := honi.lt_of_lt_length (by omega)
  rw [honi.lineCol, honj.lineCol]
  rcases honi.same_or_later honj hij with ⟨rfl, rfl⟩ | ⟨between, rfl⟩
  · exact .inr ⟨rfl, Utf8.length_take_lt (by omega) (by omega)⟩
  · exact .inl (by simp)

/-- The line of an offset is the number of line breaks that end up to it. -/
theorem lineOf_eq_ncard (t : Text) (offset : Nat) :
    (ofText t).lineOf offset = (t.breaksUpTo offset).ncard := by
  obtain ⟨before, line, after, hon, hcount⟩ := Text.OnLine.exists_of t offset
  rw [hon.lineOf, hcount, Text.ncard_breaksUpTo]

/-- The byte at an offset is the byte at the start of its line and the
column. -/
theorem exists_start (t : Text) (offset : Nat) :
    ∃ start ≤ offset, (ofText t).starts[(ofText t).lineOf offset]? = some start ∧
      (ofText t).lineCol start = ⟨(ofText t).lineOf offset, 0⟩ ∧
      (ofText t).lineCol offset
        = ⟨(ofText t).lineOf offset, Utf8.length (t.slice start offset)⟩ ∧
      (ofText t).byteOffset offset
        = (ofText t).byteOffset start + ((ofText t).lineCol offset).col := by
  obtain ⟨before, line, after, hon, -⟩ := Text.OnLine.exists_of t offset
  refine ⟨before.flatten.length, hon.start_le, ?_, ?_, ?_, ?_⟩
  · rw [hon.lineOf, starts, List.getElem?_map, hon.getElem?_lines]
    rfl
  · rw [hon.lineOf, hon.start.lineCol, Nat.sub_self]
    rfl
  · rw [hon.lineOf, hon.lineCol, hon.slice]
  · rw [hon.byteOffset, hon.start.byteOffset, hon.lineCol, Nat.sub_self]
    rfl

/-- Positions identify offsets: bytes and places grow with the offset, a line
is counted by the line breaks in front, and bytes are counted from the start
of the line. -/
theorem positions_ofText (t : Text) :
    (∀ i j, i < j → j ≤ t.length → (ofText t).byteOffset i < (ofText t).byteOffset j ∧
      ((ofText t).lineCol i).Before ((ofText t).lineCol j)) ∧
    Set.InjOn (ofText t).byteOffset (Set.Iic t.length) ∧
    Set.InjOn (ofText t).lineCol (Set.Iic t.length) ∧
    (∀ i, (ofText t).lineOf i = (t.breaksUpTo i).ncard) ∧
    ∀ i, ∃ start ≤ i, (ofText t).starts[(ofText t).lineOf i]? = some start ∧
      (ofText t).lineCol start = ⟨(ofText t).lineOf i, 0⟩ ∧
      (ofText t).lineCol i = ⟨(ofText t).lineOf i, Utf8.length (t.slice start i)⟩ ∧
      (ofText t).byteOffset i = (ofText t).byteOffset start + ((ofText t).lineCol i).col := by
  refine ⟨fun i j hij hj => ⟨byteOffset_lt t hij hj, lineCol_lt t hij hj⟩, ?_, ?_,
    lineOf_eq_ncard t, exists_start t⟩
  · exact StrictMonoOn.injOn fun i _ j hj hij => byteOffset_lt t hij hj
  · intro i hi j hj heq
    rcases Nat.lt_trichotomy i j with hij | hij | hij
    · exact absurd (heq ▸ lineCol_lt t hij hj) (LineCol.not_before_self _)
    · exact hij
    · exact absurd (heq ▸ lineCol_lt t hij hi) (LineCol.not_before_self _)

/-- A text with an undecodable byte, a pair of line breaks, a surrogate that
stands for no byte and a carriage return alone. -/
def mixedText : Text :=
  [⟨0xDC80, by decide⟩, .ofChar '\r', .ofChar '\n', .ofChar 'é', ⟨0xD800, by decide⟩,
    .ofChar '\r', .ofChar 'x']

/-- Between the pair, and in front of the surrogate, whose three bytes make
the next column. -/
theorem positions_mixedText :
    ((ofText mixedText).byteOffset 1 < (ofText mixedText).byteOffset 2 ∧
      ((ofText mixedText).lineCol 1).Before ((ofText mixedText).lineCol 2)) ∧
    (ofText mixedText).byteOffset 4 < (ofText mixedText).byteOffset 5 ∧
    (ofText mixedText).lineCol 4 = ⟨1, 2⟩ ∧ (ofText mixedText).lineCol 5 = ⟨1, 5⟩ ∧
    (ofText mixedText).lineOf 6 = 2 :=
  ⟨(positions_ofText mixedText).1 1 2 (by decide) (by decide),
    ((positions_ofText mixedText).1 4 5 (by decide) (by decide)).1,
    by decide, by decide, by decide⟩

end LineIndex

end MarkupSyntax
