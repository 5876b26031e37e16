import MarkupSyntax.Proofs.Token.Numerals
import MarkupSyntax.Proofs.Token.Scan

/-!
# `MarkupSyntax.Proofs.Token.Ends`: where a lexeme stops

A lexeme ends with a character, and another one follows it.
`Lexeme.StopsBetween p q` says that these two are `p` and `q`. Most
lexemes tell one of the two: a number ends with a character of numbers, a
closed string with its quote, a reference with a semicolon, and a raw body
stops in front of a `<`. So two characters that are none of these, and that
neither white space nor a run of text parts (`Apart`), are never parted by
a lexeme. The one exception is a first character that is no token at all
(`stopsBetween_next`): it is skipped, whatever follows.

Two pairs are of that kind. A backslash and a brace are an escape in text
(`Proofs/Token/Guard.lean`), and a carriage return and a line feed are one
line break everywhere (`Proofs/Token/Tiling.lean`).
-/

set_option autoImplicit false

namespace MarkupSyntax

namespace Lexeme

/-- The lexeme ends with `p`, and `q` is the character behind it. -/
structure StopsBetween (p q : CodePoint) (lexeme : Lexeme) (t : Text) : Prop where
  last : (t.take lexeme.length).getLast? = some p
  next : (t.drop lexeme.length).head? = some q

variable {p q : CodePoint} {lexeme : Lexeme} {c : CodePoint} {rest t : Text}

/-! ### One of the two characters is another one -/

/-- A lexeme with another last character does not end with `p`. -/
theorem not_stopsBetween_of_getLast? (h : (t.take lexeme.length).getLast? ≠ some p) :
    ¬ lexeme.StopsBetween p q t := fun hstops => h hstops.last

/-- A lexeme in front of another character does not end in front of `q`. -/
theorem not_stopsBetween_of_head? (h : (t.drop lexeme.length).head? ≠ some q) :
    ¬ lexeme.StopsBetween p q t := fun hstops => h hstops.next

/-- All characters of the lexeme are of a class to which `p` does not
belong. -/
theorem not_stopsBetween_of_forall {f : CodePoint → Bool} (hp : f p = false)
    (h : ∀ d ∈ t.take lexeme.length, f d = true) : ¬ lexeme.StopsBetween p q t := by
  intro hstops
  have hlast := h p (List.mem_of_getLast? hstops.last)
  rw [hp] at hlast
  cases hlast

/-- A mark of one character that is another one. -/
theorem not_stopsBetween_one (hlength : lexeme.length = 1) (hc : c ≠ p) :
    ¬ lexeme.StopsBetween p q (c :: rest) := by
  apply not_stopsBetween_of_getLast?
  simpa [hlength] using hc

/-- A mark of two characters whose second one is another one. -/
theorem not_stopsBetween_two {d : CodePoint} (hlength : lexeme.length = 2)
    (hrest : rest.head? = some d) (hd : d ≠ p) : ¬ lexeme.StopsBetween p q (c :: rest) := by
  apply not_stopsBetween_of_getLast?
  cases rest with
  | nil => cases hrest
  | cons e rest =>
    have he : e = d := Option.some.inj hrest
    simpa [hlength, he] using hd

/-- A lexeme that takes all of the text has nothing behind it. -/
theorem not_stopsBetween_of_length_le (h : t.length ≤ lexeme.length) :
    ¬ lexeme.StopsBetween p q t := by
  apply not_stopsBetween_of_head?
  simp [List.drop_eq_nil_of_le h]

/-! ### White space and comments -/

/-- A separator is white space. -/
theorem isWhitespace_of_mem_separator (hwhite : c.isWhitespace = true) :
    ∀ d ∈ (c :: rest).take (separator c rest).length, d.isWhitespace = true := by
  unfold separator
  split
  · simp only [List.take_succ_cons]
    refine List.forall_mem_cons.mpr ⟨hwhite, ?_⟩
    unfold lineBreakTail
    split
    · rename_i hbreak
      cases rest with
      | nil => simp at hbreak
      | cons d rest =>
        simp only [List.head?_cons, Bool.and_eq_true, decide_eq_true_eq, Option.some.injEq]
          at hbreak
        intro e he
        rw [List.mem_singleton.mp he, hbreak.2]
        decide
    · simp
  · simp only [List.take_succ_cons]
    refine List.forall_mem_cons.mpr ⟨hwhite, fun d hd => ?_⟩
    rw [CodePoint.isWhitespace, forall_take_takeWhile d hd, Bool.true_or]

/-- What is left behind the characters of a class is what dropping them leaves.
The library states both, but not their agreement by length. -/
theorem drop_takeWhile (f : CodePoint → Bool) (t : Text) :
    t.drop (t.takeWhile f).length = t.dropWhile f := by
  induction t with
  | nil => rfl
  | cons d t ih => by_cases hd : f d <;> simp [hd, ih]

/-- A line comment stops in front of the end of its line. -/
theorem isLineEnd_of_lineComment :
    ∀ d ∈ ((c :: rest).drop (lineComment rest).length).head?, d.isLineEnd = true := by
  intro d hnext
  simp only [lineComment, List.drop_succ_cons, drop_takeWhile] at hnext
  have hline := List.head?_dropWhile_not (fun c : CodePoint => !c.isLineEnd) rest
  rw [hnext] at hline
  simpa using hline

/-- A line comment holds no end of a line. -/
theorem isLineEnd_of_mem_lineComment (hc : c.isLineEnd = false) :
    ∀ d ∈ (c :: rest).take (lineComment rest).length, (!d.isLineEnd) = true := by
  simp only [lineComment, List.take_succ_cons]
  refine List.forall_mem_cons.mpr ⟨by simp [hc], forall_take_takeWhile⟩

/-- A line comment parts no two characters of which the first one ends a
line, or the second one does not. -/
theorem not_stopsBetween_lineComment (hc : c.isLineEnd = false)
    (h : p.isLineEnd = true ∨ q.isLineEnd = false) :
    ¬ (lineComment rest).StopsBetween p q (c :: rest) := by
  rcases h with hp | hq
  · exact not_stopsBetween_of_forall (by simp [hp]) (isLineEnd_of_mem_lineComment hc)
  · intro hstops
    have hline := isLineEnd_of_lineComment q hstops.next
    rw [hq] at hline
    cases hline

/-- The first occurrence of a pattern ends as the pattern does. -/
theorem getLast?_take_find? {pattern : Text} {offset : Nat} (hne : pattern ≠ [])
    (h : Text.find? pattern t = some offset) :
    (t.take (offset + pattern.length)).getLast? = pattern.getLast? := by
  induction t generalizing offset with
  | nil =>
    unfold Text.find? at h
    split at h
    · rename_i hp
      exact absurd (List.isEmpty_iff.mp hp) hne
    · cases h
  | cons c rest ih =>
    unfold Text.find? at h
    split at h
    · rename_i hp
      cases h
      rw [Nat.zero_add, ← List.prefix_iff_eq_take.mp (List.isPrefixOf_iff_prefix.mp hp)]
    · obtain ⟨offset, hoffset, rfl⟩ := Option.map_eq_some_iff.mp h
      have hlen : offset + 1 + pattern.length = offset + pattern.length + 1 := by omega
      have hlast := ih hoffset
      rw [hlen, List.take_succ_cons, List.getLast?_cons, hlast]
      cases hp : pattern.getLast? with
      | none => exact absurd (List.getLast?_eq_none_iff.mp hp) hne
      | some => rfl

/-- A comment ends as its terminator does, or with the text. -/
theorem getLast?_take_blockComment {front body : Text} {terminator : String}
    (hfront : 0 < front.length) (hlength : terminator.length = (Text.ofString terminator).length)
    (hne : Text.ofString terminator ≠ []) :
    ((front ++ body).take (blockComment (front.length - 1) terminator body).length).getLast?
        = (Text.ofString terminator).getLast? ∨
      (front ++ body).length ≤ (blockComment (front.length - 1) terminator body).length := by
  unfold blockComment
  split
  · rename_i offset hfound
    left
    have hend := getLast?_take_find? hne hfound
    have htake : (front ++ body).take (front.length - 1 + 1 + offset + terminator.length)
        = front ++ body.take (offset + (Text.ofString terminator).length) := by
      rw [← take_opener]
      congr 1
      omega
    simp only [htake, List.getLast?_append, hend]
    cases hlast : (Text.ofString terminator).getLast? with
    | none => exact absurd (List.getLast?_eq_none_iff.mp hlast) hne
    | some d => rfl
  · right
    simp only [List.length_append]
    omega

/-- A comment with a terminator ends with the terminator, or with the source.
The terminator must not end with `p`, and its length must be the number of its
characters; `front` is what the comment starts with. -/
theorem not_stopsBetween_blockComment {front body : Text} {terminator : String}
    (hfront : 0 < front.length)
    (hlength : terminator.length = (Text.ofString terminator).length)
    (hlast : ∃ d, (Text.ofString terminator).getLast? = some d ∧ d ≠ p) :
    ¬ (blockComment (front.length - 1) terminator body).StopsBetween p q (front ++ body) := by
  obtain ⟨d, hlast, hd⟩ := hlast
  have hne : Text.ofString terminator ≠ [] := by
    intro hnil
    rw [hnil] at hlast
    cases hlast
  rcases @getLast?_take_blockComment front body _ hfront hlength hne with hend | hend
  · apply not_stopsBetween_of_getLast?
    rw [hend, hlast]
    exact fun h => hd (Option.some.inj h)
  · exact not_stopsBetween_of_length_le hend

/-- A comment in markup ends with `>` or with the source, so it does not end
with any other character. -/
theorem not_stopsBetween_markupComment (hp : CodePoint.ofChar '>' ≠ p) (hc : c = '<')
    (hrest : startsWith "!--" rest = true) :
    ¬ (blockComment 3 "-->" (rest.drop 3)).StopsBetween p q (c :: rest) := by
  subst hc
  obtain ⟨body, rfl⟩ := List.isPrefixOf_iff_prefix.mp hrest
  exact @not_stopsBetween_blockComment p q ['<', '!', '-', '-'] body "-->" (by decide) rfl
    ⟨'>', by decide, hp⟩

/-! ### Strings -/

/-- A closed string ends with a quote, and an open one with the text. -/
theorem getLast?_take_stringBody :
    (t.take (stringBody t).length).getLast? = some (CodePoint.ofChar '"') ∨
      (stringBody t).length = t.length := by
  fun_induction stringBody t with
  | case1 => exact .inr rfl
  | case2 => exact .inl rfl
  | case3 => exact .inr rfl
  | case4 _ rest body _ ih =>
    rcases ih with ih | ih
    · left
      simp only [List.take_succ_cons, List.getLast?_cons, body, ih, Option.getD_some]
    · right
      simp only [List.length_cons, body, ih]
  | case5 _ rest _ _ body ih =>
    rcases ih with ih | ih
    · left
      simp only [List.take_succ_cons, List.getLast?_cons, body, ih, Option.getD_some]
    · right
      simp only [List.length_cons, body, ih]

/-- A string ends with a quote, or at the end of the source. So it does not end
with any other character. -/
theorem not_stopsBetween_string (hp : CodePoint.ofChar '"' ≠ p) :
    ¬ (string rest).StopsBetween p q (c :: rest) := by
  rcases @getLast?_take_stringBody rest with hlast | hlength
  · apply not_stopsBetween_of_getLast?
    simp only [string, List.take_succ_cons, List.getLast?_cons, hlast]
    exact fun h => hp (Option.some.inj h)
  · apply not_stopsBetween_of_length_le
    simp only [string, List.length_cons, hlength]
    omega

/-! ### Numbers and names -/

/-- True for the characters of numbers. -/
def inNumber (c : CodePoint) : Bool :=
  c.isDigit || c.isHexDigit || (Text.ofString "xX.+-").contains c

/-- A digit is a character of numbers. -/
theorem inNumber_of_isDigit (h : c.isDigit = true) : inNumber c = true := by
  simp [inNumber, h]

/-- An exponent holds characters of numbers only: its mark, its sign and its
digits. -/
theorem Exponent.inNumber (h : Exponent t) : ∀ d ∈ t, inNumber d = true := by
  cases h with
  | nil => simp
  | mark mark isSign isDigits =>
    refine List.forall_mem_cons.mpr ⟨?_, List.forall_mem_append.mpr ⟨?_, ?_⟩⟩
    · rcases mark with rfl | rfl <;> decide
    · rcases isSign with rfl | rfl | rfl <;> decide
    · exact fun d hd => inNumber_of_isDigit (isDigits.isDigit d hd)

/-- All characters of a number are characters of numbers. -/
theorem Numeral.inNumber {kind : TokenKind} (h : Numeral kind t) : ∀ d ∈ t, inNumber d = true := by
  cases h with
  | int isDigits => exact fun d hd => inNumber_of_isDigit (isDigits.isDigit d hd)
  | hex mark ne_nil isHexDigit =>
    refine List.forall_mem_cons.mpr ⟨by decide, List.forall_mem_cons.mpr ⟨?_, fun d hd => ?_⟩⟩
    · rcases mark with rfl | rfl <;> decide
    · simp [Lexeme.inNumber, isHexDigit d hd]
  | real isWhole isFraction isExponent =>
    refine List.forall_mem_append.mpr ⟨fun d hd => inNumber_of_isDigit (isWhole.isDigit d hd), ?_⟩
    refine List.forall_mem_cons.mpr ⟨by decide, List.forall_mem_append.mpr ⟨fun d hd => ?_, ?_⟩⟩
    · exact inNumber_of_isDigit (isFraction.isDigit d hd)
    · exact isExponent.inNumber

/-- All characters of a name start a name or continue one. The first one starts
it, which is the hypothesis. -/
theorem continuesName_of_mem_name {inTag : Bool} (hstart : startsName c = true) :
    ∀ d ∈ (c :: rest).take (name inTag c rest).length,
      (startsName d || continuesName inTag d) = true := by
  simp only [name, List.take_succ_cons]
  refine List.forall_mem_cons.mpr ⟨by simp [hstart], fun d hd => ?_⟩
  simp [forall_take_takeWhile d hd]

/-! ### Two characters that belong together -/

/-- True for the characters that a token can end with, unless it is white
space, a line comment or text. -/
def endsToken (c : CodePoint) : Bool :=
  inNumber c || startsName c || continuesName true c || (single? c).isSome ||
    (Text.ofString "\"&;@").contains c

/-- No rule parts these two characters. -/
structure Apart (p q : CodePoint) : Prop where
  last : endsToken p = false
  next : q ≠ '<'
  line : p.isLineEnd = true ∨ q.isLineEnd = false
  separator : ∀ (c : CodePoint) (rest : Text), c.isWhitespace = true →
    ¬ (separator c rest).StopsBetween p q (c :: rest)
  run : ∀ (typed : Bool) (c : CodePoint) (rest : Text), textEscape? typed c rest = none →
    ¬ (textRun typed c rest).StopsBetween p q (c :: rest)

/-- A character that tokens end with is another one. -/
theorem Apart.ne (h : Apart p q) {d : CodePoint} (hd : endsToken d = true) : d ≠ p := by
  intro hsame
  rw [hsame, h.last] at hd
  cases hd

/-- What is skipped is one character that starts no token. -/
structure Skips (p : CodePoint) (lexeme : Lexeme) (c : CodePoint) : Prop where
  same : c = p
  black : c.isWhitespace = false
  kind : lexeme.kind = .skipped
  problem : lexeme.problem = if Utf8.isEscapedByte p then none else some .invalidCharacter

variable (h : Apart p q)

include h

/-- If an operator or a punctuation mark stops between the two characters, it is
no token but the skipped `p` itself. The first character must not be white
space, since that is read before marks are. -/
theorem stopsBetween_mark {inTag : Bool} (hblack : c.isWhitespace = false)
    (hstops : (mark inTag c rest).StopsBetween p q (c :: rest)) :
    (mark inTag c rest).Skips p c := by
  unfold mark at hstops ⊢
  split
  · rename_i kind hkind
    simp only [hkind] at hstops
    split at hkind
    · cases hkind
    · obtain ⟨entry, hentry, rfl⟩ := Option.map_eq_some_iff.mp hkind
      have hall : ∀ entry ∈ pairs, endsToken (CodePoint.ofChar entry.2.1) = true := by decide
      have hsecond := List.find?_some hentry
      simp only [Bool.and_eq_true, decide_eq_true_eq] at hsecond
      have hne := h.ne (hall entry (List.mem_of_find?_eq_some hentry))
      exact absurd hstops (not_stopsBetween_two rfl hsecond.2 hne)
  · rename_i hpair
    simp only [hpair] at hstops
    split
    · rename_i kind hkind
      simp only [hkind] at hstops
      have hne := h.ne (d := c) (by simp [endsToken, hkind])
      exact absurd hstops (not_stopsBetween_one rfl hne)
    · rename_i hsingle
      simp only [hsingle] at hstops
      have hsame : c = p := Option.some.inj hstops.last
      exact ⟨hsame, hblack, rfl, by rw [hsame]⟩

/-- The same of every lexeme of code. Comments, strings, numbers and names are
excluded one by one, and a mark is all that is left. -/
theorem stopsBetween_code {inTag : Bool}
    (hstops : (code inTag c rest).StopsBetween p q (c :: rest)) :
    (code inTag c rest).Skips p c := by
  -- The cases are those in which the lexer tries its rules. All but the last one are impossible.
  unfold code at hstops ⊢
  split
  · rename_i hwhite
    rw [if_pos hwhite] at hstops
    exact absurd hstops (h.separator c rest hwhite)
  rename_i hblack
  rw [if_neg hblack] at hstops
  split
  · rename_i hc
    rw [if_pos hc] at hstops
    simp only [Bool.and_eq_true, decide_eq_true_eq] at hc
    exact absurd hstops (not_stopsBetween_lineComment (by rw [hc.1]; decide) h.line)
  rename_i hline
  rw [if_neg hline] at hstops
  split
  · rename_i hc
    rw [if_pos hc] at hstops
    simp only [Bool.and_eq_true, decide_eq_true_eq] at hc
    obtain ⟨rfl, hrest⟩ := hc
    obtain ⟨body, rfl⟩ := exists_of_startsWith_singleton rfl hrest
    exact absurd hstops (@not_stopsBetween_blockComment p q ['/', '*'] body "*/" (by decide) rfl
      ⟨'/', by decide, h.ne (by decide)⟩)
  rename_i hblock
  rw [if_neg hblock] at hstops
  split
  · rename_i hc
    rw [if_pos hc] at hstops
    simp only [Bool.and_eq_true, decide_eq_true_eq] at hc
    exact absurd hstops (not_stopsBetween_markupComment (h.ne (by decide)) hc.1 hc.2)
  rename_i hmarkup
  rw [if_neg hmarkup] at hstops
  split
  · rename_i hc
    rw [if_pos hc] at hstops
    exact absurd hstops (not_stopsBetween_string (h.ne (by decide)))
  rename_i hquote
  rw [if_neg hquote] at hstops
  -- Numbers and names are all of their characters, and `p` is in neither class.
  have hlast := h.last
  simp only [endsToken, Bool.or_eq_false_iff] at hlast
  obtain ⟨⟨⟨⟨hnumber, hstart⟩, hcontinue⟩, -⟩, -⟩ := hlast
  split
  · rename_i hdigit
    rw [if_pos hdigit] at hstops
    exact absurd hstops (not_stopsBetween_of_forall hnumber (numeral_number hdigit).inNumber)
  rename_i hdigit
  rw [if_neg hdigit] at hstops
  split
  · rename_i hname
    rw [if_pos hname] at hstops
    have hother : (startsName p || continuesName inTag p) = false := by
      cases inTag with
      | true => simp [hstart, hcontinue]
      | false =>
        simp only [continuesName, Bool.or_eq_false_iff] at hcontinue
        simp [hstart, continuesName, hcontinue.1.1, hcontinue.1.2]
    exact absurd hstops (not_stopsBetween_of_forall hother (continuesName_of_mem_name hname))
  rename_i hname
  rw [if_neg hname] at hstops
  exact stopsBetween_mark h (Bool.eq_false_iff.mpr hblack) hstops

omit h

/-! ### Text -/

/-- A character reference ends with a semicolon. -/
theorem getLast?_take_entityLength (h : 0 < entityLength t) :
    (t.take (entityLength t)).getLast? = some (CodePoint.ofChar ';') := by
  cases t with
  | nil => cases h
  | cons c rest =>
    simp only [entityLength] at h ⊢
    split at h
    · rename_i hc
      rw [if_pos hc]
      split at h
      · rename_i hsemicolon
        rw [if_pos hsemicolon]
        obtain ⟨body, hbody⟩ :=
          exists_of_startsWith_singleton rfl (Bool.and_eq_true_iff.mp hsemicolon).2
        rw [List.take_succ_cons, List.take_add, hbody, List.take_succ_cons, List.take_zero]
        rw [← List.cons_append, List.getLast?_append]
        rfl
      · cases h
    · cases h

/-- A text that starts with a pattern of one character has that character in
front. -/
theorem head?_of_startsWith {pattern : String} {d : CodePoint}
    (hpattern : Text.ofString pattern = [d]) (h : startsWith pattern t = true) :
    t.head? = some d := by
  obtain ⟨rest, rfl⟩ := exists_of_startsWith_singleton hpattern h
  rfl

/-- The second character of an escape is a brace or `@`. -/
theorem head?_of_textEscape? {typed : Bool} {kind : TokenKind}
    (h : textEscape? typed c rest = some kind) :
    ∃ d, rest.head? = some d ∧ endsToken d = true := by
  unfold textEscape? at h
  split at h
  · cases h
  split at h
  · rename_i hs
    exact ⟨'\x7b', head?_of_startsWith rfl hs, by decide⟩
  split at h
  · rename_i hs
    exact ⟨'\x7d', head?_of_startsWith rfl hs, by decide⟩
  split at h
  · rename_i hs
    exact ⟨'@', head?_of_startsWith rfl (Bool.and_eq_true_iff.mp hs).2, by decide⟩
  · cases h

/-- A run of text stops where text ends. -/
theorem endsText_of_drop_textLength {typed : Bool} {d : CodePoint} {tail : Text}
    (h : t.drop (textLength typed t) = d :: tail) : endsText typed d tail = true := by
  induction t with
  | nil => cases h
  | cons c rest ih =>
    unfold textLength at h
    split at h
    · rename_i hends
      cases h
      exact hends
    · exact ih h

include h

/-- The markup that ends a run of text stops between no two characters that
belong together: it is a comment or a mark, and `p` is the last character of
none of them. -/
theorem not_stopsBetween_textMarkup {typed : Bool}
    (hmarkup : textMarkup? typed c rest = some lexeme) :
    ¬ lexeme.StopsBetween p q (c :: rest) := by
  unfold textMarkup? at hmarkup
  split at hmarkup
  · split at hmarkup
    · rename_i hs
      cases hmarkup
      exact not_stopsBetween_two rfl (head?_of_startsWith rfl (Bool.and_eq_true_iff.mp hs).2)
        (h.ne (by decide))
    split at hmarkup
    · rename_i hs
      cases hmarkup
      simp only [Bool.and_eq_true, decide_eq_true_eq] at hs
      exact not_stopsBetween_one rfl (h.ne (by rw [hs.1]; decide))
    · cases hmarkup
  · split at hmarkup
    · rename_i hs
      simp only [Bool.and_eq_true, decide_eq_true_eq] at hs
      cases hmarkup
      exact not_stopsBetween_markupComment (h.ne (by decide)) hs.1 hs.2
    split at hmarkup
    · rename_i hc
      cases hmarkup
      exact not_stopsBetween_one rfl (h.ne (by rw [hc]; decide))
    split at hmarkup
    · rename_i hc
      cases hmarkup
      exact not_stopsBetween_one rfl (h.ne (by rw [hc]; decide))
    split at hmarkup
    · rename_i hc
      cases hmarkup
      exact not_stopsBetween_one rfl (h.ne (by rw [hc]; decide))
    · cases hmarkup

/-- No lexeme of a run of text stops between two characters that belong
together. Text that is skipped does not exist, so there is no exception here. -/
theorem not_stopsBetween_text (typed : Bool) (c : CodePoint) (rest : Text) :
    ¬ (text typed c rest).StopsBetween p q (c :: rest) := by
  unfold text
  split
  · rename_i kind hkind
    obtain ⟨d, hrest, hd⟩ := head?_of_textEscape? hkind
    exact not_stopsBetween_two rfl hrest (h.ne hd)
  · rename_i hescape
    split
    · rename_i hentity
      apply not_stopsBetween_of_getLast?
      rw [getLast?_take_entityLength hentity]
      exact fun hlast => h.ne (by decide) (Option.some.inj hlast)
    · cases hmarkup : textMarkup? typed c rest with
      | none => exact h.run typed c rest hescape
      | some lexeme => exact not_stopsBetween_textMarkup h hmarkup

omit h

/-! ### Raw bodies -/

/-- A closing tag starts with `<`. -/
theorem head?_of_endsRaw {tag : Option Text} (h : endsRaw tag t = true) :
    t.head? = some (CodePoint.ofChar '<') := by
  unfold endsRaw at h
  split at h
  · obtain ⟨rest, hrest⟩ := List.isPrefixOf_iff_prefix.mp h
    rw [← hrest]
    rfl
  · obtain ⟨rest, rfl⟩ := exists_of_startsWith_singleton (c := CodePoint.ofChar '<') rfl
      (Bool.and_eq_true_iff.mp h).1
    rfl

/-- A raw body stops at its closing tag. -/
theorem head?_drop_rawLength {tag : Option Text} {length : Nat}
    (h : rawLength? tag t = some length) :
    (t.drop length).head? = some (CodePoint.ofChar '<') := by
  induction t generalizing length with
  | nil => cases h
  | cons c rest ih =>
    unfold rawLength? at h
    split at h
    · rename_i hends
      cases h
      exact head?_of_endsRaw hends
    · obtain ⟨length, hlength, rfl⟩ := Option.map_eq_some_iff.mp h
      exact ih hlength

include h

/-- A raw body stops in front of the `<` of its closing tag or at the end of the
source, and that `<` is not the first of the two. -/
theorem not_stopsBetween_raw (tag : Option Text) (c : CodePoint) (rest : Text) :
    ¬ (raw tag c rest).StopsBetween p q (c :: rest) := by
  unfold raw
  split
  · rename_i hends
    have hc : c = CodePoint.ofChar '<' := Option.some.inj (head?_of_endsRaw hends)
    exact not_stopsBetween_one rfl (h.ne (by rw [hc]; decide))
  · split
    · rename_i length hlength
      apply not_stopsBetween_of_head?
      rw [List.drop_succ_cons, head?_drop_rawLength hlength]
      exact fun hnext => h.next (Option.some.inj hnext).symm
    · exact not_stopsBetween_of_length_le (Nat.le_refl _)

/-- In every context the only lexeme that stops between the two
characters is the first one, if it starts no token. -/
theorem stopsBetween_next {context : LexContext}
    (hstops : (next context c rest).StopsBetween p q (c :: rest)) :
    (next context c rest).Skips p c := by
  cases context with
  | normal => exact stopsBetween_code h hstops
  | tag => exact stopsBetween_code h hstops
  | text => exact absurd hstops (not_stopsBetween_text h false c rest)
  | typedText => exact absurd hstops (not_stopsBetween_text h true c rest)
  | raw tag => exact absurd hstops (not_stopsBetween_raw h tag c rest)

end Lexeme

end MarkupSyntax
