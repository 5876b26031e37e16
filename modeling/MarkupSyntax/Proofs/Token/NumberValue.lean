import MarkupSyntax.Proofs.Token.Constants
import MarkupSyntax.Proofs.Token.Ends
import MarkupSyntax.Proofs.Token.Names
import MarkupSyntax.Proofs.Token.Reading
import MarkupSyntax.View.Literal

/-!
# `MarkupSyntax.Proofs.Token.NumberValue`: which numbers have a value

The lexer and the conversions know numbers by grammars of their own. The
conversions take more: blanks and signs in front, underscores between
digits, words for what is no number. Nothing of that stands in a numeral
(`Lexeme.Numeral.trimNumber_eq` and the lemmas behind it). They take less in
two ways. The lexer goes by all digits of Unicode, and only the decimal ones
among them have a value; and an integer in base ten can have no more than
`maxDecimalDigits` digits, however it is lexed. So a hexadecimal numeral has
a value, a real one has a value if all its digits are decimal
(`Lexeme.Numeral.isSome_realBits?_iff`), and an integer if that holds and
they are not too many (`exists_decimalInteger_iff`).
-/

set_option autoImplicit false

namespace MarkupSyntax

/-! ### Digits and other characters -/

namespace CodePoint

variable {c : CodePoint}

/-- No digit is a blank. -/
theorem isBlank_of_isDigit (h : c.isDigit = true) : c.isBlank = false := by
  by_contra hblank
  rw [Bool.not_eq_false] at hblank
  have hapart : blankRanges.isApart digitRanges = true := by decide +kernel
  exact Bool.eq_false_iff.mp (CodeSet.holds_eq_false_of_isApart hapart hblank) h

/-- No digit is a letter, so there is no other case of it. -/
theorem lowerLetter_of_isDigit (h : c.isDigit = true) : Text.lowerLetter c = c := by
  unfold Text.lowerLetter
  rw [if_neg]
  intro hcapital
  have hapart : CodeSet.isApart [(0x41, 0x5A)] digitRanges = true := by decide +kernel
  simp only [isBetween, Bool.and_eq_true, decide_eq_true_eq] at hcapital
  have hholds : CodeSet.holds [(0x41, 0x5A)] c.val = true := by
    simp only [CodeSet.holds]
    rw [if_neg (by omega), if_pos hcapital.2]
  exact Bool.eq_false_iff.mp (CodeSet.holds_eq_false_of_isApart hapart hholds) h

end CodePoint

/-- A character of numbers is no blank, so blanks at the ends of a number are no
part of its token. -/
theorem Lexeme.isNumberBlank_of_inNumber {c : CodePoint} (h : inNumber c = true) :
    Text.isNumberBlank c = false := by
  have hblank : c.isBlank = false := by
    simp only [inNumber, Bool.or_eq_true] at h
    rcases h with (h | h) | h
    · exact CodePoint.isBlank_of_isDigit h
    · -- Hexadecimal digits are between `0` and `f`, and no blank is.
      by_contra hblank
      rw [Bool.not_eq_false] at hblank
      have hapart : blankRanges.isApart [(0x30, 0x66)] = true := by decide
      have hout := CodeSet.holds_eq_false_of_isApart hapart hblank
      simp only [CodePoint.isHexDigit, CodePoint.hexValue?, CodePoint.isBetween, Bool.and_eq_true,
        decide_eq_true_eq] at h
      simp only [CodeSet.holds] at hout
      split_ifs at h hout <;> first | omega | cases h
    · have hall : ∀ c ∈ Text.ofString "xX.+-", c.isBlank = false := by decide
      exact hall c (List.contains_iff_mem.mp h)
  rw [Text.isNumberBlank, hblank, Bool.false_and]

namespace Text

variable {t digits rest : Text} {c : CodePoint}

/-! ### What conversions do not find -/

/-- A text without blanks has none at its ends. -/
theorem trimNumber_eq_self (h : ∀ c ∈ t, isNumberBlank c = false) : trimNumber t = t := by
  have hkeep : ∀ {t : Text}, (∀ c ∈ t, isNumberBlank c = false) → t.dropWhile isNumberBlank = t := by
    intro t h
    cases t with
    | nil => rfl
    | cons c t => rw [List.dropWhile_cons_of_neg (by simp [h c List.mem_cons_self])]
  rw [trimNumber, hkeep h, hkeep fun c hc => h c (List.mem_reverse.mp hc), List.reverse_reverse]

/-- There is no sign in front of a digit. -/
theorem splitSign_cons (h : c.isDigit = true) : splitSign (c :: t) = (false, c :: t) := by
  have hminus : c ≠ '-' := CodePoint.ne_of_isDigit h (by decide)
  have hplus : c ≠ '+' := CodePoint.ne_of_isDigit h (by decide)
  simp only [splitSign, if_neg hminus, if_neg hplus]

/-- What starts with a digit has no sign. -/
theorem Digits.splitSign_append (h : digits.Digits) :
    splitSign (digits ++ rest) = (false, digits ++ rest) := by
  obtain ⟨c, others, rfl⟩ := List.exists_cons_of_ne_nil h.ne_nil
  exact splitSign_cons (h.isDigit c List.mem_cons_self)

/-- Without underscores each character has a value. -/
theorem digitValues?_eq_mapM {value? : CodePoint → Option Nat} (hne : t ≠ [])
    (h : ∀ c ∈ t, c ≠ '_') : digitValues? value? t = t.mapM value? := by
  fun_induction digitValues? value? t with
  | case1 => exact absurd rfl hne
  | case2 c => cases hc : value? c <;> simp [hc]
  | case3 c d rest _ ih =>
    obtain ⟨-, hrest⟩ := List.forall_mem_cons.mp h
    rw [List.mapM_cons, ← ih (List.cons_ne_nil _ _) hrest]
    simp only [if_neg (hrest d List.mem_cons_self)]

/-- A text without underscores stays as it is, so none of them stands at a wrong
place. -/
theorem dropUnderscores?_eq_self {afterDigit : Bool} (h : ∀ c ∈ t, c ≠ '_') :
    dropUnderscores? afterDigit t = some t := by
  induction t generalizing afterDigit with
  | nil => rfl
  | cons c t ih =>
    obtain ⟨hc, ht⟩ := List.forall_mem_cons.mp h
    rw [dropUnderscores?, if_neg hc, ih ht, Option.map_some]

/-- All characters have a value exactly if each of them has one. -/
theorem isSome_mapM_iff {value? : CodePoint → Option Nat} :
    (t.mapM value?).isSome = true ↔ ∀ c ∈ t, (value? c).isSome = true := by
  induction t with
  | nil => simp
  | cons c t ih =>
    rw [List.mapM_cons, List.forall_mem_cons, ← ih]
    cases value? c <;> cases t.mapM value? <;> simp

/-- As many values are read as there are characters. -/
theorem length_of_mapM {value? : CodePoint → Option Nat} {values : List Nat}
    (h : t.mapM value? = some values) : values.length = t.length := by
  induction t generalizing values with
  | nil =>
    cases h
    rfl
  | cons c t ih =>
    rw [List.mapM_cons] at h
    simp only [Option.bind_eq_bind, Option.bind_eq_some_iff] at h
    obtain ⟨value, -, others, hothers, hvalues⟩ := h
    cases hvalues
    exact congrArg Nat.succ (ih hothers)

/-! ### Integers -/

/-- All digits of a text are decimal digits. -/
def IsDecimal (t : Text) : Prop := ∀ c ∈ t, c.isDigit = true → c.decimalValue?.isSome = true

/-- For a text of digits only, to be decimal is that each of its characters has
a decimal value. A digit of another kind, as a superscript, has none. -/
theorem Digits.isDecimal_iff (h : digits.Digits) :
    digits.IsDecimal ↔ ∀ c ∈ digits, c.decimalValue?.isSome = true :=
  ⟨fun hall c hc => hall c hc (h.isDigit c hc), fun hall c hc _ => hall c hc⟩

/-- A text without digits is decimal. -/
theorem isDecimal_of_forall (h : ∀ c ∈ t, c.isDigit = false) : t.IsDecimal := by
  intro c hc hdigit
  rw [h c hc] at hdigit
  cases hdigit

/-- Two texts are decimal together exactly if each of them is. -/
theorem isDecimal_append : (t ++ rest).IsDecimal ↔ t.IsDecimal ∧ rest.IsDecimal :=
  List.forall_mem_append

/-- There are no blanks around digits and no sign in front of them. -/
theorem Digits.splitSign_trimNumber (h : digits.Digits) :
    splitSign (trimNumber digits) = (false, digits) := by
  have hsign := @h.splitSign_append digits []
  rw [List.append_nil] at hsign
  rw [trimNumber_eq_self fun c hc =>
    Lexeme.isNumberBlank_of_inNumber (Lexeme.inNumber_of_isDigit (h.isDigit c hc)), hsign]

/-- Decimal digits are read as their number, as long as there are not too
many of them. -/
theorem Digits.decimalInteger_eq (h : digits.Digits) {values : List Nat}
    (hvalues : digits.mapM CodePoint.decimalValue? = some values) :
    decimalInteger digits = if maxDecimalDigits < digits.length
      then .error (.tooManyDigits digits.length) else .ok (valueOfDigits 10 values : Int) := by
  have hunderscore : ∀ c ∈ digits, c ≠ '_' := fun c hc =>
    CodePoint.ne_of_isDigit (h.isDigit c hc) (by decide)
  have hall := isSome_mapM_iff.mp (Option.isSome_iff_exists.mpr ⟨values, hvalues⟩)
  have htake : digits.takeWhile (fun c : CodePoint => c.decimalValue?.isSome || c = '_') = digits :=
    List.takeWhile_eq_self_iff.mpr fun c hc => by rw [hall c hc, Bool.true_or]
  rw [decimalInteger, h.splitSign_trimNumber]
  simp only [htake, digitValues?_eq_mapM h.ne_nil hunderscore, hvalues, length_of_mapM hvalues,
    Nat.lt_irrefl, Bool.false_eq_true, if_false]

/-- Digits are read as a number if and only if they are decimal, and not
too many. -/
theorem Digits.exists_decimalInteger_iff (h : digits.Digits) :
    (∃ n, decimalInteger digits = .ok n) ↔
      digits.IsDecimal ∧ digits.length ≤ maxDecimalDigits := by
  constructor
  · rintro ⟨n, hn⟩
    -- Digits are read up to one that is not decimal, so none is, and they are counted.
    have hdecimal : digits.IsDecimal := by
      rw [h.isDecimal_iff]
      intro c hc
      rw [decimalInteger, h.splitSign_trimNumber] at hn
      dsimp only at hn
      split at hn
      · cases hn
      split at hn
      · cases hn
      split at hn
      · cases hn
      rename_i hshort
      have hall := List.takeWhile_eq_self_iff.mp
        ((List.takeWhile_prefix _).eq_of_length_le (Nat.le_of_not_lt hshort)) c hc
      have hc : c ≠ '_' := CodePoint.ne_of_isDigit (h.isDigit c hc) (by decide)
      simpa [hc] using hall
    obtain ⟨values, hvalues⟩ :=
      Option.isSome_iff_exists.mp (isSome_mapM_iff.mpr (h.isDecimal_iff.mp hdecimal))
    rw [h.decimalInteger_eq hvalues] at hn
    refine ⟨hdecimal, Nat.le_of_not_lt fun hmany => ?_⟩
    rw [if_pos hmany] at hn
    cases hn
  · rintro ⟨hdecimal, hfew⟩
    obtain ⟨values, hvalues⟩ :=
      Option.isSome_iff_exists.mp (isSome_mapM_iff.mpr (h.isDecimal_iff.mp hdecimal))
    exact ⟨_, (h.decimalInteger_eq hvalues).trans (if_neg (Nat.not_lt.mpr hfew))⟩

/-- The digits behind the mark of a hexadecimal number. -/
theorem hexadecimalInteger?_eq {x : CodePoint} (mark : x = 'x' ∨ x = 'X') (hne : digits ≠ [])
    (h : ∀ d ∈ digits, d.isHexDigit = true) :
    hexadecimalInteger? (CodePoint.ofChar '0' :: x :: digits)
      = (digits.mapM hexadecimalValue?).map fun values => (valueOfDigits 16 values : Int) := by
  have hnumeral := Lexeme.Numeral.hex mark hne h
  have hunderscore : ∀ d ∈ digits, d ≠ '_' := by
    rintro _ hd rfl
    exact absurd (h _ hd) (by decide)
  have hmark : dropHexMark (CodePoint.ofChar '0' :: x :: digits) = digits := by
    have hhead : digits.head? ≠ some (CodePoint.ofChar '_') := fun hhead =>
      hunderscore _ (List.mem_of_head? hhead) rfl
    have hzero : (CodePoint.ofChar '0').decimalValue? = some 0 := by decide
    simp [dropHexMark, hzero, mark, hhead]
  rw [hexadecimalInteger?, trimNumber_eq_self fun c hc =>
    Lexeme.isNumberBlank_of_inNumber (hnumeral.inNumber c hc), splitSign_cons (by decide)]
  simp only [hmark, digitValues?_eq_mapM hne hunderscore]
  cases digits.mapM hexadecimalValue? <;> rfl

/-! ### Real numbers -/

/-- Decimal digits are all read, up to what is none. -/
theorem spanDigits_append (h : ∀ c ∈ digits, c.decimalValue?.isSome = true)
    (hrest : ∀ c ∈ rest.head?, c.decimalValue? = none) :
    spanDigits (digits ++ rest) = (digits.filterMap CodePoint.decimalValue?, rest) := by
  have htake : rest.takeWhile (fun c => c.decimalValue?.isSome) = [] ∧
      rest.dropWhile (fun c => c.decimalValue?.isSome) = rest := by
    cases rest with
    | nil => exact ⟨rfl, rfl⟩
    | cons c rest => simp [hrest c rfl]
  rw [spanDigits, List.takeWhile_append_of_pos h, List.dropWhile_append_of_pos h, htake.1, htake.2,
    List.append_nil]

/-- A digit that is not decimal stops them. -/
theorem exists_snd_spanDigits (h : ∀ c ∈ digits, c.isDigit = true)
    (hnot : ¬∀ c ∈ digits, c.decimalValue?.isSome = true) :
    ∃ c behind, c.isDigit = true ∧ (spanDigits (digits ++ rest)).2 = c :: behind := by
  induction digits with
  | nil => exact absurd (List.forall_mem_nil _) hnot
  | cons c digits ih =>
    obtain ⟨hc, hdigits⟩ := List.forall_mem_cons.mp h
    rw [List.forall_mem_cons, not_and] at hnot
    rw [spanDigits, List.cons_append, List.dropWhile_cons]
    by_cases hdecimal : c.decimalValue?.isSome = true
    · rw [if_pos hdecimal]
      exact ih hdigits (hnot hdecimal)
    · rw [if_neg hdecimal]
      exact ⟨c, _, hc, rfl⟩

/-- Whether there is an exponent is told by its first character. -/
theorem exponent?_cons (h : c.isDigit = true) : exponent? (c :: t) = none := by
  have hsmall : c ≠ 'e' := CodePoint.ne_of_isDigit h (by decide)
  have hcapital : c ≠ 'E' := CodePoint.ne_of_isDigit h (by decide)
  simp [exponent?, hsmall, hcapital]

/-- The digits of an exponent, behind its mark and sign. -/
theorem isSome_exponent?_iff {e : CodePoint} {sign : Text} (mark : e = 'e' ∨ e = 'E')
    (isSign : sign = [] ∨ sign = [CodePoint.ofChar '+'] ∨ sign = [CodePoint.ofChar '-'])
    (h : digits.Digits) :
    (exponent? (e :: (sign ++ digits))).isSome = true ↔
      ∀ c ∈ digits, c.decimalValue?.isSome = true := by
  have hsplit : (splitSign (sign ++ digits)).2 = digits := by
    rcases isSign with rfl | rfl | rfl
    · have hsign := @h.splitSign_append _ []
      rw [List.append_nil] at hsign
      rw [List.nil_append, hsign]
    · rfl
    · rfl
  -- An exponent has to take the digits to the end, so nothing may be left of them.
  by_cases hall : ∀ c ∈ digits, c.decimalValue?.isSome = true
  · have hspan := @spanDigits_append _ [] hall (by simp)
    rw [List.append_nil] at hspan
    obtain ⟨d, others, rfl⟩ := List.exists_cons_of_ne_nil h.ne_nil
    obtain ⟨value, hvalue⟩ := Option.isSome_iff_exists.mp (hall d List.mem_cons_self)
    rw [List.filterMap_cons_some hvalue] at hspan
    refine iff_of_true ?_ hall
    simp [exponent?, mark, hsplit, hspan]
  · obtain ⟨c, behind, -, hspan⟩ := @exists_snd_spanDigits _ [] h.isDigit hall
    rw [List.append_nil] at hspan
    obtain ⟨values, hpair⟩ : ∃ values, spanDigits digits = (values, c :: behind) :=
      ⟨_, Prod.ext rfl hspan⟩
    refine iff_of_false ?_ hall
    simp [exponent?, hsplit, hpair]

/-- A digit where there should be a point or an exponent is too much. -/
theorem unsignedReal?_eq_none {behind : Text} (h : (spanDigits t).2 = c :: behind)
    (hc : c.isDigit = true) : unsignedReal? t = none := by
  have hpoint : c ≠ '.' := CodePoint.ne_of_isDigit hc (by decide)
  simp [unsignedReal?, h, hpoint, exponent?_cons hc]

/-- Behind decimal digits and a point the rest decides. -/
theorem isSome_unsignedReal?_point (h : digits.Digits)
    (hall : ∀ c ∈ digits, c.decimalValue?.isSome = true) :
    (unsignedReal? (digits ++ CodePoint.ofChar '.' :: rest)).isSome
      = (exponent? (spanDigits rest).2).isSome := by
  have hpoint : ∀ c ∈ (CodePoint.ofChar '.' :: rest).head?, c.decimalValue? = none := by
    simp only [List.head?_cons, Option.mem_some_iff, forall_eq']
    decide
  have hspan := spanDigits_append hall hpoint
  obtain ⟨d, others, rfl⟩ := List.exists_cons_of_ne_nil h.ne_nil
  obtain ⟨value, hvalue⟩ := Option.isSome_iff_exists.mp (hall d List.mem_cons_self)
  rw [List.filterMap_cons_some hvalue] at hspan
  simp only [unsignedReal?, hspan, List.head?_cons, if_true, List.drop_one, List.tail_cons,
    List.isEmpty_cons, Bool.false_and, Bool.false_eq_true, if_false]
  generalize exponent? (spanDigits rest).2 = found
  cases found <;> rfl

end Text

namespace Lexeme

open Text

variable {t : Text}

/-- An exponent does not start with a digit. -/
theorem Exponent.decimalValue?_head (h : Exponent t) :
    ∀ c ∈ t.head?, c.decimalValue? = none := by
  cases h with
  | nil => simp
  | mark mark isSign isDigits =>
    rintro c hc
    cases hc
    rcases mark with rfl | rfl <;> decide

/-- An exponent has a value if its digits are decimal. -/
theorem Exponent.isSome_exponent?_iff (h : Exponent t) :
    (exponent? t).isSome = true ↔ t.IsDecimal := by
  cases h with
  | nil => exact iff_of_true rfl (List.forall_mem_nil _)
  | @mark e sign digits mark isSign isDigits =>
    have hmark : Text.IsDecimal (e :: sign) := by
      refine isDecimal_of_forall (List.forall_mem_cons.mpr ⟨?_, ?_⟩)
      · rcases mark with rfl | rfl <;> decide
      · rcases isSign with rfl | rfl | rfl <;> decide
    rw [Text.isSome_exponent?_iff mark isSign isDigits, ← isDigits.isDecimal_iff, ← List.cons_append,
      isDecimal_append, and_iff_right hmark]

namespace Numeral

/-- The text of a number has no blanks at its ends. -/
theorem trimNumber_eq {kind : TokenKind} (h : Numeral kind t) : trimNumber t = t :=
  trimNumber_eq_self fun c hc => isNumberBlank_of_inNumber (h.inNumber c hc)

/-- The text of a number holds no underscore: the lexer ends a number at one. -/
theorem ne_underscore {kind : TokenKind} (h : Numeral kind t) : ∀ c ∈ t, c ≠ '_' := by
  rintro _ hc rfl
  exact absurd (h.inNumber _ hc) (by decide)

/-- An integer has a value if its digits are decimal, and not too many. -/
theorem exists_decimalInteger_iff (h : Numeral .int t) :
    (∃ n, decimalInteger t = .ok n) ↔ t.IsDecimal ∧ t.length ≤ maxDecimalDigits := by
  cases h with
  | int isDigits => exact isDigits.exists_decimalInteger_iff

/-- A hexadecimal number always has one. -/
theorem isSome_hexadecimalInteger? (h : Numeral .hex t) :
    (hexadecimalInteger? t).isSome = true := by
  cases h with
  | hex mark ne_nil isHexDigit =>
    rw [hexadecimalInteger?_eq mark ne_nil isHexDigit, Option.isSome_map, isSome_mapM_iff]
    intro d hd
    rw [hexadecimalValue?, Option.isSome_or, Bool.or_eq_true]
    exact .inr (isHexDigit d hd)

/-- There is no sign in a real number, and it is none of the words. -/
theorem realBits?_eq (h : Numeral .real t) : realBits? t = unsignedReal? t := by
  have htrim := h.trimNumber_eq
  have hunderscore := @dropUnderscores?_eq_self _ false h.ne_underscore
  cases h with
  | real isWhole isFraction isExponent =>
    obtain ⟨d, others, rfl⟩ := List.exists_cons_of_ne_nil isWhole.ne_nil
    have hdigit : d.isDigit = true := isWhole.isDigit d List.mem_cons_self
    have hlower := CodePoint.lowerLetter_of_isDigit hdigit
    have hi : d ≠ 'i' := CodePoint.ne_of_isDigit hdigit (by decide)
    have hn : d ≠ 'n' := CodePoint.ne_of_isDigit hdigit (by decide)
    have hwords : Text.ofString "inf" = [CodePoint.ofChar 'i', 'n', 'f'] ∧
        Text.ofString "infinity" = [CodePoint.ofChar 'i', 'n', 'f', 'i', 'n', 'i', 't', 'y'] ∧
        Text.ofString "nan" = [CodePoint.ofChar 'n', 'a', 'n'] := by decide
    rw [List.cons_append] at htrim hunderscore ⊢
    rw [realBits?, htrim, hunderscore]
    simp only [splitSign_cons hdigit, List.map_cons, hlower, hwords, List.cons.injEq, hi, hn,
      false_and, decide_false, Bool.or_false, if_false, Bool.false_eq_true, Option.bind_eq_bind,
      Option.bind_some]
    exact Option.bind_fun_some _

/-- A real number has a value if all its digits are decimal. -/
theorem isSome_realBits?_iff (h : Numeral .real t) : (realBits? t).isSome = true ↔ t.IsDecimal := by
  rw [h.realBits?_eq]
  cases h with
  | @real whole fraction exponent isWhole isFraction isExponent =>
    have hpoint : Text.IsDecimal [CodePoint.ofChar '.'] := isDecimal_of_forall (by decide)
    rw [← List.singleton_append, isDecimal_append, isDecimal_append, isDecimal_append,
      and_iff_right hpoint, isWhole.isDecimal_iff, isFraction.isDecimal_iff, List.singleton_append]
    -- The reading stops at the first digit that is not decimal, in front of the point or behind.
    by_cases hwhole : ∀ c ∈ whole, c.decimalValue?.isSome = true
    · rw [isSome_unsignedReal?_point isWhole hwhole, and_iff_right hwhole]
      by_cases hfraction : ∀ c ∈ fraction, c.decimalValue?.isSome = true
      · rw [spanDigits_append hfraction isExponent.decimalValue?_head, isExponent.isSome_exponent?_iff,
          and_iff_right hfraction]
      · obtain ⟨c, behind, hc, hspan⟩ :=
          @exists_snd_spanDigits _ exponent isFraction.isDigit hfraction
        rw [hspan, exponent?_cons hc]
        exact iff_of_false Bool.false_ne_true fun h => hfraction h.1
    · obtain ⟨c, behind, hc, hspan⟩ := @exists_snd_spanDigits _
        (CodePoint.ofChar '.' :: (fraction ++ exponent)) isWhole.isDigit hwhole
      rw [unsignedReal?_eq_none hspan hc]
      exact iff_of_false Bool.false_ne_true fun h => hwhole h.1

end Numeral

end Lexeme

/-- The token of a number is a numeral. -/
theorem Lexer.numeral_next {L : Lexer} {context : LexContext}
    (h : (L.next context).current.kind ∈ [TokenKind.int, .hex, .real]) :
    Lexeme.Numeral (L.next context).current.kind
      (L.source.sliceRange (L.next context).current.range) := by
  have hne : (L.next context).current.kind ≠ .eof := by
    intro hend
    rw [hend] at h
    exact absurd h (by decide)
  obtain ⟨c, rest, hkind, htext⟩ := exists_lexeme_next hne
  rw [hkind] at h
  obtain ⟨hdigit, hnext⟩ := Lexeme.next_eq_number h
  rw [hkind, htext, hnext]
  exact Lexeme.numeral_number hdigit

end MarkupSyntax
