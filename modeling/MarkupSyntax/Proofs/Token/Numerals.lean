import MarkupSyntax.Proofs.Token.Lexeme

/-!
# `MarkupSyntax.Proofs.Token.Numerals`: how the lexer writes numbers

The rule for numbers is a sum of lengths. `Lexeme.Numeral` says which texts
these are, without a length: digits, or digits with a fraction and then
perhaps an exponent, or a zero, a mark and hexadecimal digits
(`Lexeme.numeral_number`). The digits are those of any script, superscripts
and digits in circles included; only hexadecimal ones are those of ASCII.
-/

set_option autoImplicit false

namespace MarkupSyntax

/-- A digit is none of the characters that are no digits. -/
theorem CodePoint.ne_of_isDigit {c d : CodePoint} (h : c.isDigit = true) (hd : d.isDigit = false) :
    c ≠ d := by
  rintro rfl
  rw [h] at hd
  cases hd

/-- One or more digits. -/
structure Text.Digits (t : Text) : Prop where
  ne_nil : t ≠ []
  isDigit : ∀ c ∈ t, c.isDigit = true

namespace Lexeme

/-- What may stand behind a fraction. -/
inductive Exponent : Text → Prop
  | nil : Exponent []
  | mark {e : CodePoint} {sign digits : Text} (mark : e = 'e' ∨ e = 'E')
      (isSign : sign = [] ∨ sign = [CodePoint.ofChar '+'] ∨ sign = [CodePoint.ofChar '-'])
      (isDigits : digits.Digits) : Exponent (e :: (sign ++ digits))

/-- The texts of the tokens for numbers. -/
inductive Numeral : TokenKind → Text → Prop
  | int {digits : Text} (isDigits : digits.Digits) : Numeral .int digits
  | hex {x : CodePoint} {digits : Text} (mark : x = 'x' ∨ x = 'X') (ne_nil : digits ≠ [])
      (isHexDigit : ∀ d ∈ digits, d.isHexDigit = true) :
      Numeral .hex (CodePoint.ofChar '0' :: x :: digits)
  | real {whole fraction exponent : Text} (isWhole : whole.Digits) (isFraction : fraction.Digits)
      (isExponent : Exponent exponent) :
      Numeral .real (whole ++ CodePoint.ofChar '.' :: (fraction ++ exponent))

variable {c : CodePoint} {t rest : Text}

/-- As many characters as are counted as digits are digits. -/
theorem isDigit_of_mem_digits : ∀ d ∈ t.take (digitCount t), d.isDigit = true :=
  forall_take_takeWhile

/-- If any digits are counted, they are one or more digits. -/
theorem digits_take (h : 0 < digitCount t) : Text.Digits (t.take (digitCount t)) :=
  ⟨take_takeWhile_ne_nil h, isDigit_of_mem_digits⟩

/-- A hexadecimal number has a mark and digits behind its zero. -/
theorem exists_hexTail (h : 0 < hexTailLength t) :
    ∃ (x : CodePoint) (digits : Text), (x = 'x' ∨ x = 'X') ∧ digits ≠ [] ∧
      (∀ d ∈ digits, d.isHexDigit = true) ∧ t.take (hexTailLength t) = x :: digits := by
  cases t with
  | nil => cases h
  | cons x digits =>
    simp only [hexTailLength] at h ⊢
    split at h
    · rename_i hmark
      rw [if_pos hmark]
      simp only [Bool.and_eq_true, Bool.or_eq_true, decide_eq_true_eq] at hmark
      exact ⟨x, _, hmark.1, take_takeWhile_ne_nil hmark.2, forall_take_takeWhile, rfl⟩
    · cases h

/-- A fraction is a point and digits. -/
theorem exists_fraction (h : fractionLength t ≠ 0) :
    ∃ digits : Text, digits.Digits ∧
      t.take (fractionLength t) = CodePoint.ofChar '.' :: digits := by
  cases t with
  | nil => exact absurd rfl h
  | cons point digits =>
    simp only [fractionLength] at h ⊢
    split at h
    · rename_i hpoint
      rw [if_pos hpoint]
      simp only [Bool.and_eq_true, decide_eq_true_eq] at hpoint
      exact ⟨_, digits_take hpoint.2, by rw [hpoint.1, List.take_succ_cons]⟩
    · exact absurd rfl h

/-- Behind the mark of an exponent stand a sign or none, and digits. -/
theorem exists_sign {digits : Text}
    (hdigits : digits = if startsWith "+" t || startsWith "-" t then t.drop 1 else t) :
    ∃ sign, (sign = [] ∨ sign = [CodePoint.ofChar '+'] ∨ sign = [CodePoint.ofChar '-']) ∧
      t = sign ++ digits := by
  subst hdigits
  split
  · rename_i hsign
    rcases Bool.or_eq_true_iff.mp hsign with hsign | hsign
    · obtain ⟨body, rfl⟩ := exists_of_startsWith_singleton rfl hsign
      exact ⟨_, .inr (.inl rfl), rfl⟩
    · obtain ⟨body, rfl⟩ := exists_of_startsWith_singleton rfl hsign
      exact ⟨_, .inr (.inr rfl), rfl⟩
  · exact ⟨[], .inl rfl, rfl⟩

/-- As many characters as are counted for an exponent make an exponent, or
nothing if there is none. -/
theorem exponent_take (t : Text) : Exponent (t.take (exponentLength t)) := by
  cases t with
  | nil => exact .nil
  | cons e rest =>
    simp only [exponentLength]
    generalize hdigits : (if startsWith "+" rest || startsWith "-" rest then rest.drop 1 else rest)
      = digits
    split
    · rename_i hmark
      simp only [Bool.and_eq_true, Bool.or_eq_true, decide_eq_true_eq] at hmark
      obtain ⟨sign, hsign, rfl⟩ := exists_sign hdigits.symm
      -- The digits are counted from the end of the text, so the sign is what they leave.
      have hlength : 1 + ((sign ++ digits).length - digits.length) + digitCount digits
          = sign.length + digitCount digits + 1 := by
        rw [List.length_append]
        omega
      rw [hlength, List.take_succ_cons, List.take_length_add_append]
      exact .mark hmark.1 hsign (digits_take hmark.2)
    · exact .nil

/-- The rule for numbers takes a numeral. -/
theorem numeral_number (hdigit : c.isDigit = true) :
    Numeral (number c rest).kind ((c :: rest).take (number c rest).length) := by
  simp only [number]
  split
  · rename_i hzero
    simp only [Bool.and_eq_true, decide_eq_true_eq] at hzero
    obtain ⟨x, digits, hmark, hne, hhex, htake⟩ := exists_hexTail hzero.2
    rw [List.take_succ_cons, hzero.1, htake]
    exact .hex hmark hne hhex
  have hwhole : Text.Digits (c :: rest.take (digitCount rest)) :=
    ⟨List.cons_ne_nil _ _, List.forall_mem_cons.mpr ⟨hdigit, isDigit_of_mem_digits⟩⟩
  split
  · exact .int hwhole
  · rename_i hfraction
    obtain ⟨digits, hdigits, htake⟩ := exists_fraction hfraction
    rw [List.take_succ_cons, List.take_add, List.take_add, htake, List.append_assoc]
    exact .real hwhole hdigits (exponent_take _)

end Lexeme

end MarkupSyntax
