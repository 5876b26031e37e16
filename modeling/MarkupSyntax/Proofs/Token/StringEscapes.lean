import MarkupSyntax.Proofs.Token.Guard
import MarkupSyntax.View.Literal

/-!
# `MarkupSyntax.Proofs.Token.StringEscapes`: what escapes stand for

The value of a string is computed with a count of the characters that
belong to an escape already read. `StringLiteral.Decodes` says the same
without a count, with one rule for each form of escape, as the relation
between what is written and what it stands for.

The two agree but for one escape (`StringLiteral.valueFrom_eq_ok_iff`): a
number in braces that no code point has is an escape like any other that
is not known, and stands for itself, but there is no value for the string
that it is in (`StringLiteral.TooLarge`).
-/

set_option autoImplicit false

namespace MarkupSyntax.StringLiteral

variable {t out digits behind : Text} {c : CodePoint} {n : Nat}

/-! ### Numbers in braces -/

/-- The text starts with `u` and hexadecimal digits in braces. -/
structure Braces (t digits behind : Text) : Prop where
  digits_ne_nil : digits ≠ []
  isHexDigit : ∀ digit ∈ digits, digit.isHexDigit = true
  eq : t = CodePoint.ofChar 'u' :: CodePoint.ofChar '\x7b' ::
    (digits ++ CodePoint.ofChar '\x7d' :: behind)

/-- The code point that digits in braces name. -/
def named? (digits : Text) : Option CodePoint :=
  CodePoint.ofNat? (References.digitsValue 16 digits)

/-- The digits in braces are found. -/
theorem Braces.braced? (h : Braces t digits behind) : braced? t = some digits := by
  obtain ⟨hne, hhex, rfl⟩ := h
  have hdigits :
      (digits ++ CodePoint.ofChar '\x7d' :: behind).takeWhile (·.isHexDigit) = digits := by
    rw [List.takeWhile_append_of_pos hhex, List.takeWhile_cons_of_neg (by decide), List.append_nil]
  have hstart : Text.ofString "u\x7b" = [CodePoint.ofChar 'u', CodePoint.ofChar '\x7b'] := by decide
  simp [StringLiteral.braced?, hstart, hdigits, hne]

/-- Behind the `u`, the two braces and the digits the text goes on. -/
theorem Braces.drop (h : Braces t digits behind) : t.drop (digits.length + 3) = behind := by
  rw [h.eq]
  simp

/-- Digits in braces are found where they are. -/
theorem braces_of_braced? (h : braced? t = some digits) : ∃ behind, Braces t digits behind := by
  unfold StringLiteral.braced? at h
  split at h
  next hstart =>
    simp only at h
    split at h
    · cases h
    next hclosed =>
    rw [Bool.or_eq_true, not_or, decide_eq_true_eq, not_not, List.isEmpty_iff] at hclosed
    cases h
    obtain ⟨hne, hbrace⟩ := hclosed
    -- What is behind the digits starts with the closing brace.
    rw [Nat.add_comm, ← List.drop_drop, Lexeme.drop_takeWhile] at hbrace
    obtain ⟨behind, hbehind⟩ := List.head?_eq_some_iff.mp hbrace
    refine ⟨behind, hne, fun digit hdigit => List.mem_takeWhile_imp hdigit, ?_⟩
    calc t = t.take 2 ++ t.drop 2 := (List.take_append_drop 2 t).symm
      _ = _ := by rw [← hbehind, List.takeWhile_append_dropWhile, hstart]; rfl
  · cases h

/-! ### What a text with escapes stands for -/

/-- The second text is what the first one stands for when its escapes are
read. -/
inductive Decodes : Text → Text → Prop
  | nil : Decodes [] []
  | plain {c : CodePoint} {t out : Text} (h : c ≠ '\\') (rest : Decodes t out) :
      Decodes (c :: t) (c :: out)
  /-- The escapes of one character. -/
  | named {name value : Char} {t out : Text} (h : (name, value) ∈ escapes) (rest : Decodes t out) :
      Decodes (CodePoint.ofChar '\\' :: CodePoint.ofChar name :: t) (CodePoint.ofChar value :: out)
  /-- A code point by its number. -/
  | numbered {c : CodePoint} {t digits behind out : Text} (h : Braces t digits behind)
      (hc : named? digits = some c) (rest : Decodes behind out) :
      Decodes (CodePoint.ofChar '\\' :: t) (c :: out)
  /-- Any other escape stands for itself. -/
  | unknown {c : CodePoint} {t out : Text} (hname : ∀ entry ∈ escapes, c ≠ entry.1)
      (hnumber : ∀ digits behind, Braces (c :: t) digits behind → named? digits = none)
      (rest : Decodes t out) :
      Decodes (CodePoint.ofChar '\\' :: c :: t) (CodePoint.ofChar '\\' :: c :: out)
  /-- So does a backslash with nothing behind it. -/
  | last : Decodes [CodePoint.ofChar '\\'] [CodePoint.ofChar '\\']

/-- An escape of the text has a number in braces that no code point has. -/
inductive TooLarge : Text → Prop
  | here {t digits behind : Text} (h : Braces t digits behind) (hnone : named? digits = none) :
      TooLarge (CodePoint.ofChar '\\' :: t)
  | escape {c : CodePoint} {t : Text} (rest : TooLarge t) :
      TooLarge (CodePoint.ofChar '\\' :: c :: t)
  | plain {c : CodePoint} {t : Text} (h : c ≠ '\\') (rest : TooLarge t) : TooLarge (c :: t)

/-- An escape stands for something, if what is behind it does. -/
theorem exists_decodes_escape
    (shorter : ∀ {behind : Text}, behind.length ≤ t.length → ∃ out, Decodes behind out) :
    ∃ out, Decodes (CodePoint.ofChar '\\' :: c :: t) out := by
  obtain ⟨out, hout⟩ := shorter (Nat.le_refl t.length)
  by_cases hname : ∃ entry ∈ escapes, c = entry.1
  · obtain ⟨⟨name, value⟩, hentry, rfl⟩ := hname
    exact ⟨_, .named hentry hout⟩
  by_cases hnumber : ∃ digits behind d, Braces (c :: t) digits behind ∧ named? digits = some d
  · obtain ⟨digits, behind, d, hbraces, hd⟩ := hnumber
    have hlength : behind.length ≤ t.length := by
      have heq := congrArg List.length hbraces.eq
      simp only [List.length_cons, List.length_append] at heq
      omega
    obtain ⟨out, hout⟩ := shorter hlength
    exact ⟨_, .numbered hbraces hd hout⟩
  push Not at hname hnumber
  have hnone : ∀ digits behind, Braces (c :: t) digits behind → named? digits = none :=
    fun digits behind h => Option.eq_none_iff_forall_ne_some.mpr (hnumber digits behind · h)
  exact ⟨_, .unknown hname hnone hout⟩

/-- Every text stands for something. The induction is on its length, since
an escape can be of any length. -/
theorem exists_decodes (t : Text) : ∃ out, Decodes t out := by
  induction hn : t.length using Nat.strong_induction_on generalizing t with
  | _ n ih =>
    subst hn
    cases t with
    | nil => exact ⟨[], .nil⟩
    | cons c rest =>
      by_cases hc : c = '\\'
      · subst hc
        cases rest with
        | nil => exact ⟨_, .last⟩
        | cons d rest =>
          exact exists_decodes_escape fun {behind} hlength =>
            ih behind.length (by simp only [List.length_cons]; omega) behind rfl
      · obtain ⟨out, hout⟩ := ih rest.length (Nat.lt_succ_self _) rest rfl
        exact ⟨_, .plain hc hout⟩

/-! ### The value of a string -/

/-- To skip `n` characters that an escape has taken is to read what is behind
them. -/
theorem valueFrom_eq_drop : ∀ (n : Nat) (t : Text), valueFrom n t = valueFrom 0 (t.drop n)
  | 0, t => rfl
  | n + 1, [] => by simp [valueFrom]
  | n + 1, c :: t => by rw [valueFrom, valueFrom_eq_drop n t, List.drop_succ_cons]

/-- A character that is no backslash stands for itself. -/
theorem valueFrom_plain (h : c ≠ '\\') :
    valueFrom 0 (c :: t) = (valueFrom 0 t).map (c :: ·) := by
  simp [valueFrom, h]
  rfl

/-- Behind an escape the value goes on. -/
theorem valueFrom_escape {text : Text} (h : escape? t = .ok (some (n, text))) :
    valueFrom 0 (CodePoint.ofChar '\\' :: t) = (valueFrom 0 (t.drop n)).map (text ++ ·) := by
  simp [valueFrom, h, ← valueFrom_eq_drop]
  rfl

/-- Where an escape cannot be read, the string has no value. -/
theorem valueFrom_escape_error {fault : LiteralFault} (h : escape? t = .error fault) :
    valueFrom 0 (CodePoint.ofChar '\\' :: t) = .error fault := by
  simp [valueFrom, h]
  rfl

/-- Without digits in braces, the character behind a backslash is a named
escape, or it stands for itself and so does the backslash. -/
theorem escape?_of_braced?_eq_none (h : braced? (c :: t) = none) :
    escape? (c :: t) = .ok (some (1, ((escapes.find? fun entry => c = entry.1).map
      fun entry => [CodePoint.ofChar entry.2]).getD ['\\', c])) := by
  unfold escape?
  rw [h]
  dsimp only
  split <;>
  · rename_i found
    rw [show escapes.find? (fun entry => decide (c = CodePoint.ofChar entry.1)) = _ from found]
    rfl

/-- A named escape stands for its character. -/
theorem escape?_named {name value : Char} (h : (name, value) ∈ escapes) :
    escape? (CodePoint.ofChar name :: t) = .ok (some (1, [CodePoint.ofChar value])) := by
  simp only [escapes, List.mem_cons, Prod.mk.injEq, List.not_mem_nil, or_false] at h
  rcases h with h | h | h | h | h | h | h | h | h <;>
    · obtain ⟨rfl, rfl⟩ := h
      rfl

/-- An escape of no kind stands for itself, backslash included. Both kinds must
be excluded: the names of the table, and a number in braces. -/
theorem escape?_unknown (hname : ∀ entry ∈ escapes, c ≠ entry.1)
    (hbraces : ∀ digits behind, ¬Braces (c :: t) digits behind) :
    escape? (c :: t) = .ok (some (1, [CodePoint.ofChar '\\', c])) := by
  have hnone : braced? (c :: t) = none := by
    by_contra hsome
    obtain ⟨digits, hdigits⟩ := Option.ne_none_iff_exists'.mp hsome
    obtain ⟨behind, h⟩ := braces_of_braced? hdigits
    exact hbraces digits behind h
  have hfind : (escapes.find? fun entry => decide (c = CodePoint.ofChar entry.1)) = none := by
    simpa using hname
  rw [escape?_of_braced?_eq_none hnone, hfind, Option.map_none, Option.getD_none]

/-- An escape with a number in braces stands for the code point with that
number, or fails if there is none. -/
theorem Braces.escape?_eq (h : Braces t digits behind) :
    escape? t = (codePoint (References.digitsValue 16 digits)).map
      fun c => some (digits.length + 3, [c]) := by
  have hbraced := h.braced?
  obtain ⟨-, -, rfl⟩ := h
  simp only [escape?, hbraced]
  rfl

/-- If the digits name a code point, the escape stands for it. -/
theorem Braces.escape?_of_some (h : Braces t digits behind) (hc : named? digits = some c) :
    escape? t = .ok (some (digits.length + 3, [c])) := by
  rw [h.escape?_eq, codePoint, ← named?, hc]
  rfl

/-- If the digits name no code point, reading the escape fails. -/
theorem Braces.exists_escape?_eq_error (h : Braces t digits behind)
    (hnone : named? digits = none) : ∃ fault, escape? t = .error fault := by
  rw [h.escape?_eq, codePoint, ← named?, hnone]
  exact ⟨_, rfl⟩

/-- Behind the `u` there is no backslash up to what follows the braces. -/
theorem Braces.exists_plain (h : Braces t digits behind) :
    ∃ inBraces, t = CodePoint.ofChar 'u' :: (inBraces ++ behind) ∧ ∀ d ∈ inBraces, d ≠ '\\' := by
  refine ⟨CodePoint.ofChar '\x7b' :: (digits ++ [CodePoint.ofChar '\x7d']), by simp [h.eq], ?_⟩
  have hdigits : ∀ d ∈ digits, d ≠ '\\' := by
    rintro d hd rfl
    exact absurd (h.isHexDigit _ hd) (by decide)
  simp only [List.mem_cons, List.mem_append, List.not_mem_nil, or_false]
  rintro d (rfl | hd | rfl)
  · decide
  · exact hdigits d hd
  · decide

/-- A text in front that has no backslashes hides no escape with a number that
is too large. -/
theorem TooLarge.append_plain {front : Text} (h : TooLarge t) (hplain : ∀ d ∈ front, d ≠ '\\') :
    TooLarge (front ++ t) := by
  induction front with
  | nil => exact h
  | cons c front ih =>
    rw [List.forall_mem_cons] at hplain
    exact .plain hplain.1 (ih hplain.2)

/-- A text in front that has no backslashes stands for itself. -/
theorem valueFrom_append_plain {front : Text} (hplain : ∀ d ∈ front, d ≠ '\\') :
    valueFrom 0 (front ++ t) = (valueFrom 0 t).map (front ++ ·) := by
  induction front with
  | nil => cases h : valueFrom 0 t <;> simp [h, Except.map]
  | cons c front ih =>
    rw [List.forall_mem_cons] at hplain
    rw [List.cons_append, valueFrom_plain hplain.1, ih hplain.2]
    cases valueFrom 0 t <;> rfl

/-- The value of a string is what the string stands for. -/
theorem Decodes.valueFrom_eq (h : Decodes t out) (hsmall : ¬TooLarge t) :
    valueFrom 0 t = .ok out := by
  induction h with
  | nil => rfl
  | plain hc rest ih =>
    rw [valueFrom_plain hc, ih fun h => hsmall (.plain hc h)]
    rfl
  | named hentry rest ih =>
    rw [valueFrom_escape (escape?_named hentry), List.drop_one, List.tail_cons,
      ih fun h => hsmall (.escape h)]
    rfl
  | @numbered c t digits behind out hbraces hc rest ih =>
    rw [valueFrom_escape (hbraces.escape?_of_some hc), hbraces.drop, ih]
    · rfl
    -- For the escapes, what is in the braces is plain text behind a `\u`.
    intro hlarge
    obtain ⟨inBraces, heq, hplain⟩ := hbraces.exists_plain
    rw [heq] at hsmall
    exact hsmall (.escape (hlarge.append_plain hplain))
  | @unknown c t out hname hnumber rest ih =>
    have hbraces : ∀ digits behind, ¬Braces (c :: t) digits behind := fun digits behind h =>
      hsmall (.here h (hnumber digits behind h))
    rw [valueFrom_escape (escape?_unknown hname hbraces), List.drop_one, List.tail_cons,
      ih fun h => hsmall (.escape h)]
    rfl
  | last => rfl

/-- With a number that no code point has a string has no value. -/
theorem TooLarge.exists_valueFrom_eq_error (h : TooLarge t) :
    ∃ fault, valueFrom 0 t = .error fault := by
  induction h with
  | here hbraces hnone =>
    obtain ⟨fault, hfault⟩ := hbraces.exists_escape?_eq_error hnone
    exact ⟨fault, valueFrom_escape_error hfault⟩
  | @escape c t rest ih =>
    obtain ⟨fault, hfault⟩ := ih
    cases hbraced : braced? (c :: t) with
    | none =>
      -- The escape is one character long, so the rest is read as it is.
      rw [valueFrom_escape (escape?_of_braced?_eq_none hbraced), List.drop_one, List.tail_cons,
        hfault]
      exact ⟨fault, rfl⟩
    | some digits =>
      obtain ⟨behind, hbraces⟩ := braces_of_braced? hbraced
      cases hc : named? digits with
      | none =>
        obtain ⟨fault, hfault⟩ := hbraces.exists_escape?_eq_error hc
        exact ⟨fault, valueFrom_escape_error hfault⟩
      | some d =>
        obtain ⟨inBraces, heq, hplain⟩ := hbraces.exists_plain
        cases heq
        rw [valueFrom_append_plain hplain] at hfault
        rw [valueFrom_escape (hbraces.escape?_of_some hc), hbraces.drop]
        cases hbehind : valueFrom 0 behind with
        | error fault => exact ⟨fault, rfl⟩
        | ok out =>
          rw [hbehind] at hfault
          cases hfault
  | plain hc rest ih =>
    obtain ⟨fault, hfault⟩ := ih
    exact ⟨fault, by rw [valueFrom_plain hc, hfault]; rfl⟩

/-- The value of a string is what the string stands for, and there is one
if each number in braces is that of a code point. -/
theorem valueFrom_eq_ok_iff : valueFrom 0 t = .ok out ↔ Decodes t out ∧ ¬TooLarge t := by
  constructor
  · intro h
    have hsmall : ¬TooLarge t := by
      intro hlarge
      obtain ⟨fault, hfault⟩ := hlarge.exists_valueFrom_eq_error
      rw [hfault] at h
      cases h
    obtain ⟨found, hfound⟩ := exists_decodes t
    rw [hfound.valueFrom_eq hsmall] at h
    cases h
    exact ⟨hfound, hsmall⟩
  · rintro ⟨h, hsmall⟩
    exact h.valueFrom_eq hsmall

end MarkupSyntax.StringLiteral
