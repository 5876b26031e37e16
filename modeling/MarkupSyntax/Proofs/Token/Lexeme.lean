import Mathlib.Data.List.TakeWhile
import MarkupSyntax.Token.Lexeme

/-!
# `MarkupSyntax.Proofs.Token.Lexeme`: what a lexeme says about its text

A lexeme is a kind, a length and possibly a problem. `Lexeme.Cuts`
says that these three fit the text the lexeme was cut from: the length
stays inside the text, the kind is not the end of the source, and the
problem can be read off the characters that were cut, together with
whether they reach the end of the text.

`defect?` is that reading. It does not call the lexer: it scans the
text of one token for the terminator of a comment or the closing quote
of a string, so it can be asked of a token of a finished tree.
`cuts_next` states that every lexeme of every context cuts its text.
-/

set_option autoImplicit false

namespace MarkupSyntax.Lexeme

/-! ### Defects that a text shows -/

/-- True for the text of a comment with an opener and no terminator
after it. A comment that ends with its line has no opener to close. -/
def isOpenComment (text : Text) : Bool :=
  (startsWith "/*" text && (Text.find? "*/" (text.drop 2)).isNone) ||
    (startsWith "<!--" text && (Text.find? "-->" (text.drop 4)).isNone)

/-- True for the rest of a string after its opening quote, if no quote
in it closes the string. A backslash hides the character after it. -/
def isOpenString : Text → Bool
  | [] => true
  | c :: rest =>
    if c = '"' then false
    else if c = '\\' then
      match rest with
      | [] => true
      | _ :: rest => isOpenString rest
    else isOpenString rest

/-- What is wrong with a token of this kind and text; `atEnd` says that
the token stops at the end of the source. -/
def defect? (kind : TokenKind) (text : Text) (atEnd : Bool) : Option Code :=
  match kind with
  | .skipped => if text.any Utf8.isEscapedByte then none else some .invalidCharacter
  | .comment => if isOpenComment text then some .unterminatedComment else none
  | .string => if isOpenString (text.drop 1) then some .unterminatedString else none
  | .rawTextChunk => if atEnd then some .unterminatedRawText else none
  | _ => none

/-- The kinds that a token can have without any defect, whatever its
text. -/
def isPlain (kind : TokenKind) : Bool :=
  !(List.contains [TokenKind.eof, .skipped, .comment, .string, .rawTextChunk] kind)

/-- The kind, the length and the problem of a lexeme fit the text that
it was cut from. -/
structure Cuts (lexeme : Lexeme) (t : Text) : Prop where
  fits : lexeme.length ≤ t.length
  kind_ne : lexeme.kind ≠ .eof
  problem : lexeme.problem =
    defect? lexeme.kind (t.take lexeme.length) (lexeme.length = t.length)

/-- A plain kind shows no defect. -/
theorem defect?_of_isPlain {kind : TokenKind} (h : isPlain kind = true) (text : Text)
    (atEnd : Bool) : defect? kind text atEnd = none := by
  cases kind <;> first | rfl | exact absurd h (by decide)

/-- A lexeme of a plain kind cuts a text that is long enough. -/
theorem cuts_of_isPlain {lexeme : Lexeme} {t : Text} (plain : isPlain lexeme.kind = true)
    (problem : lexeme.problem = none) (fits : lexeme.length ≤ t.length) : lexeme.Cuts t where
  fits := fits
  kind_ne := by
    intro h
    rw [h] at plain
    exact absurd plain (by decide)
  problem := by rw [problem, defect?_of_isPlain plain]

/-! ### White space and comments -/

/-- A run of characters of one class is no longer than the text. -/
theorem length_takeWhile_le (f : CodePoint → Bool) (t : Text) :
    (t.takeWhile f).length ≤ t.length :=
  (List.takeWhile_prefix f).length_le

/-- As many characters as are in such a run are all of the class. -/
theorem forall_take_takeWhile {f : CodePoint → Bool} {t : Text} :
    ∀ d ∈ t.take (t.takeWhile f).length, f d = true := by
  rw [← List.prefix_iff_eq_take.mp (List.takeWhile_prefix f)]
  exact fun d hd => List.mem_takeWhile_imp hd

/-- A run with a length holds a character. -/
theorem take_takeWhile_ne_nil {f : CodePoint → Bool} {t : Text}
    (h : 0 < (t.takeWhile f).length) :
    t.take (t.takeWhile f).length ≠ [] := by
  rw [← List.prefix_iff_eq_take.mp (List.takeWhile_prefix f)]
  exact List.length_pos_iff.mp h

/-- The tail of a line break lies in the text. -/
theorem lineBreakTail_le (c : CodePoint) (rest : Text) :
    lineBreakTail c rest ≤ rest.length := by
  unfold lineBreakTail
  cases rest with
  | nil => simp
  | cons d rest => split <;> simp

/-- A separator is one line break or a run of spaces and tabs. -/
theorem cuts_separator (c : CodePoint) (rest : Text) : (separator c rest).Cuts (c :: rest) := by
  unfold separator
  split
  · exact cuts_of_isPlain rfl rfl (by
      have := lineBreakTail_le c rest
      simp only [List.length_cons]; omega)
  · exact cuts_of_isPlain rfl rfl (by
      have := length_takeWhile_le (·.isSpaceOrTab) rest
      simp only [List.length_cons]; omega)

/-- An occurrence of a pattern ends inside the text. -/
theorem find?_add_length_le {pattern t : Text} {offset : Nat}
    (h : Text.find? pattern t = some offset) : offset + pattern.length ≤ t.length := by
  induction t generalizing offset with
  | nil =>
    unfold Text.find? at h
    split at h
    · rename_i hp
      rw [List.isEmpty_iff] at hp
      cases h
      simp [hp]
    · cases h
  | cons c rest ih =>
    unfold Text.find? at h
    split at h
    · rename_i hp
      cases h
      simpa using (List.isPrefixOf_iff_prefix.mp hp).length_le
    · obtain ⟨offset, hoffset, rfl⟩ := Option.map_eq_some_iff.mp h
      have := ih hoffset
      simp only [List.length_cons]; omega

/-- The first occurrence of a pattern stays the first when the text is
cut behind it. -/
theorem find?_take_isSome {pattern t : Text} {offset : Nat}
    (h : Text.find? pattern t = some offset) :
    (Text.find? pattern (t.take (offset + pattern.length))).isSome := by
  induction t generalizing offset with
  | nil => rw [List.take_nil, h]; rfl
  | cons c rest ih =>
    unfold Text.find? at h
    split at h
    · rename_i hp
      cases h
      have hprefix := List.isPrefixOf_iff_prefix.mp hp
      have htake : (c :: rest).take (0 + pattern.length) = pattern := by
        rw [Nat.zero_add]; exact (List.prefix_iff_eq_take.mp hprefix).symm
      rw [htake]
      cases pattern with
      | nil => rfl
      | cons d pattern => simp [Text.find?]
    · rename_i hp
      obtain ⟨offset, hoffset, rfl⟩ := Option.map_eq_some_iff.mp h
      have hlen : offset + 1 + pattern.length = offset + pattern.length + 1 := by omega
      rw [hlen, List.take_succ_cons]
      unfold Text.find?
      split
      · rfl
      · rw [Option.isSome_map]
        exact ih hoffset

/-- A text that starts with a character starts with that pattern of
length one, and conversely. -/
theorem exists_of_startsWith_singleton {s : String} {c : CodePoint} {t : Text}
    (hs : Text.ofString s = [c]) (h : startsWith s t = true) : ∃ rest, t = c :: rest := by
  unfold startsWith at h
  rw [hs] at h
  cases t with
  | nil => cases h
  | cons d rest =>
    simp only [List.isPrefixOf_cons_cons, List.isPrefixOf_nil_left, Bool.and_true, beq_iff_eq] at h
    exact ⟨rest, by rw [h]⟩

/-- A comment to the end of the line is never open: its second character
starts no other comment. -/
theorem cuts_lineComment {c : CodePoint} {rest : Text} (hc : c = '/')
    (hrest : startsWith "/" rest = true) : (lineComment rest).Cuts (c :: rest) where
  fits := by
    have := length_takeWhile_le (fun c => !c.isLineEnd) rest
    simp only [lineComment, List.length_cons]; omega
  kind_ne := TokenKind.noConfusion
  problem := by
    obtain ⟨rest, rfl⟩ := exists_of_startsWith_singleton (c := CodePoint.ofChar '/') rfl hrest
    subst hc
    have htail : (CodePoint.ofChar '/' :: rest).takeWhile (fun c => !c.isLineEnd)
        = CodePoint.ofChar '/' :: rest.takeWhile (fun c => !c.isLineEnd) := by
      rw [List.takeWhile_cons]; rfl
    simp only [lineComment, htail, List.length_cons, List.take_succ_cons]
    rfl

/-- The text in front of a position that is past the opener still starts
with the opener. -/
theorem take_opener {opener body : Text} {n : Nat} :
    (opener ++ body).take (opener.length + n) = opener ++ body.take n := by
  rw [List.take_append, List.take_of_length_le (by omega), Nat.add_sub_cancel_left]

/-- A comment with an opener is open exactly if no terminator was found.
`isOpen` is the side of `isOpenComment` that belongs to the opener. -/
theorem cuts_blockComment (opener : Text) {body : Text} {terminator : String}
    (hopener : 0 < opener.length)
    (isOpen : ∀ n, isOpenComment (opener ++ body.take n) =
      (Text.find? terminator (body.take n)).isNone)
    (hlength : terminator.length = (Text.ofString terminator).length) :
    (blockComment (opener.length - 1) terminator body).Cuts (opener ++ body) := by
  unfold blockComment
  split
  · rename_i offset hfound
    have hfits := find?_add_length_le hfound
    refine ⟨?_, TokenKind.noConfusion, ?_⟩
    · simp only [List.length_append]; omega
    · have hsome := find?_take_isSome hfound
      have htake : (opener ++ body).take (opener.length - 1 + 1 + offset + terminator.length)
          = opener ++ body.take (offset + (Text.ofString terminator).length) := by
        rw [← take_opener]; congr 1; omega
      simp only [defect?, htake, isOpen]
      rw [Option.isNone_eq_false_iff.mpr hsome]; rfl
  · rename_i hnone
    refine ⟨?_, TokenKind.noConfusion, ?_⟩
    · simp only [List.length_append]; omega
    · have htake : (opener ++ body).take (opener.length - 1 + 1 + body.length)
          = opener ++ body.take body.length := by
        rw [← take_opener]; congr 1; omega
      simp only [defect?, htake, isOpen]
      rw [List.take_length, hnone]
      rfl

/-- A comment that starts with `/*` is cut as its kind demands: it is inside the
text, and unclosed exactly if the terminator does not occur. -/
theorem cuts_slashComment {c : CodePoint} {rest : Text} (hc : c = '/')
    (hrest : startsWith "*" rest = true) :
    (blockComment 1 "*/" (rest.drop 1)).Cuts (c :: rest) := by
  obtain ⟨body, rfl⟩ := exists_of_startsWith_singleton rfl hrest
  subst hc
  refine cuts_blockComment ['/', '*'] (by decide) (fun n => ?_) rfl
  simp [isOpenComment, startsWith, Text.ofString, CodePoint.ofChar]

/-- A comment that starts with `<!--` is cut as its kind demands. -/
theorem cuts_markupComment {c : CodePoint} {rest : Text} (hc : c = '<')
    (hrest : startsWith "!--" rest = true) :
    (blockComment 3 "-->" (rest.drop 3)).Cuts (c :: rest) := by
  obtain ⟨body, rfl⟩ : ∃ body, rest = Text.ofString "!--" ++ body := by
    obtain ⟨body, hbody⟩ := List.isPrefixOf_iff_prefix.mp hrest
    exact ⟨body, hbody.symm⟩
  subst hc
  refine cuts_blockComment ['<', '!', '-', '-'] (by decide) (fun n => ?_) rfl
  simp [isOpenComment, startsWith, Text.ofString, CodePoint.ofChar]

/-! ### Strings -/

/-- The body of a string lies in the text. -/
theorem stringBody_length_le (t : Text) : (stringBody t).length ≤ t.length := by
  fun_induction stringBody t with
  | case1 => simp
  | case2 | case3 => simp
  | case4 _ rest body _ ih => exact Nat.succ_le_succ (Nat.succ_le_succ ih)
  | case5 _ rest _ _ body ih => exact Nat.succ_le_succ ih

/-- A string is closed exactly if a scan of its own text finds the
closing quote. -/
theorem isOpenString_take_stringBody (t : Text) :
    isOpenString (t.take (stringBody t).length) = !(stringBody t).isClosed := by
  fun_induction stringBody t with
  | case1 => rfl
  | case2 => simp [isOpenString]
  | case3 hquote => simp [isOpenString, hquote]
  | case4 _ rest body hquote ih => simpa [isOpenString, hquote, body] using ih
  | case5 c rest hquote hslash body ih =>
    simp only [List.take_succ_cons]
    unfold isOpenString
    simpa [hquote, hslash, body] using ih

/-- A string is cut as its kind demands: its problem, if any, is that of a
string that the source ends. -/
theorem cuts_string {c : CodePoint} (rest : Text) : (string rest).Cuts (c :: rest) where
  fits := by
    have := stringBody_length_le rest
    simp only [string, List.length_cons]; omega
  kind_ne := TokenKind.noConfusion
  problem := by
    have hopen := isOpenString_take_stringBody rest
    simp only [string, defect?, List.take_succ_cons, List.drop_succ_cons, List.drop_zero, hopen]
    cases (stringBody rest).isClosed <;> rfl

/-! ### Numbers and names -/

/-- The digits at the front of a text are part of it. -/
theorem digitCount_le (t : Text) : digitCount t ≤ t.length := length_takeWhile_le _ t

/-- What makes a number hexadecimal is part of the text. -/
theorem hexTailLength_le (t : Text) : hexTailLength t ≤ t.length := by
  cases t with
  | nil => exact Nat.le_refl _
  | cons x digits =>
    have := length_takeWhile_le (·.isHexDigit) digits
    simp only [hexTailLength, List.length_cons]
    split <;> omega

/-- A fraction is part of the text. -/
theorem fractionLength_le (t : Text) : fractionLength t ≤ t.length := by
  cases t with
  | nil => exact Nat.le_refl _
  | cons point digits =>
    have := digitCount_le digits
    simp only [fractionLength, List.length_cons]
    split <;> omega

/-- An exponent is part of the text. -/
theorem exponentLength_le (t : Text) : exponentLength t ≤ t.length := by
  cases t with
  | nil => exact Nat.le_refl _
  | cons e rest =>
    simp only [exponentLength, List.length_cons]
    -- The digits are what an optional sign leaves of the rest.
    generalize hdigits : (if startsWith "+" rest || startsWith "-" rest then rest.drop 1 else rest)
      = digits
    have hle : digits.length ≤ rest.length := by
      rw [← hdigits]
      split <;> simp
    have := digitCount_le digits
    split <;> omega

/-- A number is cut as its kind demands. The parts of a number are read one
behind the other, and each is inside what the ones before it leave. -/
theorem cuts_number (c : CodePoint) (rest : Text) : (number c rest).Cuts (c :: rest) := by
  have hhex := hexTailLength_le rest
  have hwhole := digitCount_le rest
  have hfraction := fractionLength_le (rest.drop (digitCount rest))
  have hexponent := exponentLength_le
    (rest.drop (digitCount rest + fractionLength (rest.drop (digitCount rest))))
  simp only [List.length_drop] at hfraction hexponent
  simp only [number]
  split
  · exact cuts_of_isPlain rfl rfl (by simp only [List.length_cons]; omega)
  · split
    · exact cuts_of_isPlain rfl rfl (by simp only [List.length_cons]; omega)
    · exact cuts_of_isPlain rfl rfl (by simp only [List.length_cons]; omega)

/-- The kind of a keyword is plain. -/
theorem isPlain_of_ofKeyword? {word : Text} {kind : TokenKind}
    (h : TokenKind.ofKeyword? word = some kind) : isPlain kind = true := by
  have hall : ∀ kind ∈ TokenKind.reserved, isPlain kind = true := by decide
  exact hall kind (List.mem_of_find?_eq_some h)

/-- A name or a keyword is cut as its kind demands. -/
theorem cuts_name (inTag : Bool) (c : CodePoint) (rest : Text) :
    (name inTag c rest).Cuts (c :: rest) := by
  have hlen := length_takeWhile_le (continuesName inTag) rest
  refine cuts_of_isPlain ?_ rfl (by simp only [name, List.length_cons]; omega)
  simp only [name]
  split
  · rfl
  · cases hword : TokenKind.ofKeyword? (c :: rest.takeWhile (continuesName inTag)) with
    | none => rfl
    | some kind => exact isPlain_of_ofKeyword? hword

/-! ### Operators and punctuation -/

/-- The tokens of two characters are plain, and take a second
character. -/
theorem of_pair?_eq_some {c : CodePoint} {rest : Text} {kind : TokenKind}
    (h : pair? c rest = some kind) : isPlain kind = true ∧ 0 < rest.length := by
  have hall : ∀ entry ∈ pairs, isPlain entry.2.2 = true := by decide
  obtain ⟨entry, hentry, rfl⟩ := Option.map_eq_some_iff.mp h
  refine ⟨hall entry (List.mem_of_find?_eq_some hentry), ?_⟩
  have hsecond := List.find?_some hentry
  cases rest with
  | nil => simp at hsecond
  | cons d rest => simp

/-- The marks of one character are of plain kinds: the end of the source,
comments, strings, raw text and skipped text are not in the table. -/
theorem isPlain_of_single? {c : CodePoint} {kind : TokenKind} (h : single? c = some kind) :
    isPlain kind = true := by
  have hall : ∀ entry ∈ singles, isPlain entry.2 = true := by decide
  obtain ⟨entry, hentry, rfl⟩ := Option.map_eq_some_iff.mp h
  exact hall entry (List.mem_of_find?_eq_some hentry)

/-- A mark is cut as its kind demands. One that is no token is skipped, with the
problem that this character has. -/
theorem cuts_mark (inTag : Bool) (c : CodePoint) (rest : Text) :
    (mark inTag c rest).Cuts (c :: rest) := by
  unfold mark
  split
  · rename_i kind hkind
    split at hkind
    · cases hkind
    · obtain ⟨hplain, hlen⟩ := of_pair?_eq_some hkind
      exact cuts_of_isPlain hplain rfl (by simp only [List.length_cons]; omega)
  · split
    · rename_i kind hkind
      exact cuts_of_isPlain (isPlain_of_single? hkind) rfl (by simp)
    · refine ⟨by simp, TokenKind.noConfusion, ?_⟩
      simp [defect?]

/-- Every lexeme of code cuts its text. -/
theorem cuts_code (inTag : Bool) (c : CodePoint) (rest : Text) :
    (code inTag c rest).Cuts (c :: rest) := by
  unfold code
  split
  · exact cuts_separator c rest
  split
  · rename_i h
    simp only [Bool.and_eq_true, decide_eq_true_eq] at h
    exact cuts_lineComment h.1 h.2
  split
  · rename_i h
    simp only [Bool.and_eq_true, decide_eq_true_eq] at h
    exact cuts_slashComment h.1 h.2
  split
  · rename_i h
    simp only [Bool.and_eq_true, decide_eq_true_eq] at h
    exact cuts_markupComment h.1 h.2
  split
  · exact cuts_string rest
  split
  · exact cuts_number c rest
  split
  · exact cuts_name inTag c rest
  · exact cuts_mark inTag c rest

/-! ### Text -/

/-- A reference is part of the text, however it is written. -/
theorem entityLength_le (t : Text) : entityLength t ≤ t.length := by
  cases t with
  | nil => exact Nat.le_refl _
  | cons c rest =>
    simp only [entityLength, List.length_cons]
    split
    · split
      · rename_i h
        -- The semicolon behind the reference is one more character of the text.
        simp only [Bool.and_eq_true, decide_eq_true_eq] at h
        obtain ⟨tail, htail⟩ := exists_of_startsWith_singleton (c := CodePoint.ofChar ';') rfl h.2
        have hlen := congrArg List.length htail
        simp only [List.length_drop, List.length_cons] at hlen
        omega
      · omega
    · omega

/-- The characters up to the end of a run of text are part of the text. -/
theorem textLength_le (typed : Bool) (t : Text) : textLength typed t ≤ t.length := by
  induction t with
  | nil => exact Nat.le_refl _
  | cons c rest ih =>
    simp only [textLength, List.length_cons]
    split <;> omega

/-- A run of text is cut as its kind demands: it is a separator or a chunk. -/
theorem cuts_textRun (typed : Bool) (c : CodePoint) (rest : Text) :
    (textRun typed c rest).Cuts (c :: rest) := by
  simp only [textRun]
  split
  · exact cuts_separator c rest
  · have := textLength_le typed rest
    exact cuts_of_isPlain rfl rfl (by simp only [List.length_cons]; omega)

/-- A text that starts with a pattern that is not empty is not empty either. -/
theorem length_pos_of_startsWith {s : String} {t : Text} (hs : 0 < (Text.ofString s).length)
    (h : startsWith s t = true) : 0 < t.length :=
  Nat.lt_of_lt_of_le hs (List.isPrefixOf_iff_prefix.mp h).length_le

/-- An escape is a plain token of two characters. -/
theorem of_textEscape?_eq_some {typed : Bool} {c : CodePoint} {rest : Text} {kind : TokenKind}
    (h : textEscape? typed c rest = some kind) :
    kind ∈ [TokenKind.escapedLBrace, .escapedRBrace, .escapedAt] ∧ 0 < rest.length := by
  unfold textEscape? at h
  split at h
  · cases h
  split at h
  · rename_i hs
    cases h
    exact ⟨by decide, length_pos_of_startsWith (by decide) hs⟩
  split at h
  · rename_i hs
    cases h
    exact ⟨by decide, length_pos_of_startsWith (by decide) hs⟩
  split at h
  · rename_i hs
    simp only [Bool.and_eq_true] at hs
    cases h
    exact ⟨by decide, length_pos_of_startsWith (by decide) hs.2⟩
  · cases h

/-- The markup that ends a run of text is cut as its kind demands. -/
theorem cuts_textMarkup {typed : Bool} {c : CodePoint} {rest : Text} {lexeme : Lexeme}
    (h : textMarkup? typed c rest = some lexeme) : lexeme.Cuts (c :: rest) := by
  unfold textMarkup? at h
  split at h
  · split at h
    · rename_i hs
      simp only [Bool.and_eq_true] at hs
      cases h
      have hlen := length_pos_of_startsWith (by decide) hs.2
      exact cuts_of_isPlain rfl rfl (by simp only [List.length_cons]; omega)
    split at h
    · cases h
      exact cuts_of_isPlain rfl rfl (by simp)
    · cases h
  · split at h
    · rename_i hs
      simp only [Bool.and_eq_true, decide_eq_true_eq] at hs
      cases h
      exact cuts_markupComment hs.1 hs.2
    split at h
    · cases h
      exact cuts_of_isPlain rfl rfl (by simp)
    split at h
    · cases h
      exact cuts_of_isPlain rfl rfl (by simp)
    split at h
    · cases h
      exact cuts_of_isPlain rfl rfl (by simp)
    · cases h

/-- Every lexeme of text is cut as its kind demands. -/
theorem cuts_text (typed : Bool) (c : CodePoint) (rest : Text) :
    (text typed c rest).Cuts (c :: rest) := by
  unfold text
  split
  · rename_i kind hkind
    obtain ⟨hmem, hlen⟩ := of_textEscape?_eq_some hkind
    have hplain : ∀ kind ∈ [TokenKind.escapedLBrace, .escapedRBrace, .escapedAt],
        isPlain kind = true := by decide
    exact cuts_of_isPlain (hplain kind hmem) rfl (by simp only [List.length_cons]; omega)
  · split
    · exact cuts_of_isPlain rfl rfl (entityLength_le (c :: rest))
    · cases hmarkup : textMarkup? typed c rest with
      | none => exact cuts_textRun typed c rest
      | some lexeme => exact cuts_textMarkup hmarkup

/-! ### Raw bodies and all contexts -/

/-- The closing tag of a raw body starts inside the text. -/
theorem rawLength?_lt {tag : Option Text} {t : Text} {length : Nat}
    (h : rawLength? tag t = some length) : length < t.length := by
  induction t generalizing length with
  | nil => cases h
  | cons c rest ih =>
    unfold rawLength? at h
    split at h
    · cases h
      simp
    · obtain ⟨length, hlength, rfl⟩ := Option.map_eq_some_iff.mp h
      have := ih hlength
      simp only [List.length_cons]; omega

/-- A lexeme of a raw body is cut as its kind demands: it is the `<` of the
closing tag, or what stands in front of that. Without a closing tag it is all of
the text, and its problem says so. -/
theorem cuts_raw (tag : Option Text) (c : CodePoint) (rest : Text) :
    (raw tag c rest).Cuts (c :: rest) := by
  unfold raw
  split
  · exact cuts_of_isPlain rfl rfl (by simp)
  split
  · rename_i length hlength
    have := rawLength?_lt hlength
    refine ⟨by simp only [List.length_cons]; omega, TokenKind.noConfusion, ?_⟩
    have hne : ¬ (length = rest.length) := by omega
    simp [defect?, hne]
  · refine ⟨by simp, TokenKind.noConfusion, ?_⟩
    simp [defect?]

/-- Every lexeme of every context cuts its text. -/
theorem cuts_next (context : LexContext) (c : CodePoint) (rest : Text) :
    (next context c rest).Cuts (c :: rest) := by
  cases context with
  | normal => exact cuts_code false c rest
  | tag => exact cuts_code true c rest
  | text => exact cuts_text false c rest
  | typedText => exact cuts_text true c rest
  | raw tag => exact cuts_raw tag c rest

/-- In typed text a lexeme is trivia, a token of text, the start of an
interpolation or the `<` of a closing tag. -/
theorem kind_next_typedText (c : CodePoint) (rest : Text) :
    (next .typedText c rest).kind ∈
      [TokenKind.whitespace, .newline, .textChunk, .entity, .escapedLBrace, .escapedRBrace,
       .escapedAt, .atLBrace, .lessThan] := by
  show (text true c rest).kind ∈ _
  unfold text
  split
  · rename_i kind hkind
    have hescape : ∀ kind ∈ [TokenKind.escapedLBrace, .escapedRBrace, .escapedAt],
        kind ∈ [TokenKind.whitespace, .newline, .textChunk, .entity, .escapedLBrace,
          .escapedRBrace, .escapedAt, .atLBrace, .lessThan] := by decide
    exact hescape kind (of_textEscape?_eq_some hkind).1
  split
  · simp
  · cases hmarkup : textMarkup? true c rest with
    | none =>
      simp only [Option.getD_none, textRun, separator]
      split
      · split <;> simp
      · simp
    | some lexeme =>
      simp only [textMarkup?, if_true] at hmarkup
      split at hmarkup
      · cases hmarkup
        simp
      split at hmarkup
      · cases hmarkup
        simp
      · cases hmarkup

end MarkupSyntax.Lexeme
