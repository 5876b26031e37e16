import MarkupSyntax.Proofs.Token.Guard
import MarkupSyntax.Proofs.Token.Tags

/-!
# `MarkupSyntax.Proofs.Token.Respacing`: tokens with single spaces between them

The space between tokens does not matter, as long as there is some. If a
source has no lexical error, its tokens without the trivia can be written
anew with single spaces between them, and are the same tokens then
(`Lexer.readsAs_spaced`). That goes for code outside and inside of tags.

Two facts about one token carry this. The text behind a token can be cut
off, since no rule looks further than the token it takes
(`Lexeme.code_take`), so the text of a token is this token by itself. And
white space behind it may be put there again, since no token goes on with
white space (`Lexeme.Splits.behind`). `Text.HasWords` says of a text which
tokens it has, without its trivia, and relates both sides to the lexer.
-/

set_option autoImplicit false

namespace MarkupSyntax

/-! ### A token without the text behind it -/

namespace Lexeme

variable {c : CodePoint} {t rest : Text} {n : Nat} {inTag : Bool}

/-- What a cut text starts with, the text starts with. -/
theorem startsWith_of_take {pattern : String} (h : startsWith pattern (t.take n) = true) :
    startsWith pattern t = true := by
  have hpattern := List.isPrefixOf_iff_prefix.mp h
  exact List.isPrefixOf_iff_prefix.mpr (hpattern.trans (List.take_prefix n t))

/-- A closed string needs nothing behind its closing quote. -/
theorem stringBody_take (hclosed : (stringBody t).isClosed = true)
    (hn : (stringBody t).length ≤ n) : stringBody (t.take n) = stringBody t := by
  fun_induction stringBody t generalizing n with
  | case1 => cases hclosed
  | case2 rest =>
    obtain ⟨n, rfl⟩ : ∃ m, n = m + 1 := ⟨n - 1, by simp at hn; omega⟩
    rw [List.take_succ_cons, stringBody.eq_def]
    rfl
  | case3 => cases hclosed
  | case4 d rest body hquote =>
    rename_i ih
    obtain ⟨n, rfl⟩ : ∃ m, n = m + 2 := ⟨n - 2, by simp at hn; omega⟩
    have hbody := ih hclosed (Nat.le_of_succ_le_succ (Nat.le_of_succ_le_succ hn))
    rw [List.take_succ_cons, List.take_succ_cons, stringBody.eq_def]
    simp only [hquote, if_false, if_true, hbody, body]
  | case5 d rest hquote hescape body =>
    rename_i ih
    obtain ⟨n, rfl⟩ : ∃ m, n = m + 1 := ⟨n - 1, by simp at hn; omega⟩
    have hbody := ih hclosed (Nat.le_of_succ_le_succ hn)
    rw [List.take_succ_cons, stringBody.eq_def]
    simp only [hquote, hescape, if_false, hbody, body]

/-- A cut text has as many digits in front as are left of them. -/
theorem digitCount_take : digitCount (t.take n) = min n (digitCount t) := by
  rw [digitCount, ← List.take_takeWhile, List.length_take]
  rfl

/-- A part of a number that has `k` digits, and `m` characters in front of
them, is the same in a text that has room for it. -/
theorem counted_min {p : Bool} {k m : Nat} (hn : (if p && 0 < k then k + m else 0) ≤ n + m) :
    (if p && 0 < min n k then min n k + m else 0) = if p && 0 < k then k + m else 0 := by
  by_cases h : (p && decide (0 < k)) = true
  · rw [if_pos h] at hn
    rw [Nat.min_eq_right (by omega)]
  · rw [if_neg h, if_neg]
    simp only [Bool.and_eq_true, decide_eq_true_eq, not_and] at h ⊢
    intro hp
    have hk := h hp
    omega

/-- A cut behind the hexadecimal part of a number does not change it. -/
theorem hexTailLength_take (hn : hexTailLength t ≤ n) :
    hexTailLength (t.take n) = hexTailLength t := by
  cases t with
  | nil => simp
  | cons x digits =>
    cases n with
    | zero =>
      rw [List.take_zero]
      exact (Nat.le_zero.mp hn).symm
    | succ n =>
      simp only [List.take_succ_cons, hexTailLength, ← List.take_takeWhile, List.length_take] at hn ⊢
      exact counted_min hn

/-- A cut behind a fraction does not change it. -/
theorem fractionLength_take (hn : fractionLength t ≤ n) :
    fractionLength (t.take n) = fractionLength t := by
  cases t with
  | nil => simp
  | cons point digits =>
    cases n with
    | zero =>
      rw [List.take_zero]
      exact (Nat.le_zero.mp hn).symm
    | succ n =>
      simp only [List.take_succ_cons, fractionLength, digitCount_take] at hn ⊢
      exact counted_min hn

/-- A cut behind an exponent does not change it. -/
theorem exponentLength_take (hn : exponentLength t ≤ n) :
    exponentLength (t.take n) = exponentLength t := by
  cases t with
  | nil => simp
  | cons e rest =>
    -- A cut in front of everything leaves no exponent, and there was none.
    cases n with
    | zero =>
      rw [List.take_zero]
      exact (Nat.le_zero.mp hn).symm
    | succ n =>
      simp only [List.take_succ_cons, exponentLength] at hn ⊢
      by_cases hsign : (startsWith "+" rest || startsWith "-" rest) = true
      · -- The sign is a character of its own, in front of the digits.
        cases rest with
        | nil => simp
        | cons sign digits =>
          simp only [hsign, if_true, List.drop_succ_cons, List.drop_zero, List.length_cons,
            Nat.add_sub_cancel_left] at hn ⊢
          cases n with
          | zero =>
            have hnone : ¬ (((decide (e = 'e') || decide (e = 'E')) &&
                decide (0 < digitCount digits)) = true) := by
              intro h
              rw [if_pos h] at hn
              omega
            rw [if_neg hnone]
            simp [startsWith, Text.ofString, digitCount]
          | succ n =>
            have hsame : (startsWith "+" (sign :: digits.take n) ||
                startsWith "-" (sign :: digits.take n)) = true := by
              simpa [startsWith, Text.ofString, List.isPrefixOf] using hsign
            simp only [List.take_succ_cons, hsame, if_true, List.drop_succ_cons, List.drop_zero,
              List.length_cons, Nat.add_sub_cancel_left, digitCount_take, Nat.add_comm (1 + 1)]
              at hn ⊢
            exact counted_min hn
      · have hsame : (startsWith "+" (rest.take n) || startsWith "-" (rest.take n)) ≠ true := by
          intro htake
          refine hsign ?_
          rw [Bool.or_eq_true] at htake ⊢
          exact htake.imp startsWith_of_take startsWith_of_take
        simp only [hsign, hsame, Bool.false_eq_true, if_false, Nat.sub_self, digitCount_take,
          Nat.add_zero, Nat.add_comm 1 (min _ _), Nat.add_comm 1 (digitCount _)] at hn ⊢
        exact counted_min hn

/-- A number is read the same if the text ends behind it. A part that is read
later, as the exponent, is looked for behind those before it, so the cut is
behind it too. -/
theorem number_take (hn : (number c t).length ≤ n + 1) : number c (t.take n) = number c t := by
  -- A cut text could only be less of a number in hexadecimal digits, so the first test has the
  -- same outcome.
  by_cases hhex : (decide (c = '0') && decide (0 < hexTailLength t)) = true
  · have hlength : hexTailLength t + 1 ≤ n + 1 := by
      rw [number, if_pos hhex] at hn
      exact hn
    have htail : hexTailLength (t.take n) = hexTailLength t := hexTailLength_take (by omega)
    simp only [number, htail, if_pos hhex]
  · have htake : ¬ (decide (c = '0') && decide (0 < hexTailLength (t.take n))) = true := by
      intro h
      simp only [Bool.and_eq_true, decide_eq_true_eq] at h hhex
      have hzero : hexTailLength t = 0 := Nat.eq_zero_of_not_pos fun hpos => hhex ⟨h.1, hpos⟩
      have hsame : hexTailLength (t.take n) = hexTailLength t := hexTailLength_take (by omega)
      omega
    rw [number, if_neg hhex] at hn
    rw [number, number, if_neg hhex, if_neg htake]
    dsimp only at hn ⊢
    have hwhole : digitCount t ≤ n := by
      split at hn
      · exact Nat.le_of_succ_le_succ hn
      · dsimp only at hn
        omega
    have hfraction : fractionLength (t.drop (digitCount t)) ≤ n - digitCount t := by
      split at hn
      · omega
      · dsimp only at hn
        omega
    simp only [digitCount_take, Nat.min_eq_right hwhole, List.drop_take,
      fractionLength_take hfraction]
    split
    · rfl
    · rename_i hpoint
      rw [if_neg hpoint] at hn
      dsimp only at hn
      have hexponent : exponentLength
          (t.drop (digitCount t + fractionLength (t.drop (digitCount t))))
            ≤ n - (digitCount t + fractionLength (t.drop (digitCount t))) := by omega
      simp only [exponentLength_take hexponent]

/-- A name or a keyword is read the same if the text ends behind it. -/
theorem name_take (hn : (name inTag c t).length ≤ n + 1) :
    name inTag c (t.take n) = name inTag c t := by
  have htail : (t.take n).takeWhile (continuesName inTag) = t.takeWhile (continuesName inTag) := by
    rw [← List.take_takeWhile]
    exact List.take_of_length_le (Nat.le_of_succ_le_succ hn)
  simp only [name, htail]

/-- A mark of one character is the same in front of nothing, and the
second character of a pair is the last one that it needs. -/
theorem mark_take (hn : (mark inTag c t).length ≤ n + 1) :
    mark inTag c (t.take n) = mark inTag c t := by
  cases n with
  | succ n =>
    have hpair : pair? c (t.take (n + 1)) = pair? c t := by
      cases t with
      | nil => rfl
      | cons d t => rfl
    simp only [mark, hpair]
  | zero =>
    have hnone : pair? c [] = none := by simp [pair?]
    unfold mark at hn ⊢
    split at hn
    · exact absurd hn (by simp)
    · rename_i hpair
      rw [List.take_zero, hnone, ite_self]

/-- The text behind a token that is no trivia, and that has no defect, can
be cut off. -/
theorem code_take (solid : (code inTag c t).kind.isTrivia = false)
    (sound : (code inTag c t).problem = none) (hn : (code inTag c t).length ≤ n + 1) :
    code inTag c (t.take n) = code inTag c t := by
  unfold code at solid sound hn ⊢
  -- What starts no comment in front of more text starts none without it.
  have hcut : ∀ (first : CodePoint) (pattern : String),
      ¬ (decide (c = first) && startsWith pattern t) = true →
      ¬ (decide (c = first) && startsWith pattern (t.take n)) = true := by
    intro first pattern h htake
    simp only [Bool.and_eq_true] at h htake
    exact h ⟨htake.1, startsWith_of_take htake.2⟩
  split at solid
  · unfold separator at solid
    split at solid <;> cases solid
  rename_i hblack
  split at solid
  · cases solid
  rename_i hline
  split at solid
  · unfold blockComment at solid
    split at solid <;> cases solid
  rename_i hblock
  split at solid
  · unfold blockComment at solid
    split at solid <;> cases solid
  rename_i hmarkup
  rw [if_neg hblack, if_neg hline, if_neg hblock, if_neg hmarkup] at sound hn
  rw [if_neg hblack, if_neg (hcut _ _ hline), if_neg (hcut _ _ hblock), if_neg (hcut _ _ hmarkup),
    if_neg hblack, if_neg hline, if_neg hblock, if_neg hmarkup]
  by_cases hquote : c = '"'
  · rw [if_pos hquote] at sound hn
    rw [if_pos hquote, if_pos hquote]
    have hclosed : (stringBody t).isClosed = true := by
      by_contra hopen
      simp [string, hopen] at sound
    simp only [string, stringBody_take hclosed (Nat.le_of_succ_le_succ hn)]
  · rw [if_neg hquote] at hn
    rw [if_neg hquote, if_neg hquote]
    split at hn
    · rename_i hdigit
      rw [if_pos hdigit, if_pos hdigit, number_take hn]
    rename_i hdigit
    rw [if_neg hdigit, if_neg hdigit]
    split at hn
    · rename_i hname
      rw [if_pos hname, if_pos hname, name_take hn]
    · rename_i hname
      rw [if_neg hname, if_neg hname, mark_take hn]

/-- Names are read in code or in a tag. -/
theorem nameContext_eq (inTag : Bool) :
    nameContext inTag = .normal ∨ nameContext inTag = .tag := by
  cases inTag
  · exact .inl rfl
  · exact .inr rfl

/-- A token that is no trivia is one by itself. -/
theorem Splits.alone {kind : TokenKind} {text : Text}
    (h : Splits (nameContext inTag) kind text rest) (solid : kind.isTrivia = false) :
    Splits (nameContext inTag) kind text [] := by
  obtain ⟨c, run, rfl⟩ := h.exists_cons_eq
  rw [splits_cons, next_nameContext] at h ⊢
  obtain ⟨hkind, hlength, hproblem⟩ := h
  have hcut := @code_take c (run ++ rest) run.length inTag (hkind ▸ solid) hproblem
    (Nat.le_of_eq hlength)
  rw [List.take_left] at hcut
  rw [List.append_nil, hcut]
  exact ⟨hkind, hlength, hproblem⟩

end Lexeme

open Lexeme

/-! ### The tokens of a text -/

/-- Read in `context`, the text has these tokens, each with its kind, and
trivia between them. Nothing is wrong with any of it. -/
inductive Text.HasWords (context : LexContext) : Text → List (TokenKind × Text) → Prop
  | nil : HasWords context [] []
  | trivia {kind : TokenKind} {piece rest : Text} {words : List (TokenKind × Text)}
      (splits : Splits context kind piece rest) (isTrivia : kind.isTrivia = true)
      (later : HasWords context rest words) : HasWords context (piece ++ rest) words
  | word {kind : TokenKind} {token rest : Text} {words : List (TokenKind × Text)}
      (splits : Splits context kind token rest) (solid : kind.isTrivia = false)
      (later : HasWords context rest words) :
      HasWords context (token ++ rest) ((kind, token) :: words)

namespace Text.HasWords

variable {inTag : Bool} {text tail : Text} {words : List (TokenKind × Text)}

/-- Each of the tokens is one by itself. -/
theorem alone (h : HasWords (nameContext inTag) text words) :
    ∀ word ∈ words, Splits (nameContext inTag) word.1 word.2 [] ∧
      word.1.isTrivia = false := by
  induction h with
  | nil => simp
  | trivia _ _ _ ih => exact ih
  | word splits solid _ ih =>
    exact List.forall_mem_cons.mpr ⟨⟨splits.alone solid, solid⟩, ih⟩

/-- White space behind the last token is trivia. -/
theorem space (inTag : Bool) : HasWords (nameContext inTag) [CodePoint.ofChar ' '] [] := by
  have hspace : Splits (nameContext inTag) .whitespace [CodePoint.ofChar ' '] [] := by
    cases inTag <;> exact ⟨rfl, rfl, rfl⟩
  exact .trivia hspace rfl .nil

section Alone

variable (h : ∀ word ∈ words, Splits (nameContext inTag) word.1 word.2 [] ∧
    word.1.isTrivia = false)
  (htail : ∀ c ∈ tail.head?, c.isWhitespace = true) (later : HasWords (nameContext inTag) tail [])

include h htail later

/-- Tokens with a space in front of each are read as these tokens. -/
theorem flatMap_space :
    HasWords (nameContext inTag)
      (words.flatMap (fun word => CodePoint.ofChar ' ' :: word.2) ++ tail) words := by
  induction words with
  | nil => exact later
  | cons word words ih =>
    obtain ⟨⟨splits, solid⟩, hwords⟩ := List.forall_mem_cons.mp h
    have hword := HasWords.word (splits.behind (nameContext_eq inTag) solid
      (isWhitespace_head?_flatMap htail)) solid (ih hwords)
    obtain ⟨c, run, hcons, hblank⟩ := splits.exists_cons (nameContext_eq inTag) solid
    have hspace : ∀ more, Splits (nameContext inTag) .whitespace [CodePoint.ofChar ' ']
        (word.2 ++ more) := by
      intro more
      rw [hcons]
      exact splits_space (nameContext_eq inTag) hblank
    have hboth := HasWords.trivia (hspace _) rfl hword
    simpa using hboth

/-- Tokens with single spaces between them are read as these tokens. -/
theorem spaced_append :
    HasWords (nameContext inTag) (Text.spaced (words.map (·.2)) ++ tail) words := by
  cases words with
  | nil => exact later
  | cons word words =>
    obtain ⟨⟨splits, solid⟩, hwords⟩ := List.forall_mem_cons.mp h
    rw [List.map_cons, Text.spaced_cons, List.flatMap_map, List.append_assoc]
    exact .word (splits.behind (nameContext_eq inTag) solid (isWhitespace_head?_flatMap htail))
      solid (flatMap_space hwords htail later)

end Alone

end Text.HasWords

/-! ### What a lexer reads -/

/-- Kind and text of the tokens that are no trivia. The end of the source
is one of them. -/
def Token.solidTexts (source : Text) (tokens : List Token) : List (TokenKind × Text) :=
  (tokens.filter fun token => !token.kind.isTrivia).map fun token =>
    (token.kind, token.text source)

/-- Read in `context`, the source has no lexical error, and these tokens
besides trivia. -/
def Text.ReadsAs (context : LexContext) (source : Text) (texts : List (TokenKind × Text)) : Prop :=
  ∀ file, ((Lexer.ofSource source file).tokens context).2.diagnostics = #[] ∧
    Token.solidTexts source ((Lexer.ofSource source file).tokens context).1 = texts

namespace Lexer

variable {L : Lexer} {context : LexContext} {fuel : Nat} {text : Text}
  {words : List (TokenKind × Text)}

/-- What is read of a text with these tokens is these tokens, with the
trivia between them, and the end of the source. The induction is on the
text: a step of the lexer reads its first lexeme. -/
theorem take_of_hasWords (h : text.HasWords context words) (enough : L.Suffices fuel)
    (hbehind : L.behind = text) :
    (L.take context fuel).2.diagnostics = L.diagnostics ∧
      Token.solidTexts L.source (L.take context fuel).1 = words ++ [(.eof, [])] := by
  -- The rules of `HasWords` are the steps of the lexer: a piece of trivia or a word, and then
  -- what follows from where the lexer stands behind it.
  induction h generalizing L fuel with
  | nil =>
    have hend : L.source.length ≤ L.position := List.drop_eq_nil_iff.mp hbehind
    cases fuel with
    | zero => exact absurd enough.2 (Nat.not_lt_zero _)
    | succ fuel =>
      rw [take, next_of_length_le hend, if_pos rfl]
      exact ⟨rfl, rfl⟩
  | trivia splits isTrivia _ ih =>
    obtain ⟨hkind, hrest, -, hdiagnostics⟩ := next_of_splits splits hbehind
    have hne := splits.kind_ne_eof
    rw [← hkind] at hne isTrivia
    cases fuel with
    | zero => exact absurd enough.2 (Nat.not_lt_zero _)
    | succ fuel =>
      have hlater := ih (enough.next_of_ne hne) hrest
      rw [hdiagnostics, next_source] at hlater
      rw [take, if_neg hne]
      refine ⟨hlater.1, ?_⟩
      rw [← hlater.2, Token.solidTexts, List.filter_cons_of_neg (by simp [isTrivia])]
      rfl
  | word splits solid _ ih =>
    obtain ⟨hkind, hrest, htext, hdiagnostics⟩ := next_of_splits splits hbehind
    have hne := splits.kind_ne_eof
    rw [← hkind] at hne solid
    cases fuel with
    | zero => exact absurd enough.2 (Nat.not_lt_zero _)
    | succ fuel =>
      have hlater := ih (enough.next_of_ne hne) hrest
      rw [hdiagnostics, next_source] at hlater
      rw [take, if_neg hne]
      refine ⟨hlater.1, ?_⟩
      rw [Token.solidTexts, List.filter_cons_of_pos (by simp [solid]), List.map_cons, Token.text,
        if_neg hne, htext, hkind, List.cons_append, ← hlater.2]
      rfl

/-- If nothing is wrong with what is read, the text behind has tokens. The
induction is on the number of steps: a step adds no diagnostic, since
later steps do not take any back. -/
theorem exists_hasWords (enough : L.Suffices fuel)
    (sound : (L.take context fuel).2.diagnostics = L.diagnostics) :
    ∃ words, L.behind.HasWords context words := by
  induction fuel generalizing L with
  | zero => exact absurd enough.2 (Nat.not_lt_zero _)
  | succ fuel ih =>
    cases hbehind : L.behind with
    | nil => exact ⟨[], .nil⟩
    | cons c rest =>
      obtain ⟨hkind, -, hdiagnostics⟩ := @next_of_drop_eq L context c rest hbehind
      have hne : (L.next context).current.kind ≠ .eof := by
        rw [hkind]
        exact (Lexeme.cuts_next context c rest).kind_ne
      rw [take, if_neg hne] at sound
      have hsame : (L.next context).diagnostics = L.diagnostics := by
        have hlater := (reads_take context fuel (L.next context)).extends_.diagnostics
        rw [show (Lexer.take context fuel (L.next context)).2.diagnostics = _ from sound] at hlater
        exact Array.toList_inj.mp (hlater.eq_of_length_le extends_next.diagnostics.length_le)
      have hproblem : (Lexeme.next context c rest).problem = none := by
        cases hproblem : (Lexeme.next context c rest).problem with
        | none => rfl
        | some code => simp [hsame, problem?, hproblem] at hdiagnostics
      obtain ⟨words, hwords⟩ := ih (enough.next_of_ne hne) (by rw [hsame]; exact sound)
      rw [behind_next hbehind] at hwords
      have hsplits := Lexeme.splits_next hproblem
      rw [← List.take_append_drop (Lexeme.next context c rest).length (c :: rest)]
      cases htrivia : (Lexeme.next context c rest).kind.isTrivia with
      | true => exact ⟨words, .trivia hsplits htrivia hwords⟩
      | false => exact ⟨_, .word hsplits htrivia hwords⟩

end Lexer

/-- The end of the source behind the last token, with a space in front of
it, is nothing but this space. -/
theorem Text.spaced_concat_nil (texts : List Text) :
    spaced (texts ++ [[]]) = if texts = [] then [] else spaced texts ++ [CodePoint.ofChar ' '] := by
  cases texts with
  | nil => rfl
  | cons text rest => simp [spaced_cons]

/-- A source without a lexical error has the same tokens when they are
written with single spaces between them, in code and in tags. It does not
matter whether the end of the source counts as a token, which leaves a
space behind the last one. -/
theorem Lexer.readsAs_spaced (inTag : Bool) (source file : Text)
    (sound : ((ofSource source file).tokens (nameContext inTag)).2.diagnostics = #[]) :
    let texts := Token.solidTexts source ((ofSource source file).tokens (nameContext inTag)).1
    Text.ReadsAs (nameContext inTag) (Text.spaced (texts.map (·.2))) texts ∧
      Text.ReadsAs (nameContext inTag) (Text.spaced (texts.map (·.2)).dropLast) texts := by
  intro texts
  have enough := suffices_ofSource source file
  obtain ⟨words, hwords⟩ := exists_hasWords enough sound
  have htexts : texts = words ++ [(.eof, [])] := (take_of_hasWords hwords enough rfl).2
  have hreads : ∀ text : Text, text.HasWords (nameContext inTag) words →
      text.ReadsAs (nameContext inTag) texts := by
    intro text h file
    rw [htexts]
    exact take_of_hasWords h (suffices_ofSource text file) rfl
  have halone := hwords.alone
  have hspaced : Text.HasWords (nameContext inTag) (Text.spaced (words.map (·.2))) words := by
    rw [← List.append_nil (Text.spaced _)]
    exact Text.HasWords.spaced_append halone (by simp) .nil
  have hmap : texts.map (·.2) = words.map (·.2) ++ [[]] := by rw [htexts, List.map_append]; rfl
  constructor
  · apply hreads
    rw [hmap, Text.spaced_concat_nil]
    split
    · rename_i hnil
      rw [List.map_eq_nil_iff.mp hnil]
      exact .nil
    · exact Text.HasWords.spaced_append halone (by simp; decide) (.space inTag)
  · rw [hmap, List.dropLast_concat]
    exact hreads _ hspaced

/-- A comparison with a comment behind it. -/
theorem Lexer.readsAs_spaced_comparison :
    ((ofSource "a<=1.5e3// b" []).tokens (nameContext false)).2.diagnostics = #[] ∧
      Text.ReadsAs (nameContext false) "a <= 1.5e3"
        [(.identifier, "a"), (.lessThanOrEqual, "<="), (.real, "1.5e3"), (.eof, [])] := by
  have sound : ((ofSource "a<=1.5e3// b" []).tokens (nameContext false)).2.diagnostics = #[] := by
    decide +kernel
  have htexts : Token.solidTexts "a<=1.5e3// b"
      ((ofSource "a<=1.5e3// b" []).tokens (nameContext false)).1
        = ([(.identifier, "a"), (.lessThanOrEqual, "<="), (.real, "1.5e3"), (.eof, [])] :
            List (TokenKind × Text)) := by
    decide +kernel
  have hreads := (readsAs_spaced false "a<=1.5e3// b" [] sound).2
  simp only [htexts] at hreads
  exact ⟨sound, hreads⟩

end MarkupSyntax
