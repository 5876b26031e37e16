import MarkupSyntax.Proofs.Token.Escape
import MarkupSyntax.Proofs.Token.Spelling

/-!
# `MarkupSyntax.Proofs.Token.TextTokens`: the tokens of a text

A text is read back in tokens (`ReadsBack`). Which tokens these are does
not depend on what stands behind the text (`ReadsBack.lexed_eq`), if the
text ends neither with white space nor with a backslash: what comes next
can end the last token, but it cannot move the end of any token in the
text.

The proof goes along the text, as its reading does. A character that is
written in another way is a token, and so is a longest run of characters
that are written as they are, unless it is white space, which is cut off
in front of the next token.
-/

set_option autoImplicit false

namespace MarkupSyntax

open Lexeme

section Scans

variable {context : LexContext} {kind kind' : TokenKind} {trivia : TriviaKind}
  {gap : List (TriviaKind × Text)} {token token' front text tail rest rest' : Text}

/-- A text starts with one lexeme in one way. -/
theorem Lexeme.Splits.unique (h : Splits context kind token rest)
    (h' : Splits context kind' token' rest') (heq : token ++ rest = token' ++ rest') :
    kind = kind' ∧ token = token' ∧ rest = rest' := by
  obtain ⟨c, run, rfl⟩ := h.exists_cons_eq
  obtain ⟨d, run', rfl⟩ := h'.exists_cons_eq
  rw [List.cons_append, List.cons_append] at heq
  obtain ⟨rfl, htail⟩ := List.cons.inj heq
  rw [splits_cons] at h h'
  rw [htail] at h
  have hlength : run.length = run'.length := by
    have := h.2.1.symm.trans h'.2.1
    omega
  obtain ⟨rfl, rfl⟩ := List.append_inj htail hlength
  exact ⟨h.1.symm.trans h'.1, rfl, rfl⟩

/-- Where a text starts with a token, this is the token that is found. -/
theorem Scans.eq_of_splits (h : Scans context (front ++ rest) gap kind token tail)
    (splits : Splits context kind' front rest) (solid : kind'.isTrivia = false) :
    kind = kind' ∧ token = front ∧ tail = rest := by
  generalize htext : front ++ rest = text at h
  cases h with
  | eof =>
    obtain ⟨c, run, rfl⟩ := splits.exists_cons_eq
    cases htext
  | token splits' _ =>
    obtain ⟨rfl, rfl, rfl⟩ := splits.unique splits' htext
    exact ⟨rfl, rfl, rfl⟩
  | trivia splits' isTrivia _ =>
    obtain ⟨rfl, -, -⟩ := splits.unique splits' htext
    rw [TokenKind.isTrivia, isTrivia] at solid
    cases solid

/-- Where it starts with trivia, the token is found behind it. -/
theorem Scans.behind_trivia (h : Scans context (front ++ rest) gap kind token tail)
    (splits : Splits context kind' front rest) (isTrivia : kind'.triviaKind? = some trivia) :
    ∃ gap', Scans context rest gap' kind token tail := by
  generalize htext : front ++ rest = text at h
  cases h with
  | eof =>
    obtain ⟨c, run, rfl⟩ := splits.exists_cons_eq
    cases htext
  | token splits' solid =>
    obtain ⟨rfl, -, -⟩ := splits.unique splits' htext
    rw [TokenKind.isTrivia, isTrivia] at solid
    cases solid
  | trivia splits' _ later =>
    obtain ⟨-, -, rfl⟩ := splits.unique splits' htext
    exact ⟨_, later⟩

end Scans

namespace Consists

variable {pieces : List Piece} {text rest : Text}

/-- Pieces that are not the end of the source take characters away, so the rest
is no longer than the text. -/
theorem length_le (h : Consists text pieces rest)
    (notEnd : ∀ piece ∈ pieces, piece.lexed.kind ≠ .eof) :
    rest.length ≤ text.length := by
  induction h with
  | nil => exact Nat.le_refl _
  | cons first later ih =>
    rw [List.forall_mem_cons] at notEnd
    have hfirst := first.length_lt notEnd.1
    have hlater := ih notEnd.2
    omega

end Consists

/-! ### One token -/

/-- The pieces are what is written for a text, in front of a rest. -/
structure IsCut (typed : Bool) (t rest : Text) (pieces : List Piece) : Prop where
  consists : Consists (Text.escape typed t ++ rest) pieces rest
  isText : ∀ piece ∈ pieces, piece.lexed.IsText typed

namespace IsCut

variable {typed : Bool} {c : CodePoint} {kind : TokenKind} {trivia : TriviaKind}
  {front behind run t rest : Text} {pieces : List Piece}

/-- None of the pieces that are cut from a text is the end of the source. -/
theorem notEnd (h : IsCut typed t rest pieces) : ∀ piece ∈ pieces, piece.lexed.kind ≠ .eof := by
  intro piece hmem hend
  have hrun := (h.isText piece hmem).kind
  rw [hend] at hrun
  revert hrun
  cases typed <;> decide

/-- For no text there are no pieces. -/
theorem eq_nil (h : IsCut typed [] rest pieces) : pieces = [] := by
  have hends := h.notEnd
  have hconsists := h.consists
  rw [Text.escape_nil, List.nil_append] at hconsists
  cases hconsists with
  | nil => rfl
  | cons first later =>
    rw [List.forall_mem_cons] at hends
    have hfirst := first.length_lt hends.1
    have hlater := later.length_le hends.2
    omega

/-- For a text there is a first piece. -/
theorem exists_first (h : IsCut typed t rest pieces) (hne : Text.escape typed t ≠ []) :
    ∃ gap lexed later tail, pieces = ⟨gap, lexed⟩ :: later ∧ lexed.IsText typed ∧
      Scans (textContext typed) (Text.escape typed t ++ rest) gap lexed.kind lexed.text tail ∧
      Consists tail later rest ∧ rest.length ≤ tail.length ∧
      ∀ piece ∈ later, piece.lexed.IsText typed := by
  have hends := h.notEnd
  obtain ⟨hconsists, hisText⟩ := h
  have hpos := List.length_pos_iff.mpr hne
  generalize htext : Text.escape typed t ++ rest = text at hconsists ⊢
  cases hconsists with
  | nil =>
    have hlength := congrArg List.length htext
    rw [List.length_append] at hlength
    omega
  | @cons piece later _ tail _ first hlater =>
    rw [List.forall_mem_cons] at hends hisText
    rw [hisText.1.context] at first
    exact ⟨piece.gap, piece.lexed, later, tail, rfl, hisText.1, first, hlater,
      hlater.length_le hends.2, hisText.2⟩

/-- Where a token is written in front, it is the first one. -/
theorem token (h : IsCut typed (front ++ behind) rest pieces) (solid : kind.isTrivia = false)
    (splits : Splits (textContext typed) kind (Text.escape typed front)
      (Text.escape typed behind ++ rest)) :
    ∃ later, pieces.map (·.lexed)
        = ⟨textContext typed, kind, Text.escape typed front⟩ :: later.map (·.lexed) ∧
      IsCut typed behind rest later := by
  have hne : Text.escape typed (front ++ behind) ≠ [] := by
    obtain ⟨c, run, hfront⟩ := splits.exists_cons_eq
    rw [Text.escape_append, hfront]
    exact List.cons_ne_nil _ _
  obtain ⟨gap, ⟨context, kind', text⟩, later, tail, rfl, hfirst, first, hlater, -, hisText⟩ :=
    h.exists_first hne
  rw [Text.escape_append, List.append_assoc] at first
  obtain ⟨hkind, htoken, htail⟩ := first.eq_of_splits splits solid
  have hcontext : context = textContext typed := hfirst.context
  subst hkind htoken htail hcontext
  exact ⟨later, rfl, hlater, hisText⟩

/-- Where white space is written in front, the tokens are those of what is
behind it. -/
theorem white (h : IsCut typed (front ++ behind) rest pieces)
    (hfront : Text.escape typed front = front)
    (splits : Splits (textContext typed) kind front (Text.escape typed behind ++ rest))
    (isTrivia : kind.triviaKind? = some trivia) :
    ∃ later, pieces.map (·.lexed) = later.map (·.lexed) ∧ IsCut typed behind rest later := by
  have hne : Text.escape typed (front ++ behind) ≠ [] := by
    obtain ⟨c, run, rfl⟩ := splits.exists_cons_eq
    rw [Text.escape_append, hfront]
    exact List.cons_ne_nil _ _
  obtain ⟨gap, lexed, later, tail, rfl, hfirst, first, hlater, -, hisText⟩ := h.exists_first hne
  rw [Text.escape_append, hfront, List.append_assoc] at first
  obtain ⟨gap', hbehind⟩ := first.behind_trivia splits isTrivia
  rw [← hfirst.context] at hbehind
  exact ⟨⟨gap', lexed⟩ :: later, rfl, .cons hbehind hlater,
    List.forall_mem_cons.mpr ⟨hfirst, hisText⟩⟩

end IsCut

/-! ### Runs -/

section Runs

variable {typed : Bool} {c d : CodePoint} {run rest : Text} {pieces : List Piece}

/-- A run of text does not end inside characters that are written as they
are. -/
theorem length_le_textLength (h : ∀ d ∈ run, d.isVerbatim typed = true)
    (hplain : run.getLast? ≠ some (CodePoint.ofChar '\\')) :
    run.length ≤ textLength typed (run ++ rest) := by
  induction run with
  | nil => exact Nat.zero_le _
  | cons c run ih =>
    rw [List.forall_mem_cons] at h
    have hnext : endsText typed c (run ++ rest) = false := by
      refine endsText_of_isVerbatim h.1 fun hslash => ?_
      cases run with
      | nil => exact absurd (congrArg some hslash) hplain
      | cons d run =>
        rintro _ ⟨⟩
        exact .inl (List.forall_mem_cons.mp h.2).1
    have hlater : run.length ≤ textLength typed (run ++ rest) := by
      refine ih h.2 fun hlast => hplain ?_
      rw [List.getLast?_cons, hlast]
      rfl
    rw [List.cons_append, textLength, hnext, if_neg Bool.false_ne_true, List.length_cons]
    omega

/-- Where the pieces of a run of text end with it, the run is one token. -/
theorem IsCut.splits_whole_run (h : IsCut typed (c :: run) rest pieces)
    (hrun : ∀ d ∈ c :: run, d.isVerbatim typed = true)
    (hblack : (c :: run).all (·.isWhitespace) = false)
    (hplain : (c :: run).getLast? ≠ some (CodePoint.ofChar '\\')) :
    Splits (textContext typed) .textChunk (c :: run) rest := by
  obtain ⟨hc, hothers⟩ := List.forall_mem_cons.mp hrun
  have hstays : (c :: run).length ≤ textLength typed (c :: run ++ rest) :=
    length_le_textLength hrun hplain
  have hends : endsText typed c (run ++ rest) = false := by
    by_contra hends
    rw [List.cons_append, textLength, if_pos (Bool.not_eq_false _ ▸ hends)] at hstays
    exact absurd hstays (Nat.not_succ_le_zero _)
  rw [List.cons_append, textLength, hends, if_neg Bool.false_ne_true, List.length_cons,
    Nat.add_le_add_iff_right] at hstays
  -- What is read starts with the run, so it is no white space.
  have hchunk : ((c :: (run ++ rest).take (textLength typed (run ++ rest))).all
      (·.isWhitespace)) = false := by
    rw [Bool.eq_false_iff, ne_eq, List.all_eq_true] at hblack ⊢
    refine fun hall => hblack fun d hd => hall d ?_
    rw [List.take_append, List.take_of_length_le hstays, ← List.cons_append]
    exact List.mem_append_left _ hd
  have hnext : next (textContext typed) c (run ++ rest)
      = { kind := .textChunk, length := textLength typed (run ++ rest) + 1 } := by
    rw [next_textContext, text_eq_textRun hends, textRun]
    simp only [hchunk, Bool.false_eq_true, if_false]
  have hfits := textLength_le typed (run ++ rest)
  have hsplits : Splits (textContext typed) .textChunk
      (c :: (run ++ rest).take (textLength typed (run ++ rest)))
      ((run ++ rest).drop (textLength typed (run ++ rest))) := by
    rw [splits_cons, List.take_append_drop, hnext, List.length_take, Nat.min_eq_left hfits]
    exact ⟨rfl, rfl, rfl⟩
  -- The pieces go on behind it, so it is not longer than the run.
  have hsame := Text.escape_of_isVerbatim hrun
  obtain ⟨gap, lexed, later, tail, -, -, first, -, hle, -⟩ :=
    h.exists_first (by rw [hsame]; exact List.cons_ne_nil _ _)
  rw [hsame, List.cons_append,
    ← List.take_append_drop (textLength typed (run ++ rest)) (run ++ rest), ← List.cons_append]
    at first
  obtain ⟨-, -, rfl⟩ := first.eq_of_splits hsplits rfl
  rw [List.length_drop, List.length_append] at hle
  rw [List.length_append] at hfits
  have hlength : textLength typed (run ++ rest) = run.length := by omega
  rwa [hlength, List.take_left, List.drop_left] at hsplits

/-- What white space is cut into depends on the character behind it, and
not on more. -/
theorem separator_append_cons (hd : d.isWhitespace = false) (more more' : Text) :
    separator c (run ++ d :: more) = separator c (run ++ d :: more') := by
  rw [CodePoint.isWhitespace, Bool.or_eq_false_iff] at hd
  have htail : lineBreakTail c (run ++ d :: more) = lineBreakTail c (run ++ d :: more') := by
    cases run <;> simp [lineBreakTail]
  simp only [separator, htail, takeWhile_append_cons hd.1]

/-- White space in front of a character that is written in another way
starts with the same separator, whatever is behind that character. -/
theorem exists_splits_white_escapeChar (h : ∀ d ∈ c :: run, d.isVerbatim typed = true)
    (hwhite : (c :: run).all (·.isWhitespace) = true) (hd : d.isVerbatim typed = false) :
    ∃ kind trivia front back, c :: run = front ++ back ∧ kind.triviaKind? = some trivia ∧
      ∀ more, Splits (textContext typed) kind front
        (back ++ (Text.escapeChar typed d ++ more)) := by
  obtain ⟨hc, hrun⟩ := List.forall_mem_cons.mp h
  obtain ⟨kind, trivia, front, back, hfront, -, splits, htrivia, -⟩ :=
    exists_splits_white h (stops_escapeChar hd (c :: run) []) hwhite
  refine ⟨kind, trivia, front, back, hfront, htrivia, fun more => ?_⟩
  obtain ⟨e, tail, hescape⟩ : ∃ e tail, Text.escapeChar typed d = e :: tail := by
    obtain ⟨e, tail, hescape, -⟩ := (stops_escapeChar hd (c :: run) []).ends
    exact ⟨e, tail, by rwa [List.append_nil] at hescape⟩
  have hblack := (stops_escapeChar hd (c :: run) []).black e (by rw [hescape]; rfl)
  have hread : ∀ more, next (textContext typed) c (run ++ (Text.escapeChar typed d ++ more))
      = separator c (run ++ (Text.escapeChar typed d ++ more)) := by
    intro more
    rw [next_textContext]
    exact (text_of_isVerbatim hc hrun (stops_escapeChar hd (c :: run) more)).1 hwhite
  have hsame : next (textContext typed) c (run ++ (Text.escapeChar typed d ++ more))
      = next (textContext typed) c (run ++ (Text.escapeChar typed d ++ [])) := by
    rw [hread, hread, hescape]
    exact separator_append_cons hblack _ _
  obtain ⟨c', front, rfl⟩ := splits.exists_cons_eq
  obtain ⟨rfl, hback⟩ := List.cons.inj hfront
  rw [splits_cons, ← List.append_assoc] at splits ⊢
  rw [show front ++ back = run from hback.symm] at splits ⊢
  rw [hsame]
  exact splits

end Runs

/-! ### All tokens -/

namespace IsCut

variable {typed : Bool} {c d : CodePoint} {run front behind : Text}

/-- Whatever comes behind the text, it is cut into the same tokens. -/
def HasTokens (typed : Bool) (t : Text) : Prop :=
  ∃ tokens : List Lexed, ∀ rest pieces, IsCut typed t rest pieces → pieces.map (·.lexed) = tokens

/-- A run that is all there is, and not white space at its end, is one
token. -/
theorem hasTokens_run (hrun : ∀ d ∈ c :: run, d.isVerbatim typed = true)
    (hlast : ∀ d ∈ (c :: run).getLast?, d.isWhitespace = false)
    (hplain : (c :: run).getLast? ≠ some (CodePoint.ofChar '\\')) : HasTokens typed (c :: run) := by
  have hsame := Text.escape_of_isVerbatim hrun
  have hblack : (c :: run).all (·.isWhitespace) = false := by
    rw [Bool.eq_false_iff, ne_eq, List.all_eq_true]
    intro hwhite
    have hend := hlast _ (List.getLast?_eq_some_getLast (List.cons_ne_nil c run))
    rw [hwhite _ (List.getLast_mem (List.cons_ne_nil c run))] at hend
    cases hend
  refine ⟨[⟨textContext typed, .textChunk, Text.escape typed (c :: run)⟩], fun rest pieces h => ?_⟩
  have hsplits := h.splits_whole_run hrun hblack hplain
  rw [← List.append_nil (c :: run)] at h
  obtain ⟨later, hpieces, hnone⟩ := h.token rfl (by rw [hsame]; exact hsplits)
  rw [hpieces, hnone.eq_nil]
  rfl

/-- What is written in another way is a token, and so is a run in front of
it that is not white space. -/
theorem hasTokens_token {kind : TokenKind} (solid : kind.isTrivia = false)
    (splits : ∀ rest, Splits (textContext typed) kind (Text.escape typed front)
      (Text.escape typed behind ++ rest)) (hbehind : HasTokens typed behind) :
    HasTokens typed (front ++ behind) := by
  obtain ⟨tokens, htokens⟩ := hbehind
  refine ⟨⟨textContext typed, kind, Text.escape typed front⟩ :: tokens, fun rest pieces h => ?_⟩
  obtain ⟨later, hpieces, hlater⟩ := h.token solid (splits rest)
  rw [hpieces, htokens rest later hlater]

/-- White space in front of a character that is written in another way is
no token. A separator of it is cut off. -/
theorem hasTokens_white (hrun : ∀ d ∈ c :: run, d.isVerbatim typed = true)
    (hwhite : (c :: run).all (·.isWhitespace) = true) (hd : d.isVerbatim typed = false)
    (hlater : ∀ {front behind' : Text}, c :: run ++ d :: behind = front ++ behind' → front ≠ [] →
      HasTokens typed behind') :
    HasTokens typed (c :: run ++ d :: behind) := by
  obtain ⟨kind, trivia, front, back, hfront, htrivia, hsplits⟩ :=
    exists_splits_white_escapeChar hrun hwhite hd
  have hne : front ≠ [] := by
    obtain ⟨c', run', rfl⟩ := (hsplits []).exists_cons_eq
    exact List.cons_ne_nil _ _
  rw [hfront] at hrun hlater ⊢
  rw [List.append_assoc] at hlater ⊢
  obtain ⟨hfrontSame, hback⟩ := List.forall_mem_append.mp hrun
  obtain ⟨tokens, htokens⟩ := hlater rfl hne
  refine ⟨tokens, fun rest pieces h => ?_⟩
  have hseparator : Splits (textContext typed) kind front
      (Text.escape typed (back ++ d :: behind) ++ rest) := by
    rw [Text.escape_append, Text.escape_of_isVerbatim hback, Text.escape_cons, List.append_assoc,
      List.append_assoc]
    exact hsplits _
  obtain ⟨later, hpieces, hcut⟩ := h.white (Text.escape_of_isVerbatim hfrontSame) hseparator htrivia
  rw [hpieces, htokens rest later hcut]

/-- A text that starts with a longest run of characters that are written
as they are, if its shorter ends are known. -/
theorem hasTokens_of_run (hrun : ∀ d ∈ c :: run, d.isVerbatim typed = true)
    (hbehind : ∀ d ∈ behind.head?, d.isVerbatim typed = false)
    (hlast : ∀ d ∈ (c :: run ++ behind).getLast?, d.isWhitespace = false)
    (hplain : (c :: run ++ behind).getLast? ≠ some (CodePoint.ofChar '\\'))
    (hlater : ∀ {front behind' : Text}, c :: run ++ behind = front ++ behind' → front ≠ [] →
      HasTokens typed behind') :
    HasTokens typed (c :: run ++ behind) := by
  cases behind with
  | nil =>
    rw [List.append_nil] at hlast hplain ⊢
    exact hasTokens_run hrun hlast hplain
  | cons d behind =>
    have hd := hbehind d rfl
    by_cases hwhite : (c :: run).all (·.isWhitespace) = true
    · exact hasTokens_white hrun hwhite hd hlater
    · have hchunk : ∀ rest, Splits (textContext typed) .textChunk (Text.escape typed (c :: run))
          (Text.escape typed (d :: behind) ++ rest) := by
        intro rest
        rw [Text.escape_of_isVerbatim hrun, Text.escape_cons, List.append_assoc]
        exact Lexeme.splits_run hrun (stops_escapeChar hd (c :: run) _)
          (Bool.not_eq_true _ ▸ hwhite)
      exact hasTokens_token rfl hchunk (hlater rfl (List.cons_ne_nil _ _))

/-- The tokens of a text are the same in front of every rest. The
induction is on the length of the text. -/
theorem hasTokens (t : Text) (hlast : ∀ c ∈ t.getLast?, c.isWhitespace = false)
    (hplain : t.getLast? ≠ some (CodePoint.ofChar '\\')) : HasTokens typed t := by
  -- By induction on the length again, since a run takes many characters.
  induction hn : t.length using Nat.strong_induction_on generalizing t with
  | _ n ih =>
    subst hn
    have hlater : ∀ {front behind : Text}, t = front ++ behind → front ≠ [] →
        HasTokens typed behind := by
      intro front behind ht hfront
      have hends : ∀ c, behind.getLast? = some c → t.getLast? = some c := by
        intro c hc
        rw [ht, List.getLast?_append, hc]
        rfl
      refine ih behind.length ?_ behind (fun c hc => hlast c (hends c hc))
        (fun hslash => hplain (hends _ hslash)) rfl
      have hpos := List.length_pos_iff.mpr hfront
      rw [ht, List.length_append]
      omega
    cases t with
    | nil => exact ⟨[], fun rest pieces h => by rw [h.eq_nil]; rfl⟩
    | cons c t =>
      by_cases hc : c.isVerbatim typed = true
      · -- The longest run of characters that are written as they are, and the rest.
        have hsplit : c :: t = c :: t.takeWhile (·.isVerbatim typed) ++
            t.dropWhile (·.isVerbatim typed) := by
          rw [List.cons_append, List.takeWhile_append_dropWhile]
        rw [hsplit] at hlast hplain ⊢
        have hrun : ∀ d ∈ c :: t.takeWhile (·.isVerbatim typed), d.isVerbatim typed = true :=
          List.forall_mem_cons.mpr ⟨hc, fun d hd => List.mem_takeWhile_imp hd⟩
        refine hasTokens_of_run hrun (fun d hd => ?_) hlast hplain fun heq =>
          hlater (hsplit.trans heq)
        have hfirst := List.head?_dropWhile_not (·.isVerbatim typed) t
        rw [hd] at hfirst
        exact hfirst
      · obtain ⟨kind, hkind, -, -, hsplits⟩ := exists_splits_escapeChar (Bool.not_eq_true _ ▸ hc)
        have hchar : Text.escape typed [c] = Text.escapeChar typed c := List.append_nil _
        exact @hasTokens_token _ [c] t kind (isTrivia_of_mem_runTokens hkind)
          (fun rest => by rw [hchar]; exact hsplits _) (@hlater [c] t rfl (List.cons_ne_nil _ _))

end IsCut

/-- The tokens that a text is read back in do not depend on what comes
behind it. -/
theorem ReadsBack.lexed_eq {typed : Bool} {t rest rest' : Text} {pieces pieces' : List Piece}
    (h : ReadsBack typed t rest pieces) (h' : ReadsBack typed t rest' pieces')
    (hlast : ∀ c ∈ t.getLast?, c.isWhitespace = false)
    (hplain : t.getLast? ≠ some (CodePoint.ofChar '\\')) :
    pieces.map (·.lexed) = pieces'.map (·.lexed) := by
  obtain ⟨tokens, htokens⟩ := @IsCut.hasTokens typed t hlast hplain
  rw [htokens rest pieces ⟨h.consists, h.isText⟩, htokens rest' pieces' ⟨h'.consists, h'.isText⟩]

end MarkupSyntax
