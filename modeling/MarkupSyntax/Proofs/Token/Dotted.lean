import MarkupSyntax.Proofs.Token.Escape
import MarkupSyntax.Proofs.Token.Tags

/-!
# `MarkupSyntax.Proofs.Token.Dotted`: names with dots, and loose closing tags

The name of a tag is made of segments with dots between them, each
segment a `TagName`. In a tag nothing but a name is read from a segment,
and a dot ends it, so a `MarkupName` is read in front of everything that
does not continue its last segment (`MarkupName.consists_name`).

White space may stand between the parts of a closing tag
(`MarkupName.looseClosing`). It is trivia in front of the next part
(`Scans.exists_white`).
-/

set_option autoImplicit false

namespace MarkupSyntax

/-! ### White space in front of a token -/

/-- The text is white space. -/
def Text.White (t : Text) : Prop := ∀ c ∈ t, c.isWhitespace = true

/-- White space is decidable, character by character. -/
instance (t : Text) : Decidable t.White := inferInstanceAs (Decidable (∀ c ∈ t, _))

namespace Lexeme

variable {c : CodePoint}

/-- White space ends a name, in tags as outside of them. -/
theorem continuesName_of_isWhitespace (h : c.isWhitespace = true) (inTag : Bool) :
    continuesName inTag c = false := by
  rcases eq_of_isWhitespace h with rfl | rfl | rfl | rfl <;> cases inTag <;> decide

/-- Something that is true of a character behind white space, and of white
space, is true of the first character. -/
theorem forall_head_white {white rest : Text} {property : CodePoint → Prop} (hwhite : white.White)
    (hspace : ∀ c : CodePoint, c.isWhitespace = true → property c)
    (hrest : ∀ c ∈ rest.head?, property c) : ∀ c ∈ (white ++ rest).head?, property c := by
  cases white with
  | nil => exact hrest
  | cons d white =>
    rintro c ⟨⟩
    exact hspace d (hwhite d List.mem_cons_self)

end Lexeme

/-- White space in front of a token is trivia. The induction is on the
number of characters, since a separator may take several of them. -/
theorem Scans.exists_white {context : LexContext} {kind : TokenKind}
    {gap : List (TriviaKind × Text)} {white rest token tail : Text}
    (hcontext : context = .normal ∨ context = .tag) (hwhite : white.White)
    (hrest : ∀ c ∈ rest.head?, c.isWhitespace = false) (h : Scans context rest gap kind token tail) :
    ∃ gap, Scans context (white ++ rest) gap kind token tail := by
  induction hlength : white.length using Nat.strong_induction_on generalizing white with
  | _ length ih =>
    cases white with
    | nil => exact ⟨gap, h⟩
    | cons c run =>
      have hc : c.isWhitespace = true := hwhite c List.mem_cons_self
      have hnext : Lexeme.next context c (run ++ rest) = Lexeme.separator c (run ++ rest) := by
        rcases hcontext with rfl | rfl <;> exact if_pos hc
      obtain ⟨_, _, piece, back, hpiece, hne, hsplits, htrivia, -⟩ :=
        Lexeme.exists_splits_separator hnext hrest
      have hshorter : back.length < length := by
        have hsame := congrArg List.length hpiece
        have hpos := List.length_pos_iff.mpr hne
        rw [List.length_append] at hsame
        omega
      have hback : Text.White back := fun d hd => hwhite d (hpiece ▸ List.mem_append_right _ hd)
      obtain ⟨gap, hscan⟩ := ih back.length hshorter hback rfl
      rw [hpiece, List.append_assoc]
      exact ⟨_, .trivia hsplits htrivia hscan⟩

/-! ### Names with dots -/

/-- The dot between two segments of a name. -/
def Lexed.dot : Lexed := ⟨.tag, .dot, [CodePoint.ofChar '.']⟩

/-- A dot is one token in a tag, whatever stands behind it. -/
theorem Lexeme.splits_dot {rest : Text} : Splits .tag .dot [CodePoint.ofChar '.'] rest :=
  ⟨rfl, rfl, rfl⟩

/-- A name as it stands in a tag: one or more segments with dots between
them. -/
structure MarkupName where
  first : TagName
  others : List TagName

/-- A name without dots. -/
def TagName.dotted (name : TagName) : MarkupName := ⟨name, []⟩

namespace MarkupName

variable {name : MarkupName} {context : LexContext} {rest behind : Text} {pieces : List Piece}

/-- Further segments, each with a dot in front of it. -/
def furtherText (segments : List TagName) : Text :=
  segments.flatMap fun segment => CodePoint.ofChar '.' :: segment.text

/-- The tokens of further segments. -/
def furtherTokens (segments : List TagName) : List Lexed :=
  segments.flatMap fun segment => [.dot, segment.lexed]

/-- The name as it is written. -/
def text (name : MarkupName) : Text := name.first.text ++ furtherText name.others

/-- The name as it is read. -/
def tokens (name : MarkupName) : List Lexed := name.first.lexed :: furtherTokens name.others

/-- A segment written as a name with one part has the text of the segment. -/
@[simp] theorem text_dotted (segment : TagName) : segment.dotted.text = segment.text :=
  List.append_nil _

/-- A segment written as a name with one part is one token. -/
@[simp] theorem tokens_dotted (segment : TagName) : segment.dotted.tokens = [segment.lexed] := rfl

/-- The texts of the tokens are the name. -/
theorem flatMap_text_tokens (name : MarkupName) : name.tokens.flatMap (·.text) = name.text := by
  have hfurther : ∀ segments : List TagName,
      (furtherTokens segments).flatMap (·.text) = furtherText segments := by
    intro segments
    induction segments with
    | nil => rfl
    | cons segment segments ih =>
      rw [furtherTokens, List.flatMap_cons, List.flatMap_append, ← furtherTokens, ih, furtherText,
        List.flatMap_cons]
      exact congrArg (· ++ _) (List.append_nil (CodePoint.ofChar '.' :: segment.text))
  rw [tokens, List.flatMap_cons, hfurther]
  rfl

/-- A token of a name is none of the end. -/
theorem kind_ne_eof_of_mem (name : MarkupName) {token : Lexed} (h : token ∈ name.tokens) :
    token.kind ≠ .eof := by
  rcases List.mem_cons.mp h with rfl | h
  · exact name.first.kind_ne_eof
  · obtain ⟨segment, -, h⟩ := List.mem_flatMap.mp h
    rcases List.mem_pair.mp h with rfl | rfl
    · exact (show TokenKind.dot ≠ .eof by decide)
    · exact segment.kind_ne_eof

/-- A dot stands in front of each further segment, so a name has at least as
many tokens as it has further segments. This is what bounds the loop over the
segments. -/
theorem length_others_le (name : MarkupName) : name.others.length ≤ name.tokens.length := by
  rw [tokens, furtherTokens, List.length_cons, List.length_flatMap]
  refine Nat.le_succ_of_le ?_
  simpa using Nat.le_mul_of_pos_right name.others.length (Nat.succ_pos 1)

/-- Every character of a name continues a name or is a dot. -/
theorem eq_dot_or_continuesName (name : MarkupName) :
    ∀ c ∈ name.text, c = CodePoint.ofChar '.' ∨ Lexeme.continuesName true c = true := by
  intro c hc
  rcases List.mem_append.mp hc with hfirst | hother
  · exact .inr (name.first.continuesName_of_mem c hfirst)
  · obtain ⟨segment, -, hsegment⟩ := List.mem_flatMap.mp hother
    rcases List.mem_cons.mp hsegment with rfl | hsegment
    · exact .inl rfl
    · exact .inr (segment.continuesName_of_mem c hsegment)

/-- Behind a segment stands a dot, or what is behind the name. -/
theorem head_further (segments : List TagName)
    (h : ∀ c ∈ rest.head?, Lexeme.continuesName true c = false) :
    ∀ c ∈ (furtherText segments ++ rest).head?, Lexeme.continuesName true c = false := by
  cases segments with
  | nil => exact h
  | cons segment segments =>
    rintro c ⟨⟩
    decide

/-- Further segments are read in front of what continues none. -/
theorem consists_further (segments : List TagName)
    (h : ∀ c ∈ rest.head?, Lexeme.continuesName true c = false)
    (later : Consists rest pieces behind) :
    Consists (furtherText segments ++ rest)
      ((furtherTokens segments).map Lexed.piece ++ pieces) behind := by
  induction segments with
  | nil => exact later
  | cons segment segments ih =>
    have hsegment := segment.consists_name _ (head_further segments h) ih
    have hdot := Consists.token .dot Lexeme.splits_dot rfl hsegment
    rw [furtherText, List.flatMap_cons, ← furtherText, List.append_assoc]
    exact hdot

/-- A name is read in front of what does not continue it. -/
theorem consists_name (name : MarkupName)
    (h : ∀ c ∈ rest.head?, Lexeme.continuesName true c = false)
    (later : Consists rest pieces behind) :
    Consists (name.text ++ rest) (name.tokens.map Lexed.piece ++ pieces) behind := by
  rw [text, List.append_assoc]
  exact name.first.consists_name _ (head_further name.others h) (consists_further name.others h later)

/-- A name starts with a letter or an underscore. -/
theorem exists_cons (name : MarkupName) :
    ∃ c tail, name.text = c :: tail ∧ Lexeme.StartsOnlyName c := by
  obtain ⟨c, tail, htext, hstarts, -⟩ := name.first.exists_cons
  exact ⟨c, tail ++ furtherText name.others, by rw [text, htext, List.cons_append], hstarts⟩

/-- The `<` of a tag with this name. -/
theorem splits_start (name : MarkupName) (rest : Text) :
    Lexeme.Splits .normal .lessThan [CodePoint.ofChar '<'] (name.text ++ rest) := by
  rw [text, List.append_assoc]
  exact TagName.splits_start (.inl rfl)

/-! ### Closing tags -/

/-- White space for the three places of a closing tag that can have some:
in front of the slash, of the name and of the end. -/
structure Spacing where
  slash : Text
  name : Text
  close : Text
  slash_white : slash.White
  name_white : name.White
  close_white : close.White

/-- A closing tag with white space in it. -/
def looseClosing (name : MarkupName) (spacing : Spacing) : Text :=
  CodePoint.ofChar '<' :: (spacing.slash ++ CodePoint.ofChar '/' ::
    (spacing.name ++ (name.text ++ (spacing.close ++ [CodePoint.ofChar '>']))))

/-- No white space. -/
def Spacing.none : Spacing := ⟨[], [], [], nofun, nofun, nofun⟩

/-- The tokens of a closing tag. -/
def closingTokens (name : MarkupName) : List Lexed :=
  .lessThan .normal :: .slash :: (name.tokens ++ [.greaterThan])

/-- The closing tag as its pieces: each piece stands behind the one before it,
so the lexer can be followed from token to token. -/
theorem looseClosing_append (name : MarkupName) (spacing : Spacing) (rest : Text) :
    name.looseClosing spacing ++ rest = CodePoint.ofChar '<' :: (spacing.slash ++
      CodePoint.ofChar '/' :: (spacing.name ++ (name.text ++ (spacing.close ++
        CodePoint.ofChar '>' :: rest)))) := by
  simp [looseClosing]

/-- Behind the mark of a loose closing tag a slash is read. -/
theorem exists_scans_slash (hcontext : context = .normal ∨ context = .tag) (name : MarkupName)
    (spacing : Spacing) (rest : Text) :
    ∃ gap, Scans context (spacing.slash ++ CodePoint.ofChar '/' ::
      (spacing.name ++ (name.text ++ rest))) gap .slash [CodePoint.ofChar '/']
        (spacing.name ++ (name.text ++ rest)) := by
  obtain ⟨c, tail, htext, hstarts⟩ := name.exists_cons
  have hslash : ∀ d ∈ (spacing.name ++ (name.text ++ rest)).head?,
      d ≠ CodePoint.ofChar '/' ∧ d ≠ CodePoint.ofChar '*' := by
    refine Lexeme.forall_head_white spacing.name_white (fun d hd => ?_) ?_
    · rcases Lexeme.eq_of_isWhitespace hd with rfl | rfl | rfl | rfl <;> decide
    · rw [htext]
      rintro d ⟨⟩
      exact ⟨hstarts.ne (by decide), hstarts.ne (by decide)⟩
  have hsplits : Lexeme.Splits context .slash [CodePoint.ofChar '/']
      (spacing.name ++ (name.text ++ rest)) := by
    cases hbehind : spacing.name ++ (name.text ++ rest) with
    | nil => simp [htext] at hbehind
    | cons d more => exact Lexeme.splits_slash (hslash d (by rw [hbehind]; rfl)) hcontext
  exact (Scans.token hsplits rfl).exists_white hcontext spacing.slash_white (by rintro c ⟨⟩; decide)

/-- The mark of a loose closing tag starts no comment and no comparison. -/
theorem splits_looseClosing (name : MarkupName) (spacing : Spacing) (rest : Text) :
    Lexeme.Splits .normal .lessThan [CodePoint.ofChar '<']
      (spacing.slash ++ CodePoint.ofChar '/' :: (spacing.name ++ (name.text ++ rest))) := by
  have hmark : ∀ d ∈ (spacing.slash ++ CodePoint.ofChar '/' ::
      (spacing.name ++ (name.text ++ rest))).head?, d ≠ CodePoint.ofChar '!' ∧ d ≠ CodePoint.ofChar '=' := by
    refine Lexeme.forall_head_white spacing.slash_white (fun d hd => ?_) (by rintro d ⟨⟩; decide)
    rcases Lexeme.eq_of_isWhitespace hd with rfl | rfl | rfl | rfl <;> decide
  cases hbehind : spacing.slash ++ CodePoint.ofChar '/' :: (spacing.name ++ (name.text ++ rest)) with
  | nil => simp at hbehind
  | cons d more => exact Lexeme.splits_lessThan (hmark d (by rw [hbehind]; rfl)) (.inl rfl)

/-- A name with white space in front of it is read as its tokens. -/
theorem lexes_white {white : Text} (hwhite : white.White) (name : MarkupName)
    (h : ∀ c ∈ rest.head?, Lexeme.continuesName true c = false) :
    Lexes (white ++ (name.text ++ rest)) name.tokens rest := by
  obtain ⟨c, tail, htext, hstarts⟩ := name.exists_cons
  have hfirst : Scans .tag (name.text ++ rest) [] name.first.kind name.first.text
      (furtherText name.others ++ rest) := by
    rw [text, List.append_assoc]
    exact .token (name.first.splits_behind (head_further name.others h)) name.first.solid
  obtain ⟨gap, hscan⟩ := hfirst.exists_white (.inr rfl) hwhite (by
    rw [htext]
    rintro d ⟨⟩
    exact hstarts.white)
  have hfurther := (consists_further name.others h (.nil rest)).lexes
  rw [List.append_nil, Lexed.map_lexed_piece] at hfurther
  exact @Lexes.cons name.first.lexed _ _ _ _ _ hscan hfurther

/-- A loose closing tag is read as one. -/
theorem lexes_looseClosing (name : MarkupName) (spacing : Spacing) (rest : Text) :
    Lexes (name.looseClosing spacing ++ rest) name.closingTokens rest := by
  have hgreater : Lexes (spacing.close ++ CodePoint.ofChar '>' :: rest) [.greaterThan] rest := by
    obtain ⟨gap, hscan⟩ := (Scans.token (@Lexeme.splits_greaterThan rest) rfl).exists_white
      (.inr rfl) spacing.close_white (by rintro c ⟨⟩; decide)
    exact hscan.lexes
  have hname : Lexes (spacing.name ++ (name.text ++ (spacing.close ++ CodePoint.ofChar '>' :: rest)))
      (name.tokens ++ [.greaterThan]) rest := by
    refine (name.lexes_white spacing.name_white ?_).append hgreater
    exact Lexeme.forall_head_white spacing.close_white
      (fun d hd => Lexeme.continuesName_of_isWhitespace hd true) (by rintro d ⟨⟩; decide)
  obtain ⟨gap, hslash⟩ := name.exists_scans_slash (.inr rfl) spacing
    (spacing.close ++ CodePoint.ofChar '>' :: rest)
  rw [looseClosing_append]
  exact .cons (.token (name.splits_looseClosing spacing _) rfl) (.cons hslash hname)

end MarkupName

/-- A closing tag of a name without dots, and without white space. -/
theorem TagName.looseClosing_dotted (name : TagName) :
    name.dotted.looseClosing .none = name.closing := by
  simp [MarkupName.looseClosing, MarkupName.Spacing.none, TagName.closing]

end MarkupSyntax
