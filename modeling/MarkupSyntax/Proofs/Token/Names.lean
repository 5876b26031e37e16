import Mathlib.Data.List.Chain
import MarkupSyntax.Proofs.Token.Dotted
import MarkupSyntax.Proofs.Token.Spread

/-!
# `MarkupSyntax.Proofs.Token.Names`: names as they are read ahead

What starts a name starts nothing else, so a letter or an underscore and
any characters that continue a name are one (`TagName.ofText`).

A name in a tag is looked at before it is read, and the lookahead reads
as outside tags: a hyphen is a minus there, and what stands behind it is
a token of its own. That token is a name, too, if it starts like one
(`Text.Resumes`). Then the lookahead passes from one token to the next up
to the end of the name (`MarkupName.exists_consists_ahead`), and no two of
them stand apart (`Seam.ahead_of_consists`).
-/

set_option autoImplicit false

namespace MarkupSyntax

open Grammar

/-! ### What starts a name -/

namespace CodeSet

variable {set set' : CodeSet} {n : Nat}

/-- Ranges in front of a number do not hold it. -/
theorem holds_dropWhile {lo : Nat} (hlow : lo ≤ n) (h : set.holds n = true) :
    holds (set.dropWhile fun range => range.2 < lo) n = true := by
  induction set with
  | nil => cases h
  | cons range rest ih =>
    rw [List.dropWhile_cons]
    by_cases hfront : range.2 < lo
    · rw [if_pos (decide_eq_true hfront)]
      rw [holds] at h
      split at h
      · cases h
      · rw [if_neg (by omega)] at h
        exact ih h
    · rwa [if_neg (by simpa using hfront)]

/-- No range of one set meets one of the other. Both are in increasing
order, so one pass over the two tells. -/
def isApart : CodeSet → CodeSet → Bool
  | [], _ => true
  | (lo, hi) :: rest, set' =>
    let ahead := set'.dropWhile fun range => range.2 < lo
    (ahead.head?.all fun range => hi < range.1) && isApart rest ahead

/-- A number of one set is not in a set that is apart from it. -/
theorem holds_eq_false_of_isApart (hapart : set.isApart set' = true) (h : set.holds n = true) :
    set'.holds n = false := by
  by_contra h'
  rw [Bool.not_eq_false] at h'
  induction set generalizing set' with
  | nil => cases h
  | cons range rest ih =>
    obtain ⟨lo, hi⟩ := range
    rw [isApart, Bool.and_eq_true] at hapart
    rw [holds] at h
    split at h
    · cases h
    · rename_i hlow
      have hahead := holds_dropWhile (Nat.le_of_not_lt hlow) h'
      generalize set'.dropWhile _ = ahead at hapart hahead
      -- The first range ahead is behind the one at hand.
      have hhigh : ¬ n ≤ hi := by
        cases ahead with
        | nil => cases hahead
        | cons next others =>
          have hnext : hi < next.1 := by simpa using hapart.1
          rw [holds] at hahead
          split at hahead
          · cases hahead
          · omega
      rw [if_neg hhigh] at h
      exact ih hapart.2 h hahead

end CodeSet

/-- No letter is a digit. The two tables are apart. -/
theorem CodePoint.isDigit_of_isLetter {c : CodePoint} (h : c.isLetter = true) : c.isDigit = false :=
  CodeSet.holds_eq_false_of_isApart (show letterRanges.isApart digitRanges = true by decide +kernel) h

namespace Lexeme

variable {c : CodePoint} {tail rest : Text} {inTag : Bool}

/-- A letter or an underscore starts nothing but a name. -/
theorem startsOnlyName_of_startsName (h : startsName c = true) : StartsOnlyName c := by
  have hne : ∀ d : CodePoint, startsName d = false → c ≠ d := by
    rintro d hd rfl
    rw [h] at hd
    cases hd
  refine ⟨?_, hne '/' (by decide), hne '<' (by decide), hne '"' (by decide), ?_, h⟩
  · by_contra hwhite
    rw [Bool.not_eq_false] at hwhite
    rcases eq_of_isWhitespace hwhite with rfl | rfl | rfl | rfl <;> revert h <;> decide
  · rcases Bool.or_eq_true_iff.mp h with hletter | hunderscore
    · exact CodePoint.isDigit_of_isLetter hletter
    · rw [of_decide_eq_true hunderscore]
      decide

/-- What starts a name and goes on with it is one. -/
theorem names_of_continuesName (hc : startsName c = true)
    (htail : ∀ d ∈ tail, continuesName inTag d = true) :
    Names inTag (name inTag c tail).kind (c :: tail) where
  splits := by
    rw [splits_cons, List.append_nil, next_nameContext, (startsOnlyName_of_startsName hc).code]
    refine ⟨rfl, ?_, rfl⟩
    simp only [name, List.takeWhile_eq_self_iff.mpr htail]
  isName := kind_name

/-- What continues a name outside tags continues it inside of them too. Only the
hyphen is new there. -/
theorem continuesName_tag (h : continuesName false c = true) : continuesName true c = true := by
  simp only [continuesName, Bool.false_and, Bool.or_false] at h
  rw [continuesName, h, Bool.true_or]

/-- What continues a name in a tag only is a hyphen. -/
theorem eq_hyphen_of_continuesName (h : continuesName true c = true)
    (hcode : continuesName false c = false) : c = CodePoint.ofChar '-' := by
  simp only [continuesName, Bool.false_and, Bool.or_false] at h hcode
  simpa [hcode] using h

/-- A part of a name goes up to its first hyphen as one outside tags. -/
theorem exists_word (htail : ∀ d ∈ tail, continuesName true d = true) :
    ∃ word more, tail = word ++ more ∧ (∀ d ∈ word, continuesName false d = true) ∧
      ∀ d ∈ more.head?, d = CodePoint.ofChar '-' := by
  induction tail with
  | nil => exact ⟨[], [], rfl, List.forall_mem_nil _, by simp⟩
  | cons d tail ih =>
    obtain ⟨hd, htail⟩ := List.forall_mem_cons.mp htail
    by_cases hcode : continuesName false d = true
    · obtain ⟨word, more, rfl, hword, hmore⟩ := ih htail
      exact ⟨d :: word, more, rfl, List.forall_mem_cons.mpr ⟨hcode, hword⟩, hmore⟩
    · refine ⟨[], d :: tail, rfl, List.forall_mem_nil _, ?_⟩
      rintro _ ⟨⟩
      exact eq_hyphen_of_continuesName hd (Bool.eq_false_iff.mpr hcode)

/-- Outside tags a hyphen is one token, whatever stands behind it. -/
theorem splits_minus : Splits .normal .minus [CodePoint.ofChar '-'] rest := ⟨rfl, rfl, rfl⟩

end Lexeme

/-- The name that is written so. -/
def TagName.ofText (c : CodePoint) (tail : Text) (hc : Lexeme.startsName c = true)
    (htail : ∀ d ∈ tail, Lexeme.continuesName true d = true) : TagName where
  text := c :: tail
  kind := (Lexeme.name true c tail).kind
  splits := (Lexeme.names_of_continuesName hc htail).splits
  isName := Lexeme.kind_name

/-! ### Names outside tags -/

/-- Behind each hyphen of the text stands what can start a name, another
hyphen or nothing. -/
def Text.Resumes (t : Text) : Prop :=
  t.IsChain fun c d => c = CodePoint.ofChar '-' → d = CodePoint.ofChar '-' ∨ Lexeme.startsName d = true

/-- Whether a text resumes behind its hyphens is decided pair by pair. -/
instance (t : Text) : Decidable t.Resumes := inferInstanceAs (Decidable (List.IsChain _ t))

/-- A token of a name as it is read ahead. -/
structure Lexed.IsAhead (token : Lexed) : Prop where
  code : token.context = .normal
  continues : token.kind ∈ nameContinuation

/-- A token of a name is not the end of the source. -/
theorem Lexed.IsAhead.notEnd {token : Lexed} (h : token.IsAhead) : token.kind ≠ .eof := by
  intro heof
  have hcontinues := h.continues
  rw [heof] at hcontinues
  exact absurd hcontinues (by decide)

/-- The text is read ahead as these tokens, with nothing between them. -/
def Text.Ahead (text : Text) (tokens : List Lexed) (rest : Text) : Prop :=
  (∀ token ∈ tokens, token.IsAhead) ∧ Consists text (tokens.map Lexed.piece) rest

namespace Text.Ahead

variable {text middle rest : Text} {tokens tokens' : List Lexed}

/-- No tokens are read from a text that is all rest. -/
theorem nil (rest : Text) : Ahead rest [] rest := ⟨List.forall_mem_nil _, .nil rest⟩

/-- Tokens that are read one after the other are read as one list. -/
theorem append (h : Ahead text tokens middle) (h' : Ahead middle tokens' rest) :
    Ahead text (tokens ++ tokens') rest := by
  refine ⟨List.forall_mem_append.mpr ⟨h.1, h'.1⟩, ?_⟩
  rw [List.map_append]
  exact h.2.append h'.2

/-- One token in front: it must be read from the text in code, and be one that a
name may continue with. -/
theorem cons {token : Text} {kind : TokenKind} (splits : Lexeme.Splits .normal kind token middle)
    (hkind : kind ∈ nameContinuation) (h : Ahead middle tokens rest) :
    Ahead (token ++ middle) (⟨.normal, kind, token⟩ :: tokens) rest := by
  have hsolid : kind.isTrivia = false := by
    revert hkind
    cases kind <;> decide
  exact ⟨List.forall_mem_cons.mpr ⟨⟨rfl, hkind⟩, h.1⟩, .token ⟨.normal, kind, token⟩ splits hsolid h.2⟩

/-- One of the tokens stands behind those in front of it. -/
theorem of_append {token : Lexed} (h : Ahead text (tokens ++ token :: tokens') rest) :
    ∃ middle behind, Ahead text tokens middle ∧
      Scans .normal middle [] token.kind token.text behind := by
  obtain ⟨hfront, hback⟩ := List.forall_mem_append.mp h.1
  have hconsists := h.2
  rw [List.map_append] at hconsists
  obtain ⟨middle, hpassed, hlater⟩ := hconsists.of_append
  cases hlater with
  | cons first =>
    have hcode : token.context = .normal := (hback token List.mem_cons_self).code
    exact ⟨middle, _, ⟨hfront, hpassed⟩, hcode ▸ first⟩

end Text.Ahead

/-- A part of a name is read ahead in front of what does not continue it:
its hyphens, and the names between them. The induction is on its length,
one token at a time. -/
theorem Text.Resumes.exists_ahead {text rest : Text} (h : text.Resumes)
    (hstart : ∀ c ∈ text.head?, c = CodePoint.ofChar '-' ∨ Lexeme.startsName c = true)
    (hcontinues : ∀ c ∈ text, Lexeme.continuesName true c = true)
    (hrest : ∀ c ∈ rest.head?, Lexeme.continuesName true c = false) :
    ∃ tokens, Text.Ahead (text ++ rest) tokens rest := by
  -- Each round takes a single `-` or a whole word, so the induction is on the length.
  induction hlength : text.length using Nat.strong_induction_on generalizing text with
  | _ length ih =>
    cases text with
    | nil => exact ⟨[], .nil rest⟩
    | cons c tail =>
      obtain ⟨-, htail⟩ := List.forall_mem_cons.mp hcontinues
      obtain ⟨hnext, hresumes⟩ := List.isChain_cons.mp h
      rcases hstart c rfl with rfl | hname
      · obtain ⟨tokens, hahead⟩ := ih tail.length (hlength ▸ Nat.lt_succ_self _) hresumes
          (fun d hd => hnext d hd rfl) htail rfl
        have hminus := Text.Ahead.cons Lexeme.splits_minus (by decide) hahead
        exact ⟨_, hminus⟩
      · obtain ⟨word, more, rfl, hword, hmore⟩ := Lexeme.exists_word htail
        -- The word stops at a `-` or where the whole text does.
        have hbehind : ∀ d ∈ (more ++ rest).head?, Lexeme.continuesName false d = false := by
          cases more with
          | nil =>
            refine fun d hd => Bool.eq_false_iff.mpr fun hcode => ?_
            exact Bool.eq_false_iff.mp (hrest d hd) (Lexeme.continuesName_tag hcode)
          | cons d more =>
            rintro _ ⟨⟩
            rw [hmore d rfl]
            decide
        obtain ⟨tokens, hahead⟩ := ih more.length (by simp at hlength; omega)
          (List.IsChain.right_of_append hresumes) (fun d hd => .inl (hmore d hd))
          (List.forall_mem_append.mp htail).2 rfl
        have hnames := Lexeme.names_of_continuesName hname hword
        rw [List.cons_append, List.append_assoc]
        exact ⟨_, .cons (hnames.splits_behind hbehind) (List.mem_append_left _ hnames.isName) hahead⟩

namespace MarkupName

variable {name : MarkupName} {rest : Text}

/-- Behind the first segment, which is read in the tag, the hyphens of a
name do not stop the lookahead. -/
def Resumes (name : MarkupName) : Prop := ∀ segment ∈ name.others, segment.text.Resumes

/-- Whether a name can be read ahead is decided on its text. -/
instance (name : MarkupName) : Decidable name.Resumes :=
  inferInstanceAs (Decidable (∀ segment ∈ name.others, _))

/-- What stands behind the first segment of a name is read ahead. -/
theorem Resumes.exists_ahead (h : name.Resumes)
    (hrest : ∀ c ∈ rest.head?, Lexeme.continuesName true c = false) :
    ∃ tokens, Text.Ahead (furtherText name.others ++ rest) tokens rest := by
  have hsegments : ∀ segments : List TagName, (∀ segment ∈ segments, segment.text.Resumes) →
      ∃ tokens, Text.Ahead (furtherText segments ++ rest) tokens rest := by
    intro segments hresumes
    induction segments with
    | nil => exact ⟨[], .nil rest⟩
    | cons segment segments ih =>
      obtain ⟨hsegment, hothers⟩ := List.forall_mem_cons.mp hresumes
      obtain ⟨tokens, hlater⟩ := ih hothers
      obtain ⟨c, tail, htext, hstarts, -, -⟩ := segment.exists_cons
      obtain ⟨front, hfront⟩ := hsegment.exists_ahead
        (by rw [htext]; rintro _ ⟨⟩; exact .inr hstarts.name) segment.continuesName_of_mem
        (head_further segments hrest)
      rw [furtherText, List.flatMap_cons, ← furtherText, List.append_assoc]
      have hdot : Lexeme.Splits .normal .dot [CodePoint.ofChar '.']
          (segment.text ++ (furtherText segments ++ rest)) := ⟨rfl, rfl, rfl⟩
      have hahead := Text.Ahead.cons hdot (by decide) (hfront.append hlater)
      exact ⟨_, hahead⟩
  exact hsegments name.others h

end MarkupName

/-! ### Looking ahead -/

namespace Seam

variable {seam : Seam} {context : LexContext} {rest : Text} {tokens : List Lexed}

/-- Behind tokens of code with nothing between them, the next token is as
far ahead as there are such tokens. -/
theorem kindAhead_of_consists {middle first : Text} {kind : TokenKind}
    {gap : List (TriviaKind × Text)} (inside : seam.lexer.IsInside)
    (hkind : (seam.current context).kind ≠ .eof)
    (hcode : ∀ token ∈ tokens, token.context = .normal ∧ token.kind ≠ .eof)
    (h : Consists (seam.pass context).behind (tokens.map Lexed.piece) middle)
    (hscan : Scans .normal middle gap kind first rest) :
    seam.kindAhead context (tokens.length + 1) = kind := by
  induction tokens generalizing seam context with
  | nil =>
    generalize hbehind : (seam.pass context).behind = text at h
    cases h
    rw [← hbehind] at hscan
    rw [List.length_nil, kindAhead_one inside hkind]
    exact kind_current_of_scans (isInside_pass inside context) hscan
  | cons token tokens ih =>
    obtain ⟨⟨hcontext, hnotEnd⟩, hcode⟩ := List.forall_mem_cons.mp hcode
    have inside' := isInside_pass inside context
    generalize hbehind : (seam.pass context).behind = text at h
    cases h with
    | cons first later =>
      rw [show token.piece.lexed.context = .normal from hcontext, ← hbehind] at first
      rw [← behind_pass_of_scans inside' first] at later
      rw [List.length_cons, kindAhead_succ inside hkind (Nat.succ_pos _)]
      exact ih inside' (by rw [kind_current_of_scans inside' first]; exact hnotEnd) hcode later

/-- The tokens ahead are the next one, as code, and those ahead of it. -/
theorem exists_solid_pass (inside : seam.lexer.IsInside)
    (hkind : (seam.current context).kind ≠ .eof) :
    ∃ token, (seam.pass context).lexer.solid
        = token :: ((seam.pass context).pass .normal).lexer.solid ∧
      token.range = ((seam.pass context).current .normal).range :=
  ⟨_, Lexer.solidOf_stream (isInside_pass inside context).suffices hkind, rfl⟩

/-- Tokens of code with nothing between them are those ahead, and each
starts where the one in front of it stops. -/
theorem exists_solid_of_consists (inside : seam.lexer.IsInside)
    (hkind : (seam.current context).kind ≠ .eof)
    (hcode : ∀ token ∈ tokens, token.context = .normal ∧ token.kind ≠ .eof)
    (h : Consists (seam.pass context).behind (tokens.map Lexed.piece) rest) :
    ∃ front more, (seam.pass context).lexer.solid = front ++ more ∧
      front.length = tokens.length ∧
      ((seam.current context).range :: front.map (·.range)).IsChain fun range range' =>
        range.stop = range'.start := by
  induction tokens generalizing seam context with
  | nil => exact ⟨[], _, rfl, rfl, .singleton _⟩
  | cons token tokens ih =>
    obtain ⟨⟨hcontext, hnotEnd⟩, hcode⟩ := List.forall_mem_cons.mp hcode
    obtain ⟨next, hsolid, hrange⟩ := exists_solid_pass inside hkind
    have inside' := isInside_pass inside context
    generalize hbehind : (seam.pass context).behind = text at h
    cases h with
    | cons first later =>
      rw [show token.piece.lexed.context = .normal from hcontext, ← hbehind] at first
      rw [← behind_pass_of_scans inside' first] at later
      obtain ⟨front, more, hfront, hlength, hchain⟩ := ih inside'
        (by rw [kind_current_of_scans inside' first]; exact hnotEnd) hcode later
      refine ⟨next :: front, more, ?_, ?_, ?_⟩
      · rw [hsolid, hfront, List.cons_append]
      · rw [List.length_cons, List.length_cons, hlength]
      · rw [List.map_cons, List.isChain_cons_cons, hrange]
        exact ⟨(start_current_of_scans inside' first).symm, hchain⟩

/-- None of the tokens stands apart from the one in front of it. -/
theorem apartAhead_of_consists {n : Nat} (inside : seam.lexer.IsInside)
    (hkind : (seam.current context).kind ≠ .eof)
    (hcode : ∀ token ∈ tokens, token.context = .normal ∧ token.kind ≠ .eof)
    (h : Consists (seam.pass context).behind (tokens.map Lexed.piece) rest)
    (hn : n < tokens.length) : seam.apartAhead context (n + 1) = false := by
  obtain ⟨front, more, hsolid, hlength, hchain⟩ := exists_solid_of_consists inside hkind hcode h
  have hrange : ∀ n, ∀ h : n < ((seam.current context).range :: front.map (·.range)).length,
      seam.rangeAhead context n = ((seam.current context).range :: front.map (·.range))[n] := by
    intro n h
    cases n with
    | zero => rfl
    | succ n =>
      have hfront : n < front.length := by simpa using h
      show ((seam.pass context).lexer.solid[n]?.map (·.range)).getD _ = _
      rw [hsolid, List.getElem?_append_left hfront, List.getElem?_eq_getElem hfront]
      simp
  have hstops := hchain.getElem n (by simpa [hlength] using hn)
  rw [← hrange, ← hrange] at hstops
  show decide ((seam.rangeAhead context n).stop < _) = false
  rw [hstops]
  exact decide_eq_false (Nat.lt_irrefl _)

end Seam

end MarkupSyntax
