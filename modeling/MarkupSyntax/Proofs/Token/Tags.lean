import MarkupSyntax.Grammar.Element
import MarkupSyntax.Proofs.Token.Numerals
import MarkupSyntax.Proofs.Token.Spelling

/-!
# `MarkupSyntax.Proofs.Token.Tags`: the tokens of tags

A `TagName` is a name without dots as it stands in a tag. Whatever kind of
name it is, a word with hyphens and a keyword included, only its first
character decides that it is one (`Lexeme.startsOnlyName_of_kind`), so a
name is read in front of everything that does not continue it
(`TagName.splits_behind`).

The parts of a tag follow each other without trivia, in the contexts in
which the grammar reads them: `<` as it comes, the rest as in a tag.
-/

set_option autoImplicit false

namespace MarkupSyntax

open Grammar

namespace Lexeme

variable {c d : CodePoint} {rest : Text} {inTag : Bool} {context : LexContext}

/-! ### Names -/

/-- The character starts a name, and no lexeme of another kind. -/
structure StartsOnlyName (c : CodePoint) : Prop where
  white : c.isWhitespace = false
  slash : c ≠ '/'
  angle : c ≠ '<'
  quote : c ≠ '"'
  digit : c.isDigit = false
  name : startsName c = true

/-- At a character that starts only names, code is read as a name. -/
theorem StartsOnlyName.code (h : StartsOnlyName c) : code inTag c rest = Lexeme.name inTag c rest := by
  unfold Lexeme.code
  simp [h.white, h.slash, h.angle, h.quote, h.digit, h.name]

/-- It may also stand inside one. -/
theorem StartsOnlyName.continues (h : StartsOnlyName c) : continuesName inTag c = true := by
  have hname := h.name
  simp only [startsName, continuesName, CodePoint.isAlphanumeric, Bool.or_eq_true] at hname ⊢
  tauto

/-- Such a character is none of those that start no name. -/
theorem StartsOnlyName.ne (h : StartsOnlyName c) (hd : startsName d = false) : c ≠ d := by
  rintro rfl
  rw [h.name] at hd
  cases hd

/-- A name is a keyword or a word with or without hyphens. -/
theorem kind_name : (name inTag c rest).kind ∈ markupNameTokens := by
  simp only [name]
  split
  · decide
  · cases hword : TokenKind.ofKeyword? (c :: rest.takeWhile (continuesName inTag)) with
    | none => decide
    | some kind =>
      have hall : ∀ kind ∈ TokenKind.reserved, kind ∈ markupNameTokens := by decide
      exact hall kind (List.mem_of_find?_eq_some hword)

/-- A mark is no literal and no name. -/
theorem kind_mark : (mark inTag c rest).kind ∉ literalTokens ++ markupNameTokens := by
  unfold mark
  split
  · rename_i kind hkind
    split at hkind
    · cases hkind
    · obtain ⟨entry, hentry, rfl⟩ := Option.map_eq_some_iff.mp hkind
      have hall : ∀ entry ∈ pairs, entry.2.2 ∉ literalTokens ++ markupNameTokens := by decide
      exact hall entry (List.mem_of_find?_eq_some hentry)
  · split
    · rename_i kind hkind
      obtain ⟨entry, hentry, rfl⟩ := Option.map_eq_some_iff.mp hkind
      have hall : ∀ entry ∈ singles, entry.2 ∉ literalTokens ++ markupNameTokens := by decide
      exact hall entry (List.mem_of_find?_eq_some hentry)
    · show TokenKind.skipped ∉ literalTokens ++ markupNameTokens
      decide

/-- What separates tokens outside tags, and a slash, reads the same in a
tag: only names and joined marks differ there. -/
theorem code_tag_eq
    (h : (code false c rest).kind.isTrivia = true ∨ (code false c rest).kind = .slash) :
    code true c rest = code false c rest := by
  have hmark : (mark false c rest).kind.isTrivia = true ∨ (mark false c rest).kind = .slash →
      mark true c rest = mark false c rest := by
    unfold mark
    cases hpair : pair? c rest with
    | none => intro; simp
    | some kind =>
      intro h
      obtain ⟨entry, hentry, rfl⟩ := Option.map_eq_some_iff.mp hpair
      have hall : ∀ entry ∈ pairs, ¬(entry.2.2.isTrivia = true ∨ entry.2.2 = .slash) := by decide
      exact absurd h (hall entry (List.mem_of_find?_eq_some hentry))
  have hname : ¬((name false c rest).kind.isTrivia = true ∨ (name false c rest).kind = .slash) := by
    have hall : ∀ kind ∈ markupNameTokens, ¬(kind.isTrivia = true ∨ kind = .slash) := by decide
    exact hall _ kind_name
  revert h
  unfold code
  split_ifs
  all_goals first | exact fun _ => rfl | exact fun h => absurd h hname | exact hmark

/-- A lexeme is trivia in a tag exactly if it is outside of tags. -/
theorem isTrivia_code_tag :
    (code true c rest).kind.isTrivia = (code false c rest).kind.isTrivia := by
  have hname : ∀ inTag, (name inTag c rest).kind.isTrivia = false := fun inTag => by
    have hall : ∀ kind ∈ markupNameTokens, kind.isTrivia = false := by decide
    exact hall _ kind_name
  have hmark : (mark true c rest).kind.isTrivia = (mark false c rest).kind.isTrivia := by
    have hpair : ∀ kind ∈ pair? c rest, kind.isTrivia = false := by
      intro kind hmem
      obtain ⟨entry, hentry, rfl⟩ := Option.map_eq_some_iff.mp hmem
      have hall : ∀ entry ∈ pairs, entry.2.2.isTrivia = false := by decide
      exact hall entry (List.mem_of_find?_eq_some hentry)
    have hsingle : standsAlone c = true → ∃ kind ∈ single? c, kind.isTrivia = false := by
      simp only [standsAlone, Bool.or_eq_true, decide_eq_true_eq]
      rintro ((rfl | rfl) | rfl)
      · exact ⟨.lessThan, rfl, rfl⟩
      · exact ⟨.greaterThan, rfl, rfl⟩
      · exact ⟨.equal, rfl, rfl⟩
    unfold mark
    cases halone : standsAlone c with
    | false => rfl
    | true =>
      obtain ⟨kind, hkind, hsolid⟩ := hsingle halone
      rw [hkind]
      cases h : pair? c rest with
      | none => rfl
      | some joined => exact hsolid.trans (hpair joined h).symm
  unfold code
  split_ifs
  all_goals first | rfl | exact (hname true).trans (hname false).symm | exact hmark

/-- Where a name is read, its first character says so: no other rule
gives a lexeme of that kind. -/
theorem startsOnlyName_of_kind (h : (code inTag c rest).kind ∈ markupNameTokens) :
    StartsOnlyName c := by
  have hcomment : ∀ {opener : Nat} {terminator : String} {body : Text},
      (blockComment opener terminator body).kind ∉ markupNameTokens := by
    intro opener terminator body
    unfold blockComment
    split <;> exact (show TokenKind.comment ∉ markupNameTokens by decide)
  have hnumber : (number c rest).kind ∉ markupNameTokens := by
    simp only [number]
    split
    · exact (show TokenKind.hex ∉ markupNameTokens by decide)
    · split
      · exact (show TokenKind.int ∉ markupNameTokens by decide)
      · exact (show TokenKind.real ∉ markupNameTokens by decide)
  -- What is left when white space, strings, numbers and names are excluded is comments and marks,
  -- and these are no names.
  have hstarts : ∀ {c : CodePoint}, startsName c = false → c.isWhitespace = false →
      c ≠ '"' → c.isDigit = false → (code inTag c rest).kind ∉ markupNameTokens := by
    intro c hname hwhite hquote hdigit
    unfold code
    simp only [hwhite, hquote, hdigit, hname, Bool.false_eq_true, if_false]
    split
    · exact (show TokenKind.comment ∉ markupNameTokens by decide)
    split
    · exact hcomment
    split
    · exact hcomment
    · exact fun h => kind_mark (List.mem_append_right _ h)
  have hwhite : c.isWhitespace = false := by
    by_contra hwhite
    rw [Bool.not_eq_false] at hwhite
    rw [code, if_pos hwhite, separator] at h
    split at h
    · exact (show TokenKind.newline ∉ markupNameTokens by decide) h
    · exact (show TokenKind.whitespace ∉ markupNameTokens by decide) h
  have hquote : c ≠ '"' := by
    rintro rfl
    exact (show TokenKind.string ∉ markupNameTokens by decide) h
  have hdigit : c.isDigit = false := by
    by_contra hdigit
    rw [Bool.not_eq_false] at hdigit
    have hne : ∀ d : CodePoint, d.isDigit = false → c ≠ d := fun d => CodePoint.ne_of_isDigit hdigit
    rw [code, if_neg (Bool.eq_false_iff.mp hwhite), if_neg (by simp [hne '/' (by decide)]),
      if_neg (by simp [hne '/' (by decide)]), if_neg (by simp [hne '<' (by decide)]),
      if_neg (hne '"' (by decide)), if_pos hdigit] at h
    exact hnumber h
  have hname : startsName c = true := by
    by_contra hname
    rw [Bool.not_eq_true] at hname
    exact hstarts hname hwhite hquote hdigit h
  -- A slash and an angle bracket start comments, but no name starts with them.
  refine ⟨hwhite, ?_, ?_, hquote, hdigit, hname⟩ <;>
    · rintro rfl
      revert hname
      decide

/-- Where names are read with hyphens, or without. -/
def nameContext (inTag : Bool) : LexContext := if inTag then .tag else .normal

/-- Where names are read, lexemes are those of code. -/
theorem next_nameContext : next (nameContext inTag) c rest = code inTag c rest := by
  cases inTag <;> rfl

/-- The text is a name by itself. -/
structure Names (inTag : Bool) (kind : TokenKind) (text : Text) : Prop where
  splits : Splits (nameContext inTag) kind text []
  isName : kind ∈ markupNameTokens

namespace Names

variable {kind : TokenKind} {text : Text}

/-- A name starts with a letter or an underscore. -/
theorem exists_cons (h : Names inTag kind text) :
    ∃ c tail, text = c :: tail ∧ StartsOnlyName c ∧ (name inTag c tail).kind = kind ∧
      (name inTag c tail).length = tail.length + 1 := by
  obtain ⟨splits, isName⟩ := h
  cases text with
  | nil => exact splits.elim
  | cons c tail =>
    obtain ⟨hkind, hlength, -⟩ := splits_cons.mp splits
    rw [List.append_nil, next_nameContext] at hkind hlength
    have hstarts : StartsOnlyName c := startsOnlyName_of_kind (hkind ▸ isName)
    rw [hstarts.code] at hkind hlength
    exact ⟨c, tail, rfl, hstarts, hkind, hlength⟩

/-- All of a name continues it. -/
theorem continuesName_of_mem (h : Names inTag kind text) :
    ∀ c ∈ text, continuesName inTag c = true := by
  obtain ⟨c, tail, rfl, hstarts, -, hlength⟩ := h.exists_cons
  have hle : tail.length ≤ (tail.takeWhile (continuesName inTag)).length := by
    have hsame : (tail.takeWhile (continuesName inTag)).length + 1 = tail.length + 1 := hlength
    omega
  have htail : tail.takeWhile (continuesName inTag) = tail :=
    (List.takeWhile_prefix _).eq_of_length_le hle
  exact List.forall_mem_cons.mpr ⟨hstarts.continues, List.takeWhile_eq_self_iff.mp htail⟩

/-- A name is read in front of everything that does not continue it. -/
theorem splits_behind (h : Names inTag kind text)
    (hrest : ∀ c ∈ rest.head?, continuesName inTag c = false) :
    Splits (nameContext inTag) kind text rest := by
  have hall := h.continuesName_of_mem
  obtain ⟨c, tail, rfl, hstarts, hkind, -⟩ := h.exists_cons
  have htail := (List.forall_mem_cons.mp hall).2
  have hsame : (tail ++ rest).takeWhile (continuesName inTag) = tail := by
    rw [List.takeWhile_append_of_pos htail]
    cases rest with
    | nil => exact List.append_nil _
    | cons d rest => rw [List.takeWhile_cons, hrest d rfl, if_neg Bool.false_ne_true, List.append_nil]
  rw [splits_cons, next_nameContext, hstarts.code]
  refine ⟨?_, ?_, rfl⟩
  · rw [← hkind]
    simp only [name, hsame, List.takeWhile_eq_self_iff.mpr htail]
  · simp only [name, hsame]

end Names

/-- An identifier may name an element. -/
theorem identifier_isName : TokenKind.identifier ∈ markupNameTokens := by decide

/-- An identifier outside a tag is a name. -/
theorem names_word (name : Word .identifier) : Names false .identifier name.text :=
  ⟨name.spells.splits, identifier_isName⟩

/-- The first lexeme of a text is its first token, if it is no trivia. -/
theorem exists_scans_next (solid : (next context c rest).kind.isTrivia = false)
    (sound : (next context c rest).problem = none) :
    ∃ first behind, Scans context (c :: rest) [] (next context c rest).kind first behind := by
  have hscan := Scans.token (splits_next sound) solid
  rw [List.take_append_drop] at hscan
  exact ⟨_, _, hscan⟩

/-! ### Marks -/

/-- In a tag a `>` is one token, whatever stands behind it. -/
theorem splits_greaterThan : Splits .tag .greaterThan [CodePoint.ofChar '>'] rest :=
  ⟨rfl, rfl, rfl⟩

/-- Outside a tag it may be part of a comparison. -/
theorem exists_scans_greaterThan (rest : Text) :
    ∃ kind ∈ [TokenKind.greaterThan, .greaterThanOrEqual], ∃ first behind,
      Scans .normal (CodePoint.ofChar '>' :: rest) [] kind first behind := by
  have hcode : next .normal '>' rest = mark false '>' rest := rfl
  have hkind : (mark false '>' rest).kind ∈ [TokenKind.greaterThan, .greaterThanOrEqual] ∧
      (mark false '>' rest).problem = none := by
    have hpair : pair? '>' rest = if rest.head? = some (CodePoint.ofChar '=')
        then some .greaterThanOrEqual else none := by
      by_cases h : rest.head? = some (CodePoint.ofChar '=')
      · rw [if_pos h, pair?, h]
        rfl
      · rw [if_neg h]
        simp [pair?, pairs, h]
        simp [CodePoint.ofChar]
    unfold mark
    rw [if_neg (by decide), hpair]
    by_cases h : rest.head? = some (CodePoint.ofChar '=')
    · rw [if_pos h]
      exact ⟨by decide, rfl⟩
    · rw [if_neg h]
      exact ⟨by decide, rfl⟩
  rw [← hcode] at hkind
  have hsolid : (next .normal '>' rest).kind.isTrivia = false := by
    revert hkind
    generalize (next .normal '>' rest).kind = kind
    rintro ⟨hkind, -⟩
    revert hkind
    cases kind <;> decide
  exact ⟨_, hkind.1, exists_scans_next hsolid hkind.2⟩
/-- In a tag a colon is one token, whatever stands behind it. -/
theorem splits_colon : Splits .tag .colon [CodePoint.ofChar ':'] rest := ⟨rfl, rfl, rfl⟩

/-- In code and in text an opening brace is one token. -/
theorem splits_lBrace (hcontext : context = .normal ∨ context = .text) :
    Splits context .lBrace [CodePoint.ofChar '\x7b'] rest := by
  rcases hcontext with rfl | rfl <;> exact ⟨rfl, rfl, rfl⟩

/-- In code a closing brace is one token. -/
theorem splits_rBrace : Splits .normal .rBrace [CodePoint.ofChar '\x7d'] rest := ⟨rfl, rfl, rfl⟩

/-- A slash that starts no comment. -/
theorem splits_slash (hd : d ≠ '/' ∧ d ≠ '*') (hcontext : context = .normal ∨ context = .tag) :
    Splits context .slash [CodePoint.ofChar '/'] (d :: rest) := by
  have hline : startsWith "/" (d :: rest) = false := by
    simp [startsWith, Text.ofString, List.isPrefixOf, Ne.symm hd.1]
  have hblock : startsWith "*" (d :: rest) = false := by
    simp [startsWith, Text.ofString, List.isPrefixOf, Ne.symm hd.2]
  have hcode : ∀ inTag, code inTag '/' (d :: rest) = { kind := .slash, length := 1 } := by
    intro inTag
    unfold code
    rw [hline, hblock]
    cases inTag <;> rfl
  rw [splits_cons]
  rcases hcontext with rfl | rfl
  · show (code false _ _).kind = _ ∧ (code false _ _).length = _ ∧ (code false _ _).problem = _
    rw [List.nil_append, hcode]
    exact ⟨rfl, rfl, rfl⟩
  · show (code true _ _).kind = _ ∧ (code true _ _).length = _ ∧ (code true _ _).problem = _
    rw [List.nil_append, hcode]
    exact ⟨rfl, rfl, rfl⟩

/-- A `<` that starts no comment and is no comparison. -/
theorem splits_lessThan (hd : d ≠ '!' ∧ d ≠ '=') (hcontext : context = .normal ∨ context = .text) :
    Splits context .lessThan [CodePoint.ofChar '<'] (d :: rest) := by
  have hcomment : startsWith "!--" (d :: rest) = false := by
    simp [startsWith, Text.ofString, List.isPrefixOf, Ne.symm hd.1]
  have hpair : pair? '<' (d :: rest) = none := by
    have hequal : d ≠ ⟨61, by decide⟩ := hd.2
    simp [pair?, pairs, hequal, CodePoint.ofChar]
  rw [splits_cons]
  rcases hcontext with rfl | rfl
  · have hcode : next .normal '<' ([] ++ d :: rest) = { kind := .lessThan, length := 1 } := by
      show code false '<' (d :: rest) = _
      unfold code mark
      rw [hcomment, hpair]
      rfl
    rw [hcode]
    exact ⟨rfl, rfl, rfl⟩
  · have htext : next .text '<' ([] ++ d :: rest) = { kind := .lessThan, length := 1 } := by
      show text false '<' (d :: rest) = _
      have hmarkup : textMarkup? false '<' (d :: rest) = some { kind := .lessThan, length := 1 } := by
        unfold textMarkup?
        rw [hcomment]
        rfl
      unfold text
      rw [hmarkup]
      rfl
    rw [htext]
    exact ⟨rfl, rfl, rfl⟩

/-- A `=` that is part of no longer mark. -/
theorem splits_equal (hd : d ≠ '=' ∧ d ≠ '>') :
    Splits .normal .equal [CodePoint.ofChar '='] (d :: rest) := by
  have hpair : pair? '=' (d :: rest) = none := by
    have hequal : d ≠ ⟨61, by decide⟩ := hd.1
    have hgreater : d ≠ ⟨62, by decide⟩ := hd.2
    simp [pair?, pairs, hequal, hgreater, CodePoint.ofChar]
  have hcode : next .normal '=' ([] ++ d :: rest) = { kind := .equal, length := 1 } := by
    show mark false '=' (d :: rest) = _
    unfold mark
    rw [hpair]
    rfl
  rw [splits_cons, hcode]
  exact ⟨rfl, rfl, rfl⟩

/-- The `<` of a closing tag ends typed text, too. -/
theorem splits_lessThan_slash :
    Splits .typedText .lessThan [CodePoint.ofChar '<'] (CodePoint.ofChar '/' :: rest) :=
  ⟨rfl, rfl, rfl⟩

end Lexeme

/-! ### A slash ahead of a tag -/

namespace Lexer

variable {L : Lexer}

/-- A step over trivia or to a slash is the same in a tag. -/
theorem next_tag_eq (h : (L.next .normal).current.kind.isTrivia = true ∨
    (L.next .normal).current.kind = .slash) : L.next .tag = L.next .normal := by
  revert h
  unfold next
  split
  · exact fun _ => rfl
  · intro h
    rw [show Lexeme.next .tag _ _ = Lexeme.next .normal _ _ from Lexeme.code_tag_eq h]

/-- If the next token of code is a slash, it is the same one in a tag, behind
the same trivia. Only names differ between the two. -/
theorem landed_tag_eq {fuel : Nat} (h : (L.landed .normal fuel).current.kind = .slash) :
    L.landed .tag fuel = L.landed .normal fuel := by
  induction fuel generalizing L with
  | zero => rfl
  | succ fuel ih =>
    unfold landed at h ⊢
    by_cases htrivia : (L.next .normal).current.kind.isTrivia = true
    · rw [if_pos htrivia] at h
      rw [next_tag_eq (.inl htrivia), if_pos htrivia, if_pos htrivia, ih h]
    · rw [if_neg htrivia] at h
      rw [next_tag_eq (.inr h), if_neg htrivia, if_neg htrivia]

end Lexer

/-- Where a slash is next outside of tags, it is next in a tag. -/
theorem Seam.kind_current_tag_of_slash {seam : Seam} (h : (seam.current .normal).kind = .slash) :
    (seam.current .tag).kind = .slash := by
  have heq : seam.lexer.target .tag = seam.lexer.target .normal := Lexer.landed_tag_eq h
  show (seam.lexer.target .tag).current.kind = .slash
  rw [heq]
  exact h

/-! ### The trivia in front of a token of a tag -/

namespace Lexer

variable {L : Lexer}

/-- Whether the next token is trivia is the same in code and in a tag. -/
theorem isTrivia_next_tag :
    (L.next .tag).current.kind.isTrivia = (L.next .normal).current.kind.isTrivia := by
  unfold next
  split
  · rfl
  · exact Lexeme.isTrivia_code_tag

/-- In a tag and outside of tags the next token starts at one place. -/
theorem start_landed_tag {fuel : Nat} :
    (L.landed .tag fuel).current.range.start = (L.landed .normal fuel).current.range.start := by
  induction fuel generalizing L with
  | zero => rfl
  | succ fuel ih =>
    unfold landed
    by_cases htrivia : (L.next .normal).current.kind.isTrivia = true
    · rw [isTrivia_next_tag, if_pos htrivia, if_pos htrivia, next_tag_eq (.inl htrivia), ih]
    · rw [isTrivia_next_tag, if_neg htrivia, if_neg htrivia, start_next, start_next]

end Lexer

/-- The next token starts at the same place in code and in a tag. -/
theorem Seam.start_current_tag {seam : Seam} :
    (seam.current .tag).range.start = (seam.current .normal).range.start := Lexer.start_landed_tag

/-! ### Tokens of tags -/

namespace Lexed

/-- The token that starts a tag. -/
def lessThan (context : LexContext) : Lexed := ⟨context, .lessThan, [CodePoint.ofChar '<']⟩

/-- The token that starts an interpolation. -/
def lBrace (context : LexContext) : Lexed := ⟨context, .lBrace, [CodePoint.ofChar '\x7b']⟩

/-- The token that ends an interpolation. -/
def rBrace : Lexed := ⟨.normal, .rBrace, [CodePoint.ofChar '\x7d']⟩

/-- The token that ends a tag. -/
def greaterThan : Lexed := ⟨.tag, .greaterThan, [CodePoint.ofChar '>']⟩

/-- The slash of a closing tag. -/
def slash : Lexed := ⟨.tag, .slash, [CodePoint.ofChar '/']⟩

/-- The colon behind the name of an embedded element. -/
def colon : Lexed := ⟨.tag, .colon, [CodePoint.ofChar ':']⟩

/-- The token with no trivia in front of it. -/
def piece (token : Lexed) : Piece := ⟨[], token⟩

/-- The tokens of pieces made from tokens are these tokens. -/
@[simp] theorem map_lexed_piece (tokens : List Lexed) :
    (tokens.map piece).map (·.lexed) = tokens := by
  rw [List.map_map]
  exact List.map_id _

end Lexed

/-- A token in front of pieces, with no trivia in front of it. -/
theorem Consists.token (token : Lexed) {tail rest : Text} {pieces : List Piece}
    (splits : Lexeme.Splits token.context token.kind token.text tail)
    (solid : token.kind.isTrivia = false) (later : Consists tail pieces rest) :
    Consists (token.text ++ tail) (token.piece :: pieces) rest :=
  .cons (.token splits solid) later

/-! ### Names -/

/-- What may name an element is no trivia. -/
theorem isTrivia_of_mem_markupNameTokens {kind : TokenKind} (h : kind ∈ markupNameTokens) :
    kind.isTrivia = false := by
  revert h
  cases kind <;> decide

/-- A name without dots as it stands in a tag. -/
structure TagName where
  text : Text
  kind : TokenKind
  splits : Lexeme.Splits .tag kind text []
  isName : kind ∈ markupNameTokens

namespace TagName

variable {name : TagName} {context : LexContext} {rest : Text}

/-- The name as it is read. -/
def lexed (name : TagName) : Lexed := ⟨.tag, name.kind, name.text⟩

/-- A name in a tag is no trivia. -/
theorem solid (name : TagName) : name.kind.isTrivia = false :=
  isTrivia_of_mem_markupNameTokens name.isName

/-- A name in a tag is not the end of the source. -/
theorem kind_ne_eof (name : TagName) : name.kind ≠ .eof := by
  intro heof
  have hname := name.isName
  rw [heof] at hname
  exact absurd hname (by decide)

/-- The name, as a text. -/
theorem names (name : TagName) : Lexeme.Names true name.kind name.text := ⟨name.splits, name.isName⟩

/-- It starts with a letter or an underscore. -/
theorem exists_cons (name : TagName) :
    ∃ c tail, name.text = c :: tail ∧ Lexeme.StartsOnlyName c ∧
      (Lexeme.name true c tail).kind = name.kind ∧
      (Lexeme.name true c tail).length = tail.length + 1 := name.names.exists_cons

/-- All of a name continues it. -/
theorem continuesName_of_mem (name : TagName) :
    ∀ c ∈ name.text, Lexeme.continuesName true c = true := name.names.continuesName_of_mem

/-- A name is read in front of everything that does not continue it. -/
theorem splits_behind (h : ∀ c ∈ rest.head?, Lexeme.continuesName true c = false) :
    Lexeme.Splits .tag name.kind name.text rest := name.names.splits_behind h

/-- The name in front of something that does not continue it. -/
theorem consists_name (name : TagName) (rest : Text) {pieces : List Piece} {behind : Text}
    (h : ∀ c ∈ rest.head?, Lexeme.continuesName true c = false)
    (later : Consists rest pieces behind) :
    Consists (name.text ++ rest) (name.lexed.piece :: pieces) behind :=
  .token name.lexed (name.splits_behind h) name.solid later

/-- Outside a tag something of the name is read, and no mark. -/
theorem exists_scans_name (name : TagName) (rest : Text) :
    ∃ kind ∈ markupNameTokens, ∃ first behind,
      Scans .normal (name.text ++ rest) [] kind first behind := by
  obtain ⟨c, tail, htext, hstarts, -, -⟩ := name.exists_cons
  have hnext : Lexeme.next .normal c (tail ++ rest) = Lexeme.name false c (tail ++ rest) :=
    hstarts.code
  have hmem : (Lexeme.next .normal c (tail ++ rest)).kind ∈ markupNameTokens := by
    rw [hnext]
    exact Lexeme.kind_name
  have hsolid : (Lexeme.next .normal c (tail ++ rest)).kind.isTrivia = false :=
    isTrivia_of_mem_markupNameTokens hmem
  obtain ⟨first, behind, hscan⟩ := Lexeme.exists_scans_next hsolid (by rw [hnext]; rfl)
  rw [htext]
  exact ⟨_, hmem, first, behind, hscan⟩

/-! ### Tags -/

/-- The mark that starts a tag. -/
theorem splits_start (hcontext : context = .normal ∨ context = .text) :
    Lexeme.Splits context .lessThan [CodePoint.ofChar '<'] (name.text ++ rest) := by
  obtain ⟨c, tail, htext, hstarts, -, -⟩ := name.exists_cons
  rw [htext, List.cons_append]
  exact Lexeme.splits_lessThan
    ⟨hstarts.ne (d := '!') (by decide), hstarts.ne (d := '=') (by decide)⟩ hcontext

/-- The slash of a closing tag. -/
theorem splits_slash (hcontext : context = .normal ∨ context = .tag) :
    Lexeme.Splits context .slash [CodePoint.ofChar '/'] (name.text ++ rest) := by
  obtain ⟨c, tail, htext, hstarts, -, -⟩ := name.exists_cons
  rw [htext, List.cons_append]
  exact Lexeme.splits_slash
    ⟨hstarts.ne (d := '/') (by decide), hstarts.ne (d := '*') (by decide)⟩ hcontext

/-- The start of a tag. -/
theorem consists_start (name : TagName) (rest : Text) {pieces : List Piece} {behind : Text}
    (h : ∀ c ∈ rest.head?, Lexeme.continuesName true c = false)
    (hcontext : context = .normal ∨ context = .text) (later : Consists rest pieces behind) :
    Consists (CodePoint.ofChar '<' :: (name.text ++ rest))
      ((Lexed.lessThan context).piece :: name.lexed.piece :: pieces) behind :=
  .token (.lessThan context) (splits_start hcontext) rfl
    (consists_name name rest h later)

/-- A `>` in a tag, as one piece. -/
theorem consists_greaterThan (rest : Text) :
    Consists (CodePoint.ofChar '>' :: rest) [Lexed.greaterThan.piece] rest :=
  .token .greaterThan Lexeme.splits_greaterThan rfl (.nil rest)

/-- The tag that opens an element. -/
def opening (name : TagName) : Text :=
  CodePoint.ofChar '<' :: (name.text ++ [CodePoint.ofChar '>'])

/-- The tokens of the tag. -/
def openingTokens (name : TagName) (context : LexContext) : List Lexed :=
  [.lessThan context, name.lexed, .greaterThan]

/-- The opening tag as its pieces, each in front of what is behind it. -/
theorem opening_append (name : TagName) (rest : Text) :
    name.opening ++ rest = CodePoint.ofChar '<' :: (name.text ++ CodePoint.ofChar '>' :: rest) := by
  simp [opening]

/-- The opening tag is read as its tokens. Its `<` is read in the context around
it, code or text, and all that follows in the tag. -/
theorem consists_opening (name : TagName) (rest : Text)
    (hcontext : context = .normal ∨ context = .text) :
    Consists (name.opening ++ rest) ((name.openingTokens context).map Lexed.piece) rest := by
  rw [opening_append]
  exact consists_start name _ (by rintro c ⟨⟩; decide) hcontext (consists_greaterThan rest)

/-- The tag that closes an element. -/
def closing (name : TagName) : Text :=
  CodePoint.ofChar '<' :: CodePoint.ofChar '/' :: (name.text ++ [CodePoint.ofChar '>'])

/-- The tokens of the tag. -/
def closingTokens (name : TagName) : List Lexed :=
  [.lessThan .normal, .slash, name.lexed, .greaterThan]

/-- The closing tag as its pieces, each in front of what is behind it. -/
theorem closing_append (name : TagName) (rest : Text) :
    name.closing ++ rest = CodePoint.ofChar '<' :: CodePoint.ofChar '/' ::
      (name.text ++ CodePoint.ofChar '>' :: rest) := by
  simp [closing]

/-- The closing tag is read as its tokens. -/
theorem consists_closing (name : TagName) (rest : Text) :
    Consists (name.closing ++ rest) (name.closingTokens.map Lexed.piece) rest := by
  have hname := consists_name name (CodePoint.ofChar '>' :: rest) (by rintro c ⟨⟩; decide)
    (consists_greaterThan rest)
  have hslash := Consists.token .slash (splits_slash (.inr rfl)) rfl hname
  rw [closing_append]
  exact .token (.lessThan .normal)
    (Lexeme.splits_lessThan ⟨by decide, by decide⟩ (.inl rfl)) rfl hslash

end TagName

/-! ### Embedded elements -/

/-- The name of a type of text. -/
structure TextType extends TagName where
  isIdentifier : kind = .identifier
  notRaw : text ≠ rawModifier

/-- The tokens of the type of an embedded element, if it has one. -/
def TextType.tokens (type : Option TextType) : List Lexed := type.toList.map (·.lexed)

namespace TagName

variable {name : TagName} {context : LexContext} {rest : Text}

/-- The tag that opens an embedded element. -/
def embedOpening (name : TagName) (type : Option TextType) : Text :=
  CodePoint.ofChar '<' :: (name.text ++ CodePoint.ofChar ':' ::
    (type.toList.flatMap (·.text) ++ [CodePoint.ofChar '>']))

/-- The tokens of the tag in front of its end. -/
def embedTokens (name : TagName) (type : Option TextType) (context : LexContext) : List Lexed :=
  .lessThan context :: name.lexed :: .colon :: TextType.tokens type

/-- The tag that opens an embedded element is read as its tokens, up to its `>`.
What is behind that is in the context of its text, so it is left to the
caller. -/
theorem consists_embedTokens (name : TagName) (type : Option TextType) (rest : Text)
    (hcontext : context = .normal ∨ context = .text) :
    Consists (name.embedOpening type ++ rest) ((name.embedTokens type context).map Lexed.piece)
      (CodePoint.ofChar '>' :: rest) := by
  have htype : Consists (type.toList.flatMap (·.text) ++ CodePoint.ofChar '>' :: rest)
      ((TextType.tokens type).map Lexed.piece) (CodePoint.ofChar '>' :: rest) := by
    cases type with
    | none => exact .nil _
    | some type =>
      rw [Option.toList_some, List.flatMap_singleton]
      exact consists_name type.toTagName _ (by rintro c ⟨⟩; decide) (.nil _)
  have hcolon := Consists.token .colon Lexeme.splits_colon rfl htype
  have hstart := consists_start name _ (by rintro c ⟨⟩; decide) hcontext hcolon
  simp only [embedOpening, List.cons_append, List.append_assoc]
  exact hstart

end TagName

end MarkupSyntax
