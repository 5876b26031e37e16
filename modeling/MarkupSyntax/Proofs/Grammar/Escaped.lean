import MarkupSyntax.Proofs.Grammar.Misread
import MarkupSyntax.Proofs.Grammar.Runs

/-!
# `MarkupSyntax.Proofs.Grammar.Escaped`: elements that hold one text

A text that is written with escapes is read as one run, in each form of
element that can hold text (`yields_element_escaped`). Between the tags of
a plain element the text may look like code. It was read as a sequence of
elements then, and the parse has gone back.
-/

set_option autoImplicit false

namespace MarkupSyntax

open Grammar

/-! ### Guarded texts -/

namespace Text

/-- Each character is written without a brace, or with one behind a
backslash. -/
theorem guarded_escapeChar (typed : Bool) (c : CodePoint) : (escapeChar typed c).Guarded := by
  by_cases hc : c.isVerbatim typed = true
  · rw [escapeChar_of_isVerbatim hc]
    refine .of_notMem fun hmem => ?_
    exact (CodePoint.isVerbatim_iff.mp hc).2.2.1 (List.mem_singleton.mp hmem).symm
  · rcases eq_of_not_isVerbatim (Bool.not_eq_true _ ▸ hc) with rfl | rfl | rfl | rfl | ⟨rfl, rfl⟩
    · exact .of_notMem (by cases typed <;> decide)
    · exact .of_notMem (by cases typed <;> decide)
    · rintro front behind hsplit
      have hwritten : escapeChar typed '\x7b' = [CodePoint.ofChar '\\', CodePoint.ofChar '\x7b'] := by
        cases typed <;> rfl
      rw [hwritten] at hsplit
      rcases front with _ | ⟨d, _ | ⟨e, front⟩⟩
      · cases hsplit
      · rw [(List.cons.inj hsplit).1]
        rfl
      · have hlength := congrArg List.length hsplit
        simp at hlength
    · exact .of_notMem (by cases typed <;> decide)
    · exact .of_notMem (by decide)

/-- A text that is written with escapes has each brace behind a
backslash. -/
theorem guarded_escape (typed : Bool) (t : Text) : (escape typed t).Guarded := by
  induction t with
  | nil => exact .of_notMem List.not_mem_nil
  | cons c t ih =>
    rw [escape_cons]
    exact (guarded_escapeChar typed c).append ih

/-- No character is written so that markup starts with it. -/
theorem exists_escapeChar_cons {typed : Bool} {c : CodePoint} (hc : c.isWhitespace = false) :
    ∃ d tail, escapeChar typed c = d :: tail ∧
      d.isWhitespace = false ∧ d ≠ '<' ∧ d ≠ '\x7b' := by
  by_cases hverbatim : c.isVerbatim typed = true
  · obtain ⟨-, hless, hopen, -⟩ := CodePoint.isVerbatim_iff.mp hverbatim
    exact ⟨c, [], escapeChar_of_isVerbatim hverbatim, hc, hless, hopen⟩
  · rcases eq_of_not_isVerbatim (Bool.not_eq_true _ ▸ hverbatim) with
      rfl | rfl | rfl | rfl | ⟨rfl, rfl⟩
    · exact ⟨'&', _, by cases typed <;> rfl, by decide⟩
    · exact ⟨'&', _, by cases typed <;> rfl, by decide⟩
    · exact ⟨'\\', _, by cases typed <;> rfl, by decide⟩
    · exact ⟨'\\', _, by cases typed <;> rfl, by decide⟩
    · exact ⟨'\\', _, rfl, by decide⟩

end Text

namespace TagName

/-- No brace is in a closing tag. -/
theorem guarded_closing (name : TagName) : name.closing.Guarded := by
  refine .of_notMem fun hmem => ?_
  simp only [closing, List.mem_cons, List.mem_append, List.not_mem_nil, or_false] at hmem
  rcases hmem with hmem | hmem | hmem | hmem
  · exact absurd hmem (by decide)
  · exact absurd hmem (by decide)
  · exact absurd (name.continuesName_of_mem _ hmem) (by decide)
  · exact absurd hmem (by decide)

end TagName

/-! ### Forms of elements -/

/-- The forms of an element that can hold text. -/
inductive TextForm where
  /-- A plain element. -/
  | plain
  /-- An embedded element, with or without a type. -/
  | embedded (type : Option TextType)

namespace TextForm

/-- True where `@` is no text. -/
def typed : TextForm → Bool
  | plain => false
  | embedded type => type.isSome

/-- The tag that opens the element. -/
def opening (form : TextForm) (name : TagName) : Text :=
  match form with
  | plain => name.opening
  | embedded type => name.embedOpening type

/-- The tokens of the tag. -/
def openingTokens (form : TextForm) (name : TagName) : List Lexed :=
  match form with
  | plain => name.openingTokens .normal
  | embedded type => name.embedTokens type .normal ++ [.greaterThan]

/-- The parts of the tag. -/
def openingTrees (form : TextForm) (name : TagName) : List Tree :=
  match form with
  | plain => name.openingTrees
  | embedded type => name.embedTrees type

/-- The kind of the body. -/
def contentKind : TextForm → SyntaxKind
  | plain => .mixedContent
  | embedded none => .textContent
  | embedded (some _) => .embedContent

/-- The kind of a run of text in the body. -/
def runKind (form : TextForm) : SyntaxKind := if form.typed then .embedTextRun else .textRun

/-- The body of an element of this form is one run, which stands for the
text. -/
def Reads (form : TextForm) (t rest : Text) (pieces : List Piece) (tree : Tree) : Prop :=
  ReadsBack form.typed t rest pieces ∧ tree = .node (some "content") form.contentKind
    [runTree form.runKind (pieces.map (·.lexed))]

/-- The content of each form of text has the tree of a body. -/
theorem writesBody (form : TextForm) (t rest : Text) : Grammar.WritesBody (form.Reads t rest) := by
  rintro pieces _ ⟨-, rfl⟩
  rcases form with _ | _ | _ <;> exact ⟨rfl, rfl⟩

end TextForm

namespace Grammar

open Parse

variable {p q : Parser} {descend : Descent} {bound : Nat} {name : TagName} {form : TextForm}
  {t behind : Text} {context : LexContext} {marker : Marker}

/-- Text stops in front of a closing tag. -/
theorem stops_closing (typed : Bool) (t : Text) (name : TagName) (behind : Text) :
    Lexeme.Stops typed t (name.closing ++ behind) := by
  rw [TagName.closing_append]
  refine ⟨⟨_, _, rfl, by cases typed <;> rfl⟩, ?_, fun _ => ?_⟩
  · rintro c ⟨⟩
    decide
  · rintro c ⟨⟩
    decide

/-- It does in every context of text. -/
theorem kind_closing {typed : Bool} (hcontext : p.context = Lexeme.textContext typed)
    (h : p.Faces [] (name.closing ++ behind)) : p.kind ∉ Lexeme.runTokens typed := by
  cases typed with
  | false =>
    rw [(faces_closing hcontext (.inr rfl) h).2]
    decide
  | true =>
    rw [kind_closing_typed hcontext h]
    decide

/-- What an escaped text is read back from, as tokens of a run. -/
structure Ahead (form : TextForm) (t : Text) (name : TagName) (behind : Text) (pieces : List Piece) :
    Prop where
  readsBack : ReadsBack form.typed t (name.closing ++ behind) pieces
  isRun : IsRun (pieces.map (·.lexed)) (Lexeme.runTokens form.typed)
    (Lexeme.textContext form.typed) (name.closing ++ behind)
  ne_nil : pieces.map (·.lexed) ≠ []

/-- An escaped text that is not empty has pieces to be read as, and they make
one run in front of the closing tag. Its last character must be no white space,
else the lexer would put it behind the last token. -/
theorem exists_ahead (form : TextForm) (hne : t ≠ [])
    (hlast : ∀ c ∈ t.getLast?, c.isWhitespace = false) (name : TagName) (behind : Text) :
    ∃ pieces, Ahead form t name behind pieces := by
  obtain ⟨pieces, h⟩ := exists_readsBack (stops_closing form.typed t name behind) hlast
  refine ⟨pieces, h, isRun_of_readsBack h fun q hq hcontext => kind_closing hcontext hq, ?_⟩
  exact fun hnil => h.nonempty hne (List.map_eq_nil_iff.mp hnil)

/-- Mixed content that is one text. -/
theorem yields_mixedBody_text {pieces : List Piece} (hq : MarkupSyntax.Holds p marker [] [] context q)
    (hahead : Ahead .plain t name behind pieces)
    (h : q.Faces (pieces.map (·.lexed)) (name.closing ++ behind)) :
    Yields (mixedBody descend marker { isElements := false }) q fun _ r =>
      Records p (pieces.map (·.lexed)) [.node (some "content") .mixedContent
        [runTree .textRun (pieces.map (·.lexed))]] .text r := by
  unfold mixedBody mixedItems
  refine .bind (yields_loop_text
    (yields_mixedRound_text (behind_first q) h hahead.ne_nil hahead.isRun)
    fun progress r hr => yields_mixedRound_closing (h.all hr.toCovers)) ?_
  rintro _ r ⟨hr, -⟩
  refine ((hq.records hr).completeInto (by decide) (Outline.fits_of_isLoose rfl) _).mono ?_
  rintro node s ⟨hs, -⟩
  exact hs.records

/-- The body of a plain element, which is no sequence of elements. -/
theorem yields_elementContent_text {pieces : List Piece} (hw : Works descend bound)
    (hbound : 4 * p.room ≤ bound) (hahead : Ahead .plain t name behind pieces) (hne : t ≠ [])
    (hfirst : ∀ c ∈ t.head?, c.isWhitespace = false) (hguarded : behind.Guarded)
    (h : p.Faces [] (Text.escape false t ++ (name.closing ++ behind))) (hcontext : p.context = .normal)
    (level : p.IsLevel) (hclean : p.errorCount = 0) (hmemo : p.memo = []) :
    Yields (elementContent descend) p fun _ q =>
      ReadsOne (TextForm.plain.Reads t (name.closing ++ behind))
        (Text.escape false t ++ (name.closing ++ behind)) (name.closing ++ behind) p q := by
  have hfaces := h.append hahead.readsBack.consists.lexes
  unfold elementContent
  refine .modify ?_
  rw [Parser.relex_of_context hcontext]
  have hrecall : p.recall? "element_content" p.position = none := by
    unfold Parser.recall?
    rw [hmemo]
    split <;> rfl
  refine .get (.get ?_)
  rw [hrecall]
  refine (yields_start_node h.live hcontext).bind ?_
  rintro marker q ⟨hq, hmarks⟩
  refine .get ?_
  obtain ⟨seam, hp, hbehind⟩ := h.same hq.toCovers
  have hsame : seam.behind = Text.escape false t ++ (name.closing ++ behind) := by
    generalize seam.behind = text at hbehind
    cases hbehind
    rfl
  -- The text is written with a character in front that is neither white space nor markup, so the
  -- body is seen to be text at once.
  obtain ⟨c, rest, hstarts⟩ : ∃ c rest, StartsText seam c rest := by
    cases t with
    | nil => exact absurd rfl hne
    | cons c t =>
      obtain ⟨d, tail, hd, hwhite, hless, hbrace⟩ :=
        @Text.exists_escapeChar_cons false c (hfirst c rfl)
      rw [Text.escape_cons, hd, List.cons_append, List.cons_append] at hsame
      exact ⟨d, _, hsame, hwhite, hless, hbrace⟩
  have hroom : 4 * q.room ≤ bound := by
    rw [hmarks]
    exact hbound
  refine yields_classifiedBody_text hw hroom hp hq.context (hmarks.isLevel level)
    (hmarks.calm.errorCount.trans hclean) hstarts ?_ fun r hr => ?_
  · rw [hsame]
    exact (Text.guarded_escape false t).append (name.guarded_closing.append hguarded)
  refine (yields_mixedBody_text (hq.records hr) hahead
    ((hfaces.same hq.toCovers).same hr.toCovers)).mono ?_
  intro _ s hs
  exact ⟨pieces, _, _, ⟨hahead.readsBack, rfl⟩, hahead.readsBack.consists, hs⟩

/-- A body of its own kind that is one text. -/
theorem yields_textBody {items : Parse Unit} {pieces : List Piece}
    (hahead : Ahead form t name behind pieces)
    (h : p.Faces [] (Text.escape form.typed t ++ (name.closing ++ behind)))
    (hitems : ∀ q, q.Faces (pieces.map (·.lexed)) (name.closing ++ behind) →
      Yields items q fun _ r => Records q (pieces.map (·.lexed))
        [runTree form.runKind (pieces.map (·.lexed))] context r ∧ r.memo = q.memo) :
    Yields (do
      let marker ← start
      items
      let node ← marker.complete form.contentKind
      node.setField "content") p fun _ q =>
        ReadsOne (form.Reads t (name.closing ++ behind))
          (Text.escape form.typed t ++ (name.closing ++ behind)) (name.closing ++ behind) p q := by
  have hconsists := hahead.readsBack.consists
  have hfaces := h.append hconsists.lexes
  have hkind : form.contentKind.isNode = true ∧ form.contentKind.isLoose = true := by
    rcases form with _ | _ | _ <;> exact ⟨rfl, rfl⟩
  refine (yields_start_node h.live rfl).bind ?_
  rintro marker q ⟨hq, -⟩
  refine (hitems q (hfaces.same hq.toCovers)).bind ?_
  rintro _ r ⟨hr, -⟩
  refine ((hq.records hr).completeInto hkind.1 (Outline.fits_of_isLoose hkind.2) _).mono ?_
  rintro node s ⟨hs, -⟩
  exact ⟨pieces, _, _, ⟨hahead.readsBack, rfl⟩, hconsists, hs.records⟩

/-- The body of an embedded element. -/
theorem yields_embedContent_text {type : Option TextType} {pieces : List Piece}
    (hahead : Ahead (.embedded type) t name behind pieces)
    (h : p.Faces [] (Text.escape type.isSome t ++ (name.closing ++ behind))) :
    Yields (if type.isSome then embedContent descend else textContent descend) p fun _ q =>
      ReadsOne ((TextForm.embedded type).Reads t (name.closing ++ behind))
        (Text.escape type.isSome t ++ (name.closing ++ behind)) (name.closing ++ behind) p q := by
  cases type with
  | none =>
    have hitems : ∀ q, q.Faces (pieces.map (·.lexed)) (name.closing ++ behind) →
        Yields (loop (plainTextRound descend) {}) q fun _ r => Records q (pieces.map (·.lexed))
          [runTree .textRun (pieces.map (·.lexed))] .text r ∧ r.memo = q.memo := fun q hq =>
      yields_loop_text (yields_plainTextRound_text (behind_first q) hq hahead.ne_nil hahead.isRun)
        fun progress r hr => yields_plainTextRound_closing (hq.all hr.toCovers)
    have hbody := yields_textBody hahead h hitems
    exact .ite_false Bool.false_ne_true (hbody.mono fun _ _ hq => hq)
  | some type =>
    have hitems : ∀ q, q.Faces (pieces.map (·.lexed)) (name.closing ++ behind) →
        Yields (loop (typedTextRound descend) {}) q fun _ r => Records q (pieces.map (·.lexed))
          [runTree .embedTextRun (pieces.map (·.lexed))] .typedText r ∧ r.memo = q.memo := fun q hq =>
      yields_loop_text (yields_typedTextRound_text (behind_first q) hq hahead.ne_nil hahead.isRun)
        fun progress r hr => yields_typedTextRound_closing (hq.all hr.toCovers)
    have hbody := yields_textBody hahead h hitems
    exact .ite_true rfl (hbody.mono fun _ _ hq => hq)

/-- An element whose body is a text. -/
theorem yields_element_text (hw : Works descend bound) (hbound : 4 * p.room ≤ bound)
    (hne : t ≠ []) (hfirst : ∀ c ∈ t.head?, c.isWhitespace = false)
    (hlast : ∀ c ∈ t.getLast?, c.isWhitespace = false) (hguarded : behind.Guarded)
    (h : p.Faces []
      (form.opening name ++ (Text.escape form.typed t ++ (name.closing ++ behind))))
    (hcontext : p.context = .normal) (hdepth : p.depth < p.options.maxNestingDepth)
    (hclean : p.errorCount = 0) (hmemo : p.memo = []) (field : Option String) :
    Yields (element descend field) p fun node q =>
      ReadsElement (form.Reads t (name.closing ++ behind)) name (form.openingTokens name)
        (form.openingTrees name) (Text.escape form.typed t ++ (name.closing ++ behind)) behind field p
        node q := by
  obtain ⟨pieces, hahead⟩ := exists_ahead form hne hlast name behind
  have hnode : Yields (elementNode descend) { p with depth := p.depth + 1 } fun node q => True ∧
      ReadsElement (form.Reads t (name.closing ++ behind)) name (form.openingTokens name)
        (form.openingTrees name) (Text.escape form.typed t ++ (name.closing ++ behind)) behind none
        { p with depth := p.depth + 1 } node q := by
    -- A plain element reads its body as code first, the other two forms do not.
    cases form with
    | plain =>
      refine yields_elementNode_plain (fun _ => True) h.deeper hcontext (.inl rfl)
        (TextForm.writesBody _ _ _) fun q hq hmemo' hlevel => ?_
      have hfaces := (h.deeper.append (name.consists_opening _ (.inl rfl)).lexes).all hq
      have hlive := h.deeper.live
      have hroom : 4 * q.room ≤ bound := by
        have hle : q.room ≤ ({ p with depth := p.depth + 1 } : Parser).room :=
          Reaches.room_le ⟨_, hq.way⟩ hlive
        have hsame : ({ p with depth := p.depth + 1 } : Parser).room = p.room := rfl
        omega
      refine (yields_elementContent_text hw hroom hahead hne hfirst hguarded hfaces hq.context hlevel
        (hq.calm.errorCount.trans hclean) (hmemo'.trans hmemo)).mono ?_
      exact fun _ r hr => ⟨trivial, hr⟩
    | embedded type =>
      refine yields_elementNode_embed (fun _ => True) h.deeper hcontext (.inl rfl)
        (TextForm.writesBody _ _ _) fun q hq => ?_
      have hfaces := (h.deeper.append (name.consists_embedTokens type _ (.inl rfl)).lexes).append
        (TagName.consists_greaterThan _).lexes
      rw [List.nil_append, Lexed.map_lexed_piece] at hfaces
      refine (yields_embedContent_text hahead (hfaces.all hq)).mono ?_
      exact fun _ r hr => ⟨trivial, hr⟩
  refine (yields_element_named (fun _ => True) hdepth hnode field).mono ?_
  rintro node q ⟨-, hq⟩
  exact hq

end Grammar

end MarkupSyntax
