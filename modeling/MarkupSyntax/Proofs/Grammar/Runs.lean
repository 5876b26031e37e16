import MarkupSyntax.Proofs.Grammar.Tagged
import MarkupSyntax.Proofs.Token.Escape

/-!
# `MarkupSyntax.Proofs.Grammar.Runs`: runs of text in bodies

The tokens of a text follow each other in the context of the body, up to
a token that is no part of it. They become one node
(`yields_textRun_tokens`), whatever kind of body the text is in.
-/

set_option autoImplicit false

namespace MarkupSyntax.Grammar

open Parse

variable {p q r : Parser} {descend : Descent} {name : TagName} {tokens rest : List Lexed}
  {text behind : Text} {context : LexContext} {kinds : List TokenKind}

/-- These tokens make a run of text in this context: they are of these
kinds, and what comes behind them is not. -/
structure IsRun (tokens : List Lexed) (kinds : List TokenKind) (context : LexContext)
    (behind : Text) : Prop where
  within : ∀ token ∈ tokens, token.context = context
  ofKind : ∀ token ∈ tokens, token.kind ∈ kinds
  ends : ∀ q : Parser, q.Faces [] behind → q.context = context → q.kind ∉ kinds

/-- The pieces in which a text is read back make a run. -/
theorem isRun_of_readsBack {typed : Bool} {t : Text} {pieces : List Piece}
    (h : ReadsBack typed t behind pieces)
    (ends : ∀ q : Parser, q.Faces [] behind → q.context = Lexeme.textContext typed →
      q.kind ∉ Lexeme.runTokens typed) :
    IsRun (pieces.map (·.lexed)) (Lexeme.runTokens typed) (Lexeme.textContext typed) behind := by
  refine ⟨fun token hmem => ?_, fun token hmem => ?_, ends⟩ <;>
    obtain ⟨piece, hpiece, rfl⟩ := List.mem_map.mp hmem
  · exact (h.isText piece hpiece).context
  · exact (h.isText piece hpiece).kind

/-- A run of text as a part of a tree. -/
def runTree (kind : SyntaxKind) (tokens : List Lexed) : Tree :=
  .node none kind (tokens.map (·.leaf none))

/-- A run of text has the texts of its tokens. -/
theorem texts_runTree (kind : SyntaxKind) (tokens : List Lexed) :
    (runTree kind tokens).leaves.map (·.text) = tokens.map (·.text) :=
  Lexed.texts_leaves tokens none

/-- The tokens of a run, one round for each. -/
theorem yields_runTokens (hrun : IsRun tokens kinds context behind) (heof : TokenKind.eof ∉ kinds)
    (h : p.Faces tokens behind) (hcontext : p.context = context) {fuel : Nat}
    (enough : tokens.length < fuel) :
    Yields (rounds (fun _ => do
        if ← (do
          if !(← seesAny kinds) then return false
          bump context
          return true : Parse Bool) then return .again () else return .done ()) fuel ()) p
      fun _ q => Records p tokens (tokens.map (·.leaf none)) context q ∧ q.memo = p.memo := by
  -- Token by token. Behind the run stands none of these kinds, which ends the loop.
  induction tokens generalizing p fuel with
  | nil =>
    obtain ⟨fuel, rfl⟩ : ∃ n, fuel = n + 1 := ⟨fuel - 1, by omega⟩
    refine .rounds_done ?_
    refine .bind_known
      (.seesAny_false (hrun.ends p h hcontext) (.ite_true rfl (.pure ⟨rfl, rfl⟩))) ?_
    exact .pure ⟨(), rfl, .nil h.live hcontext, rfl⟩
  | cons token tokens ih =>
    obtain ⟨fuel, rfl⟩ : ∃ n, fuel = n + 1 := ⟨fuel - 1, by omega⟩
    obtain ⟨hfirst, hothers⟩ := List.forall_mem_cons.mp hrun.within
    obtain ⟨hkind, hkinds⟩ := List.forall_mem_cons.mp hrun.ofKind
    have hnext : p.context = token.context := hcontext.trans hfirst.symm
    have hstep : Yields (do
        if !(← seesAny kinds) then return false
        bump context
        return true) p fun again q => again = true ∧
          Records p [token] [token.leaf none] context q ∧ q.memo = p.memo := by
      refine .seesAny_true (by rw [h.kind hnext]; exact hkind) (.ite_false Bool.false_ne_true ?_)
      refine (yields_bump_token h hnext (fun hend => heof (hend ▸ hkind)) context none).bind ?_
      rintro _ q ⟨hbump, hq⟩
      exact .pure ⟨rfl, hq, by rw [hbump, Parser.memo_bump]⟩
    refine .rounds_again (fun _ q => Records p [token] [token.leaf none] context q ∧
      q.memo = p.memo) (hstep.bind ?_) ?_
    · rintro _ q ⟨rfl, hq⟩
      exact .pure ⟨(), rfl, hq⟩
    · rintro _ q ⟨hq, hmemo⟩
      refine (ih ⟨hothers, hkinds, hrun.ends⟩ (h.tail hq.toCovers) hq.context (by
        rw [List.length_cons] at enough
        omega)).mono ?_
      rintro _ r ⟨hr, hmemo'⟩
      exact ⟨hq.trans hr, hmemo'.trans hmemo⟩

/-- A run of text is one node. -/
theorem yields_textRun_tokens {kind : SyntaxKind} (real : kind.isNode = true)
    (plain : kind.isLoose = true) (hrun : IsRun tokens kinds context behind)
    (heof : TokenKind.eof ∉ kinds) (h : p.Faces tokens behind) (hcontext : p.context = context) :
    Yields (textRun kind kinds context) p fun _ q =>
      Records p tokens [runTree kind tokens] context q ∧ q.memo = p.memo := by
  unfold textRun
  refine (yields_start_node h.live hcontext).bind ?_
  rintro marker q ⟨hq, hmarks⟩
  have h := h.same hq.toCovers
  have hloop : Yields (whileTrue do
      if !(← seesAny kinds) then return false
      bump context
      return true) q fun _ r =>
        Records q tokens (tokens.map (·.leaf none)) context r ∧ r.memo = q.memo := by
    have hfew : tokens.length ≤ q.text.length := by
      refine (show q.Faces (tokens ++ []) behind by rwa [List.append_nil]).length_le ?_
      exact fun token hmem hend => heof (hend ▸ hrun.ofKind token hmem)
    unfold whileTrue loop
    exact .get (yields_runTokens hrun heof h hq.context (by omega))
  refine hloop.bind ?_
  rintro _ r ⟨hr, hmemo⟩
  refine ((hq.records hr).complete real (Outline.fits_of_isLoose plain)).bind ?_
  rintro node s ⟨hs, hmarks'⟩
  exact .pure ⟨hs.records, by rw [hmarks'.memo, hmemo, hmarks.memo]⟩

/-! ### Rounds over text -/

/-- A round of a loop went on behind these tokens, and has progress to
show. -/
def Continues (p : Parser) (tokens : List Lexed) (trees : List Tree) (context : LexContext)
    (next : Round Progress Unit) (q : Parser) : Prop :=
  ∃ progress, next = .again progress ∧ Behind progress q ∧ Records p tokens trees context q ∧
    q.memo = p.memo

/-- A round ended a loop where it was. -/
def Concludes (p : Parser) (context : LexContext) (next : Round Progress Unit) (q : Parser) : Prop :=
  next = .done () ∧ Records p [] [] context q ∧ q.memo = p.memo

/-- A round that reads a run of text goes on behind it. -/
theorem yields_roundText {kind : SyntaxKind} (real : kind.isNode = true)
    (plain : kind.isLoose = true) (hrun : IsRun tokens kinds context behind)
    (heof : TokenKind.eof ∉ kinds) (hne : tokens ≠ []) (h : p.Faces tokens behind)
    (hcontext : p.context = context) {progress : Progress} (hnext : progress.last = some p.position) :
    Yields (do
      textRun kind kinds context
      return .again progress) p (Continues p tokens [runTree kind tokens] context) := by
  refine (yields_textRun_tokens real plain hrun heof h hcontext).bind ?_
  rintro _ q ⟨hq, hmemo⟩
  have htakes : Takes p q := by
    cases tokens with
    | nil => exact absurd rfl hne
    | cons token tokens =>
      have hway := hq.way
      rw [List.map_cons, hrun.within token List.mem_cons_self, ← hcontext] at hway
      exact ⟨_, hway⟩
  exact .pure ⟨progress, rfl, behind_of_takes hnext htakes h.live, hq, hmemo⟩

section Rounds

variable {progress : Progress} (hbehind : Behind progress p) (h : p.Faces tokens behind)

/-- The kind of the first token. -/
theorem kind_of_isRun (hrun : IsRun tokens kinds context behind) (hne : tokens ≠ [])
    (h : p.Faces tokens behind) (hcontext : p.context = context) : p.kind ∈ kinds := by
  cases tokens with
  | nil => exact absurd rfl hne
  | cons token tokens =>
    rw [h.kind (hcontext.trans (hrun.within token List.mem_cons_self).symm)]
    exact hrun.ofKind token List.mem_cons_self

include hbehind h

/-- A text in mixed content. -/
theorem yields_mixedRound_text (hne : tokens ≠ []) (hrun : IsRun tokens textTokens .text behind) :
    Yields (mixedRound descend progress) p
      (Continues p tokens [runTree .textRun tokens] .text) := by
  have hrelex := Records.relex h.live .text
  have hbehind := hbehind.reaches ⟨_, hrelex.way⟩ h.live
  have h := h.same hrelex.toCovers
  have hkind := kind_of_isRun hrun hne h hrelex.context
  have hother : (p.relex .text).kind ≠ .eof ∧ (p.relex .text).kind ≠ .lessThan := by
    constructor <;> (intro heq; rw [heq] at hkind; exact absurd hkind (by decide))
  unfold mixedRound
  refine .modify (.sees_false hother.1 (.ite_false Bool.false_ne_true ?_))
  refine .bind_known (.sees_false hother.2 (.ite_false Bool.false_ne_true (.pure ⟨rfl, rfl⟩))) ?_
  refine .ite_false Bool.false_ne_true ?_
  refine .mustProgress h.live hbehind fun next hnext => ?_
  refine .seesAny_true hkind (.ite_true rfl ?_)
  refine (yields_roundText rfl rfl hrun (by decide) hne h hrelex.context hnext).mono ?_
  rintro next q ⟨progress, rfl, hbehind, hq, hmemo⟩
  exact ⟨progress, rfl, hbehind, hrelex.trans hq, hmemo⟩

/-- A text in an embedded element without a type. -/
theorem yields_plainTextRound_text (hne : tokens ≠ [])
    (hrun : IsRun tokens textTokens .text behind) :
    Yields (plainTextRound descend progress) p
      (Continues p tokens [runTree .textRun tokens] .text) := by
  have hrelex := Records.relex h.live .text
  have hbehind := hbehind.reaches ⟨_, hrelex.way⟩ h.live
  have h := h.same hrelex.toCovers
  have hkind := kind_of_isRun hrun hne h hrelex.context
  have hother : (p.relex .text).kind ∉ [TokenKind.eof, .lessThan] := by
    revert hkind
    cases (p.relex .text).kind <;> decide
  unfold plainTextRound
  refine .modify (.seesAny_false hother (.ite_false Bool.false_ne_true ?_))
  refine .mustProgress h.live hbehind fun next hnext => ?_
  refine .seesAny_true hkind (.ite_true rfl ?_)
  refine (yields_roundText rfl rfl hrun (by decide) hne h hrelex.context hnext).mono ?_
  rintro next q ⟨progress, rfl, hbehind, hq, hmemo⟩
  exact ⟨progress, rfl, hbehind, hrelex.trans hq, hmemo⟩

/-- A text in a typed element. -/
theorem yields_typedTextRound_text (hne : tokens ≠ [])
    (hrun : IsRun tokens typedTextTokens .typedText behind) :
    Yields (typedTextRound descend progress) p
      (Continues p tokens [runTree .embedTextRun tokens] .typedText) := by
  have hrelex := Records.relex h.live .typedText
  have hbehind := hbehind.reaches ⟨_, hrelex.way⟩ h.live
  have h := h.same hrelex.toCovers
  have hkind := kind_of_isRun hrun hne h hrelex.context
  have hother : (p.relex .typedText).kind ∉ [TokenKind.eof, .lessThan] ∧
      (p.relex .typedText).kind ≠ .atLBrace := by
    revert hkind
    cases (p.relex .typedText).kind <;> decide
  unfold typedTextRound
  refine .modify (.seesAny_false hother.1 (.ite_false Bool.false_ne_true ?_))
  refine .mustProgress h.live hbehind fun next hnext => ?_
  refine .sees_false hother.2 (.ite_false Bool.false_ne_true ?_)
  refine (yields_roundText rfl rfl hrun (by decide) hne h hrelex.context hnext).mono ?_
  rintro next q ⟨progress, rfl, hbehind, hq, hmemo⟩
  exact ⟨progress, rfl, hbehind, hrelex.trans hq, hmemo⟩

end Rounds

/-- A closing tag starts in typed text, too. -/
theorem kind_closing_typed (hcontext : p.context = .typedText)
    (h : p.Faces [] (name.closing ++ behind)) : p.kind = .lessThan := by
  rw [TagName.closing_append] at h
  have hless : Lexes (CodePoint.ofChar '<' :: CodePoint.ofChar '/' ::
      (name.text ++ CodePoint.ofChar '>' :: behind)) [.lessThan .typedText] _ :=
    .cons (.token Lexeme.splits_lessThan_slash rfl) (.nil _)
  exact (h.append hless).kind hcontext

/-- Mixed content ends in front of a closing tag. -/
theorem yields_mixedRound_closing {progress : Progress} (h : p.Faces [] (name.closing ++ behind)) :
    Yields (mixedRound descend progress) p (Concludes p .text) := by
  have hrelex := Records.relex h.live .text
  have h := h.same hrelex.toCovers
  have hkind := (faces_closing hrelex.context (.inr rfl) h).2
  unfold mixedRound
  refine .modify (.sees_false (by rw [hkind]; decide) (.ite_false Bool.false_ne_true ?_))
  refine (yields_seesCloseTag_closing hrelex.context (.inr rfl) h).bind ?_
  rintro _ q ⟨rfl, hq, hmemo⟩
  exact .ite_true rfl (.pure ⟨rfl, hrelex.trans hq, hmemo⟩)

/-- So does text. -/
theorem yields_plainTextRound_closing {progress : Progress}
    (h : p.Faces [] (name.closing ++ behind)) :
    Yields (plainTextRound descend progress) p (Concludes p .text) := by
  have hrelex := Records.relex h.live .text
  have hkind := (faces_closing hrelex.context (.inr rfl) (h.same hrelex.toCovers)).2
  unfold plainTextRound
  exact .modify (.seesAny_true (by rw [hkind]; decide) (.ite_true rfl (.pure ⟨rfl, hrelex, rfl⟩)))

/-- And typed text. -/
theorem yields_typedTextRound_closing {progress : Progress}
    (h : p.Faces [] (name.closing ++ behind)) :
    Yields (typedTextRound descend progress) p (Concludes p .typedText) := by
  have hrelex := Records.relex h.live .typedText
  have hkind := kind_closing_typed hrelex.context (h.same hrelex.toCovers)
  unfold typedTextRound
  exact .modify (.seesAny_true (by rw [hkind]; decide) (.ite_true rfl (.pure ⟨rfl, hrelex, rfl⟩)))

/-- A loop over a body that is one run of text. -/
theorem yields_loop_text {round : Progress → Parse (Round Progress Unit)} {tree : Tree}
    (htext : Yields (round {}) p (Continues p tokens [tree] context))
    (hclosing : ∀ progress q, Records p tokens [tree] context q →
      Yields (round progress) q (Concludes q context)) :
    Yields (loop round {}) p fun _ q => Records p tokens [tree] context q ∧ q.memo = p.memo := by
  unfold loop
  refine .get (.rounds_again (fun _ q => Records p tokens [tree] context q ∧ q.memo = p.memo)
    (htext.mono ?_) ?_)
  · rintro next q ⟨progress, rfl, -, hq⟩
    exact ⟨progress, rfl, hq⟩
  · rintro progress q ⟨hq, hmemo⟩
    refine .rounds_done ((hclosing progress q hq).mono ?_)
    rintro next r ⟨rfl, hr, hmemo'⟩
    refine ⟨(), rfl, ?_, hmemo'.trans hmemo⟩
    have hall := hq.trans hr
    rwa [List.append_nil, List.append_nil] at hall

end MarkupSyntax.Grammar
