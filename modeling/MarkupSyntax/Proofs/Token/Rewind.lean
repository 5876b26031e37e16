import MarkupSyntax.Proofs.Token.Seam

/-!
# `MarkupSyntax.Proofs.Token.Rewind`: going back in a token source

A checkpoint of a token source keeps places and counts, and going back
cuts the trivia and the diagnostics down to those counts. What is to
come is restored by the places alone (`TokenSource.Alike`). What was
recorded is restored only if it is still there, and one operation may
have dropped it: reading the token of the checkpoint anew goes back to
the token before, and drops the trivia in between
(`exists_rewind_ne`).

So going back restores all that is to be seen of a token source if
nothing was dropped that the checkpoint counts (`Spares`), and in any
case the tokens from there on (`watch_rewind`).
-/

set_option autoImplicit false

namespace MarkupSyntax

/-! ### Lexers that read the same -/

namespace Lexer

variable {L L' : Lexer} {context : LexContext}

/-- The two lexers stand at the same place of the same source. They may
have reported different things. -/
structure Alike (L L' : Lexer) : Prop where
  source : L'.source = L.source
  current : L'.current = L.current
  afterLineBreak : L'.afterLineBreak = L.afterLineBreak

namespace Alike

/-- Two lexers at the same place step to the same place. What they have reported
does not decide what comes next. -/
theorem next (h : L.Alike L') (context : LexContext) : (L.next context).Alike (L'.next context) := by
  obtain ⟨source, file, current, afterLineBreak, diagnostics⟩ := L
  obtain ⟨source', file', current', afterLineBreak', diagnostics'⟩ := L'
  obtain ⟨rfl, rfl, rfl⟩ := h
  unfold Lexer.next position
  dsimp only
  split
  · exact ⟨rfl, rfl, rfl⟩
  · exact ⟨rfl, rfl, rfl⟩

/-- Of two lexers at the same place either both are inside the source or none
is. -/
theorem isInside (h : L.Alike L') (inside : L.IsInside) : L'.IsInside := by
  unfold IsInside position at inside ⊢
  rwa [h.source, h.current]

/-- From the same place the same trivia are passed. -/
theorem passed (h : L.Alike L') (context : LexContext) (fuel : Nat) :
    L'.passed context fuel = L.passed context fuel := by
  induction fuel generalizing L L' with
  | zero => rfl
  | succ fuel ih =>
    have hnext := h.next context
    unfold Lexer.passed
    rw [hnext.current, ih hnext]

/-- From the same place both land at the same place behind the trivia. -/
theorem landed (h : L.Alike L') (context : LexContext) (fuel : Nat) :
    (L.landed context fuel).Alike (L'.landed context fuel) := by
  induction fuel generalizing L L' with
  | zero => exact h
  | succ fuel ih =>
    have hnext := h.next context
    unfold Lexer.landed
    rw [hnext.current]
    split
    · exact ih hnext
    · exact hnext

/-- From the same place the same tokens come. -/
theorem solid (h : L.Alike L') : L'.solid = L.solid := by
  have hstream : ∀ (count : Nat) {L L' : Lexer}, L.Alike L' →
      (L'.stream count).map (·.current) = (L.stream count).map (·.current) := by
    intro count
    induction count with
    | zero => exact fun _ => rfl
    | succ count ih =>
      intro L L' h
      have hnext := h.next .normal
      unfold stream
      rw [h.current]
      split
      · rfl
      · rw [List.map_cons, List.map_cons, hnext.current, ih hnext]
  unfold Lexer.solid solidOf
  rw [h.source, hstream _ h]

end Alike

end Lexer

namespace TokenSource

variable {a b source : TokenSource} {L L' : Lexer} {seam : Seam} {context : LexContext}

/-! ### Steps -/

/-- An operation of a token source. -/
inductive Step where
  /-- To the next token, read in a context. -/
  | bump (context : LexContext)
  /-- Reads the current token anew. -/
  | relex (context : LexContext)
  /-- Asks for the token `n` places ahead. -/
  | ask (n : Int)

/-- The token source after an operation. -/
def step (source : TokenSource) : Step → TokenSource
  | .bump context => source.bump context
  | .relex context => source.relex context
  | .ask n =>
    match source.nth n with
    | .ok (_, source) => source
    | .error _ => source

/-- What an operation answers. -/
def answer? (source : TokenSource) : Step → Option (Except Fault View)
  | .ask n => some ((source.nth n).map (·.1))
  | _ => none

/-- The token source after some operations. -/
def run (steps : List Step) (source : TokenSource) : TokenSource := steps.foldl step source

/-- What is to be seen before, between and after some operations, with
the answers of the operations. -/
def watch {α : Type} (see : TokenSource → α) :
    List Step → TokenSource → List (α × Option (Except Fault View))
  | [], source => [(see source, none)]
  | step :: steps, source =>
    (see source, source.answer? step) :: watch see steps (source.step step)

/-- What is to be seen of the current token. -/
structure Reading where
  kind : TokenKind
  range : TextRange
  context : LexContext
  afterLineBreak : Bool
  afterTrivia : Bool

/-- What is to be seen of a current token; its origin is left out. -/
def Current.reading (current : Current) : Reading :=
  ⟨current.kind, current.range, current.context, current.afterLineBreak, current.afterTrivia⟩

/-- What is to be seen of the current token of a source. -/
def reading (source : TokenSource) : Reading := source.current.reading

/-- What is to be seen of a token source. -/
structure Sight where
  reading : Reading
  trivia : Array Trivia
  /-- The diagnostics that `finish` would answer. -/
  diagnostics : Array Diagnostic

/-- What is to be seen of a source: the token, and the trivia and the
diagnostics up to it. -/
def sight (source : TokenSource) : Sight :=
  ⟨source.reading, source.finish.1, source.finish.2.1⟩

/-! ### Token sources with the same tokens to come -/

/-- The two token sources show the same token, and stand at the same
places of the same source. -/
structure Alike (a b : TokenSource) : Prop where
  reading : a.reading = b.reading
  /-- Both can read the token anew from the same place. -/
  origin : a.current.origin.current = b.current.origin.current
  originLineBreak : a.current.origin.afterLineBreak = b.current.origin.afterLineBreak
  originInside : a.current.origin.position ≤ a.text.length
  lexers : ∃ L L', Lookahead.ReadsFrom L a.buffer ∧ Lookahead.ReadsFrom L' b.buffer ∧
    L.Alike L' ∧ L.IsInside

namespace Alike

/-- Both have a current token of the same kind. -/
theorem kind (h : Alike a b) : a.current.kind = b.current.kind := congrArg Reading.kind h.reading

/-- Both have a current token with the same range. -/
theorem range (h : Alike a b) : a.current.range = b.current.range :=
  congrArg Reading.range h.reading

/-- Both are of the same text. -/
theorem text (h : Alike a b) : a.text = b.text := by
  obtain ⟨L, L', ha, hb, halike, -⟩ := h.lexers
  show a.buffer.lexer.source = b.buffer.lexer.source
  rw [ha.source, hb.source, halike.source]

/-- The next tokens of two lexers at the same place. -/
theorem advanceFrom {buffer buffer' : Lookahead} (trivia trivia' : Array Trivia)
    (h : Lookahead.ReadsFrom L buffer) (h' : Lookahead.ReadsFrom L' buffer') (halike : L.Alike L')
    (inside : L.IsInside) (context : LexContext) :
    Alike (advanceFrom buffer trivia context) (advanceFrom buffer' trivia' context) := by
  -- Both sources stand at the seam of their lexers. So all that is to be compared is the two
  -- seams, and these depend on the place only.
  have hstands := @standsAt_advanceFrom ⟨L, trivia⟩ context buffer h inside
  have hstands' := @standsAt_advanceFrom ⟨L', trivia'⟩ context buffer' h' (halike.isInside inside)
  have hcontext : (TokenSource.advanceFrom buffer trivia context).current.context = context := rfl
  have hcontext' : (TokenSource.advanceFrom buffer' trivia' context).current.context = context := rfl
  have hcurrent := hstands.current
  have hcurrent' := hstands'.current
  have hbuffer := hstands.buffer
  have hbuffer' := hstands'.buffer
  rw [hcontext] at hcurrent hbuffer
  rw [hcontext'] at hcurrent' hbuffer'
  have hgap : L'.gap context = L.gap context := by
    unfold Lexer.gap
    rw [halike.source, halike.passed]
  have htarget : (L.target context).Alike (L'.target context) := by
    unfold Lexer.target
    rw [halike.source]
    exact halike.landed context _
  refine ⟨?_, ?_, ?_, ?_, _, _, hbuffer, hbuffer', htarget, ?_⟩
  · unfold TokenSource.reading Current.reading
    rw [hcurrent, hcurrent']
    simp only [Seam.current, hgap, htarget.current]
  · rw [hcurrent, hcurrent']
    exact halike.current.symm
  · rw [hcurrent, hcurrent']
    exact halike.afterLineBreak.symm
  · have htext : (TokenSource.advanceFrom buffer trivia context).text = L.source := by
      show (TokenSource.advanceFrom buffer trivia context).buffer.lexer.source = _
      rw [hbuffer.source]
      exact (@Seam.reads_leg ⟨L, trivia⟩ inside context).extends_.source
    rw [hcurrent, htext]
    exact inside
  · exact @Seam.isInside_pass ⟨L, trivia⟩ inside context

/-- Both are alike after a step forward. -/
theorem bump (h : Alike a b) (context : LexContext) : Alike (a.bump context) (b.bump context) := by
  unfold TokenSource.bump
  rw [h.kind]
  split
  · exact h
  · obtain ⟨L, L', ha, hb, halike, inside⟩ := h.lexers
    exact advanceFrom _ _ ha hb halike inside context

/-- Both are alike after the token was read anew: each goes back to the place
where its token starts, and these are alike. -/
theorem relex (h : Alike a b) (context : LexContext) :
    Alike (a.relex context) (b.relex context) := by
  have hcontext : a.current.context = b.current.context := congrArg Reading.context h.reading
  unfold TokenSource.relex
  rw [hcontext]
  split
  · exact h
  · have halike : (a.buffer.lexer.rewind a.current.origin).Alike
        (b.buffer.lexer.rewind b.current.origin) :=
      ⟨h.text.symm, h.origin.symm, h.originLineBreak.symm⟩
    exact advanceFrom _ _ (Lookahead.readsFrom_ofLexer _) (Lookahead.readsFrom_ofLexer _) halike
      h.originInside context

/-- Both give the same answer to what stands `n` places ahead, and are alike
after the question. -/
theorem ahead? (h : Alike a b) (n : Nat) :
    (a.ahead? n).1 = (b.ahead? n).1 ∧ Alike (a.ahead? n).2 (b.ahead? n).2 := by
  obtain ⟨L, L', ha, hb, halike, inside⟩ := h.lexers
  obtain ⟨hanswer, hbuffer⟩ := ha.nth? inside (n - 1)
  obtain ⟨hanswer', hbuffer'⟩ := hb.nth? (halike.isInside inside) (n - 1)
  refine ⟨hanswer.trans (by rw [← halike.solid]; exact hanswer'.symm), h.reading, h.origin,
    h.originLineBreak, ?_, L, L', hbuffer, hbuffer', halike, inside⟩
  have htext : (a.ahead? n).2.text = a.text := by
    show (a.buffer.nth? (n - 1)).2.lexer.source = a.buffer.lexer.source
    rw [hbuffer.source, ha.source]
  rw [htext]
  exact h.originInside

/-- Both answer the same kind. -/
theorem nthKind (h : Alike a b) (n : Nat) :
    (a.nthKind n).1 = (b.nthKind n).1 ∧ Alike (a.nthKind n).2 (b.nthKind n).2 := by
  unfold TokenSource.nthKind
  split
  · exact ⟨h.kind, h⟩
  · obtain ⟨hanswer, hafter⟩ := h.ahead? n
    exact ⟨by dsimp only; rw [hanswer], hafter⟩

/-- Both answer the same range. -/
theorem nthRange (h : Alike a b) (n : Nat) :
    (a.nthRange n).1 = (b.nthRange n).1 ∧ Alike (a.nthRange n).2 (b.nthRange n).2 := by
  unfold TokenSource.nthRange
  split
  · exact ⟨h.range, h⟩
  · obtain ⟨hanswer, hafter⟩ := h.ahead? n
    exact ⟨by dsimp only; rw [hanswer, hafter.range], hafter⟩

/-- Both answer the same about a line break in front of the token. -/
theorem nthAfterLineBreak (h : Alike a b) (n : Nat) :
    (a.nthAfterLineBreak n).1 = (b.nthAfterLineBreak n).1 ∧
      Alike (a.nthAfterLineBreak n).2 (b.nthAfterLineBreak n).2 := by
  unfold TokenSource.nthAfterLineBreak
  split
  · exact ⟨congrArg Reading.afterLineBreak h.reading, h⟩
  · obtain ⟨hanswer, hafter⟩ := h.ahead? n
    exact ⟨by dsimp only; rw [hanswer], hafter⟩

/-- Both answer the same about trivia in front of the token. -/
theorem nthAfterTrivia (h : Alike a b) (n : Nat) :
    (a.nthAfterTrivia n).1 = (b.nthAfterTrivia n).1 ∧
      Alike (a.nthAfterTrivia n).2 (b.nthAfterTrivia n).2 := by
  unfold TokenSource.nthAfterTrivia
  split
  · exact ⟨congrArg Reading.afterTrivia h.reading, h⟩
  · obtain ⟨hrange, h⟩ := h.nthRange n
    obtain ⟨hbefore, h⟩ := h.nthRange (n - 1)
    exact ⟨by dsimp only; rw [hrange, hbefore], h⟩

/-- All operations answer the same, and lead to the same tokens. -/
theorem step (h : Alike a b) (step : Step) :
    a.answer? step = b.answer? step ∧ Alike (a.step step) (b.step step) := by
  cases step with
  | bump context => exact ⟨rfl, h.bump context⟩
  | relex context => exact ⟨rfl, h.relex context⟩
  | ask n =>
    unfold TokenSource.answer? TokenSource.step TokenSource.nth
    by_cases hn : n < 0
    · simpa only [if_pos hn, true_and] using h
    · simp only [if_neg hn]
      obtain ⟨hkind, h⟩ := h.nthKind n.toNat
      obtain ⟨hrange, h⟩ := h.nthRange n.toNat
      obtain ⟨hbreak, h⟩ := h.nthAfterLineBreak n.toNat
      obtain ⟨htrivia, h⟩ := h.nthAfterTrivia n.toNat
      exact ⟨by simp only [Except.map, hkind, hrange, hbreak, htrivia], h⟩

/-- So the tokens to come are the same. -/
theorem watch_reading (h : Alike a b) (steps : List Step) :
    watch TokenSource.reading steps a = watch TokenSource.reading steps b := by
  induction steps generalizing a b with
  | nil => simp only [watch, h.reading]
  | cons first steps ih =>
    obtain ⟨hanswer, hstep⟩ := h.step first
    simp only [watch, h.reading, hanswer, ih hstep]

end Alike

/-! ### Token sources with the same record -/

/-- The question whether a line break stands in front of a token moves neither
the source nor its token. -/
theorem StandsAt.nthAfterLineBreak (h : StandsAt seam source) (inside : seam.lexer.IsInside)
    (n : Nat) : StandsAt seam (source.nthAfterLineBreak n).2 ∧
      (source.nthAfterLineBreak n).2.current = source.current := by
  unfold TokenSource.nthAfterLineBreak
  split
  · exact ⟨h, rfl⟩
  · exact (h.ahead? inside n).2

/-- A question leaves the token source at its seam and at its token. -/
theorem StandsAt.ask (h : StandsAt seam source) (inside : seam.lexer.IsInside) (n : Int) :
    StandsAt seam (source.step (.ask n)) ∧ (source.step (.ask n)).current = source.current := by
  unfold TokenSource.step TokenSource.nth
  by_cases hn : n < 0
  · simpa only [if_pos hn, and_true] using h
  · simp only [if_neg hn]
    obtain ⟨-, h, hkind⟩ := h.nthKind inside n.toNat
    obtain ⟨-, h, hrange⟩ := h.nthRange inside n.toNat
    obtain ⟨h, hbreak⟩ := h.nthAfterLineBreak inside n.toNat
    obtain ⟨-, h, htrivia⟩ := h.nthAfterTrivia inside n.toNat
    exact ⟨h, by rw [htrivia, hbreak, hrange, hkind]⟩

/-- The token source stands at a seam, and has all that this lexer
reported and this trivia. -/
def Retains (L : Lexer) (trivia : Array Trivia) (source : TokenSource) : Prop :=
  ∃ seam, seam.lexer.IsInside ∧ StandsAt seam source ∧
    L.Extends (seam.pass source.current.context).lexer ∧
    trivia.toList <+: (seam.pass source.current.context).trivia.toList

/-- The operation drops nothing that the checkpoint counts. Only one that
reads the current token anew drops something: what was recorded behind
the token before. -/
def Leaves (saved : Checkpoint) (source : TokenSource) : Step → Prop
  | .relex context => context = source.current.context ∨
    saved.triviaCount ≤ source.current.originTrivia ∧
      saved.lexer.diagnosticCount ≤ source.current.origin.diagnosticCount
  | _ => True

/-- None of the operations drops anything that the checkpoint counts. -/
def Spares (saved : Checkpoint) : List Step → TokenSource → Prop
  | [], _ => True
  | step :: steps, source => source.Leaves saved step ∧ Spares saved steps (source.step step)

/-- An operation keeps what was recorded up to a checkpoint, if it drops nothing
that the checkpoint counts. The lexer and the trivia of `Retains` are those at
the checkpoint, which the two equations say. -/
theorem Retains.step {trivia : Array Trivia} {step : Step} (saved : Checkpoint)
    (h : Retains L trivia source) (hdiagnostics : saved.lexer.diagnosticCount = L.diagnostics.size)
    (htrivia : saved.triviaCount = trivia.size) (hleaves : source.Leaves saved step) :
    Retains L trivia (source.step step) := by
  obtain ⟨seam, inside, hstands, hlater, hprefix⟩ := h
  cases step with
  | bump context =>
    by_cases hkind : source.current.kind = .eof
    · show Retains L trivia (source.bump context)
      rw [TokenSource.bump, if_pos hkind]
      exact ⟨seam, inside, hstands, hlater, hprefix⟩
    · have inside' := Seam.isInside_pass inside source.current.context
      exact ⟨_, inside', hstands.bump inside hkind,
        hlater.trans (Seam.reads_leg inside' _).extends_,
        hprefix.trans (Seam.trivia_prefix_along [_])⟩
  | relex context =>
    by_cases hcontext : context = source.current.context
    · show Retains L trivia (source.relex context)
      rw [TokenSource.relex, if_pos hcontext]
      exact ⟨seam, inside, hstands, hlater, hprefix⟩
    · obtain ⟨htriviaCount, hdiagnosticCount⟩ := hleaves.resolve_left hcontext
      rw [htrivia, hstands.current] at htriviaCount
      rw [hdiagnostics, hstands.current] at hdiagnosticCount
      -- What is counted was recorded in front of the seam.
      have hpass := (Seam.reads_leg inside source.current.context).extends_
      have hfront : L.Extends seam.lexer :=
        ⟨hpass.source.symm.trans hlater.source, hpass.file.symm.trans hlater.file,
          List.prefix_of_prefix_length_le hlater.diagnostics hpass.diagnostics hdiagnosticCount⟩
      have hfrontTrivia : trivia.toList <+: seam.trivia.toList :=
        List.prefix_of_prefix_length_le hprefix (Seam.trivia_prefix_along [_]) htriviaCount
      exact ⟨seam, inside, hstands.relex inside,
        hfront.trans (Seam.reads_leg inside _).extends_,
        hfrontTrivia.trans (Seam.trivia_prefix_along [_])⟩
  | ask n =>
    obtain ⟨hstands', hcurrent⟩ := hstands.ask inside n
    refine ⟨seam, inside, hstands', ?_⟩
    rw [hcurrent]
    exact ⟨hlater, hprefix⟩

/-- What is retained by every operation is retained by all of them. -/
theorem Retains.run {trivia : Array Trivia} {steps : List Step} (saved : Checkpoint)
    (h : Retains L trivia source) (hdiagnostics : saved.lexer.diagnosticCount = L.diagnostics.size)
    (htrivia : saved.triviaCount = trivia.size) (hspares : Spares saved steps source) :
    Retains L trivia (source.run steps) := by
  induction steps generalizing source with
  | nil => exact h
  | cons first steps ih =>
    exact ih (h.step saved hdiagnostics htrivia hspares.1) hspares.2

/-- Where nothing was recorded, nothing can be dropped. -/
theorem Spares.of_zero {saved : Checkpoint} (htrivia : saved.triviaCount = 0)
    (hdiagnostics : saved.lexer.diagnosticCount = 0) (steps : List Step) (source : TokenSource) :
    Spares saved steps source := by
  induction steps generalizing source with
  | nil => trivial
  | cons first steps ih =>
    refine ⟨?_, ih _⟩
    cases first with
    | relex context => exact .inr ⟨by omega, by omega⟩
    | _ => trivial

/-- A token source is in the state of a checkpoint again, if nothing was
dropped that the checkpoint counts. -/
theorem Retains.rewind {saved : Checkpoint} {trivia : Array Trivia} (h : Retains L trivia source)
    (hlexer : saved.lexer = L.checkpoint) (htrivia : saved.triviaCount = trivia.size) :
    source.rewind saved = ⟨.ofLexer L, trivia, saved.current⟩ := by
  obtain ⟨seam, inside, hstands, hlater, hprefix⟩ := h
  have hcut : source.trivia.take trivia.size = trivia := by
    apply Array.toList_inj.mp
    rw [hstands.trivia, Array.take_eq_extract, Array.toList_extract, List.extract_eq_take_drop,
      Nat.sub_zero, List.drop_zero]
    exact (List.prefix_iff_eq_take.mp hprefix).symm
  unfold TokenSource.rewind
  rw [hlexer, htrivia, hstands.buffer.rewind hlater, hcut]

/-- The two token sources stand at the same seam and at the same token. -/
def Twins (a b : TokenSource) : Prop :=
  ∃ seam, seam.lexer.IsInside ∧ StandsAt seam a ∧ StandsAt seam b ∧ a.current = b.current

namespace Twins

/-- Twins are alike. -/
theorem alike (h : Twins a b) : Alike a b := by
  obtain ⟨seam, inside, ha, hb, hcurrent⟩ := h
  have horigin : a.current.origin = seam.lexer.checkpoint := by rw [ha.current]; rfl
  refine ⟨congrArg Current.reading hcurrent, by rw [hcurrent], by rw [hcurrent], ?_, _, _,
    ha.buffer, hcurrent ▸ hb.buffer, ⟨rfl, rfl, rfl⟩, Seam.isInside_pass inside _⟩
  have htext : a.text = seam.lexer.source :=
    ha.buffer.source.trans (Seam.reads_leg inside _).extends_.source
  rw [horigin, htext]
  exact inside

/-- Twins show the same: their records are equal up to the current token. -/
theorem sight (h : Twins a b) : a.sight = b.sight := by
  obtain ⟨seam, -, ha, hb, hcurrent⟩ := h
  have hdrop := ha.buffer.drop
  have hdrop' := hb.buffer.drop
  unfold TokenSource.sight TokenSource.reading TokenSource.finish Lookahead.finish
  dsimp only
  rw [hdrop, hdrop', ha.trivia, hb.trivia, hcurrent]

/-- Twins stay twins over an operation. A step forward records the same for
both, since both stand at the same seam. -/
theorem step (h : Twins a b) (step : Step) : Twins (a.step step) (b.step step) := by
  obtain ⟨seam, inside, ha, hb, hcurrent⟩ := h
  -- Standing at a seam, the context determines the current token.
  have hsame : ∀ {seam : Seam} {a b : TokenSource}, seam.lexer.IsInside → StandsAt seam a →
      StandsAt seam b → a.current.context = b.current.context → Twins a b :=
    fun inside ha hb hcontext => ⟨_, inside, ha, hb, by rw [ha.current, hb.current, hcontext]⟩
  cases step with
  | bump context =>
    show Twins (a.bump context) (b.bump context)
    by_cases hkind : a.current.kind = .eof
    · rw [TokenSource.bump, if_pos hkind, TokenSource.bump, if_pos (hcurrent ▸ hkind)]
      exact ⟨seam, inside, ha, hb, hcurrent⟩
    · have hb' : StandsAt _ (b.bump context) := hb.bump inside (hcurrent ▸ hkind)
      rw [← hcurrent] at hb'
      refine hsame (Seam.isInside_pass inside _) (ha.bump inside hkind) hb' ?_
      rw [TokenSource.bump, if_neg hkind, TokenSource.bump, if_neg (hcurrent ▸ hkind)]
      rfl
  | relex context =>
    exact hsame inside (ha.relex inside) (hb.relex inside) (context_relex.trans context_relex.symm)
  | ask n =>
    obtain ⟨ha', hcurrent'⟩ := ha.ask inside n
    obtain ⟨hb', hcurrent''⟩ := hb.ask inside n
    exact ⟨seam, inside, ha', hb', by rw [hcurrent', hcurrent'', hcurrent]⟩

/-- So they are seen to do the same. -/
theorem watch_sight (h : Twins a b) (steps : List Step) :
    watch TokenSource.sight steps a = watch TokenSource.sight steps b := by
  induction steps generalizing a b with
  | nil => simp only [watch, h.sight]
  | cons first steps ih =>
    simp only [watch, h.sight, (h.alike.step first).1, ih (h.step first)]

end Twins

/-! ### Going back -/

/-- At the start nothing is recorded that could be dropped. -/
theorem retains_ofSource (text file : Text) (context : LexContext) :
    Retains (.ofSource text file) #[] (ofLexer (.ofSource text file) context) := by
  have inside : (Seam.ofSource text file).lexer.IsInside := Nat.zero_le _
  exact ⟨_, inside, standsAt_ofLexer text file, (Seam.reads_leg inside _).extends_,
    List.nil_prefix⟩

/-- Going back restores the tokens to come, whatever was dropped. -/
theorem alike_rewind {other : TokenSource} {trivia trivia' : Array Trivia}
    (h : Retains L trivia source) (h' : Retains L trivia' other) :
    Alike (other.rewind source.checkpoint) source := by
  obtain ⟨seam, inside, hstands, hlater, -⟩ := h
  obtain ⟨seam', inside', hstands', hlater', -⟩ := h'
  have hpass := Seam.reads_leg inside source.current.context
  have hpass' := Seam.reads_leg inside' other.current.context
  have htext : other.text = seam.lexer.source :=
    calc other.text = (seam'.pass other.current.context).lexer.source := hstands'.buffer.source
      _ = (seam.pass source.current.context).lexer.source :=
        hlater'.source.trans hlater.source.symm
      _ = seam.lexer.source := hpass.extends_.source
  have horigin : source.current.origin = seam.lexer.checkpoint := by rw [hstands.current]; rfl
  have hhere : source.buffer.here = (seam.pass source.current.context).lexer.checkpoint :=
    hstands.buffer.here
  refine ⟨rfl, rfl, rfl, ?_, other.buffer.lexer.rewind source.buffer.here, _,
    Lookahead.readsFrom_ofLexer _, hstands.buffer, ?_, ?_⟩
  · show source.current.origin.position ≤ other.text.length
    rw [horigin, htext]
    exact inside
  · rw [hhere]
    exact ⟨hpass.extends_.source.trans htext.symm, rfl, rfl⟩
  · show source.buffer.here.position ≤ other.text.length
    rw [hhere, htext, ← hpass.extends_.source]
    exact Seam.isInside_pass inside _

/-- Going back restores what was recorded, if none of it was dropped. -/
theorem twins_rewind {steps : List Step} {trivia : Array Trivia} (h : Retains L trivia source)
    (hspares : Spares source.checkpoint steps source) :
    Twins ((source.run steps).rewind source.checkpoint) source := by
  obtain ⟨seam, inside, hstands, -, -⟩ := h
  have hlexer : source.checkpoint.lexer = (seam.pass source.current.context).lexer.checkpoint :=
    hstands.buffer.here
  have hnow : Retains (seam.pass source.current.context).lexer source.trivia source :=
    ⟨seam, inside, hstands, .refl _, hstands.trivia ▸ List.prefix_refl _⟩
  have hlater := hnow.run source.checkpoint (by rw [hlexer]; rfl) rfl hspares
  rw [hlater.rewind hlexer rfl]
  exact ⟨seam, inside, ⟨hstands.current, hstands.trivia, Lookahead.readsFrom_ofLexer _⟩, hstands, rfl⟩

/-- Going back to a checkpoint restores the current token, and all tokens
and answers to come. It restores the trivia and the diagnostics besides
if no operation since the checkpoint dropped any that the checkpoint
counts. -/
theorem watch_rewind (text file : Text) (context : LexContext) (before after further : List Step) :
    let here := (ofLexer (.ofSource text file) context).run before
    let back := (here.run after).rewind here.checkpoint
    watch reading further back = watch reading further here ∧
      (Spares here.checkpoint after here → watch sight further back = watch sight further here) := by
  intro here back
  have hretains : ∀ (steps : List Step), Retains (.ofSource text file) #[]
      ((ofLexer (.ofSource text file) context).run steps) := fun steps =>
    let start : Checkpoint := ⟨(Lexer.ofSource text file).checkpoint, 0, here.current⟩
    (retains_ofSource text file context).run start rfl rfl (.of_zero rfl rfl steps _)
  have hafter : Retains (.ofSource text file) #[] (here.run after) := by
    have hall := hretains (before ++ after)
    rwa [run, List.foldl_append] at hall
  exact ⟨(alike_rewind (hretains before) hafter).watch_reading further,
    fun hspares => (twins_rewind (hretains before) hspares).watch_sight further⟩

/-- Behind the second token of `a b c` the third is read anew as text. That
drops the second space, which was not counted. -/
theorem watch_rewind_behind_token :
    let here := (ofLexer (.ofSource "a b c" "f")).run [.bump .normal]
    let after : List Step := [.ask 1, .bump .tag, .relex .text, .bump .normal]
    Spares here.checkpoint after here ∧
      watch sight [.bump .text] ((here.run after).rewind here.checkpoint)
        = watch sight [.bump .text] here := by
  intro here after
  have hspares : Spares here.checkpoint after here := by
    refine ⟨trivial, trivial, .inr ?_, trivial, trivial⟩
    decide
  exact ⟨hspares, (watch_rewind "a b c" "f" .normal [.bump .normal] after [.bump .text]).2 hspares⟩

/-- The second token of `a b` read anew as text starts with the space
in front of it. Going back then does not bring the space back as
trivia. -/
theorem watch_rewind_ne :
    let here := (ofLexer (.ofSource "a b" "f")).run [.bump .normal]
    let back := (here.run [.relex .text]).rewind here.checkpoint
    watch sight [] back ≠ watch sight [] here := by
  intro here back h
  have htrivia : back.trivia = here.trivia := congrArg Sight.trivia (Prod.mk.inj (List.cons.inj h).1).1
  have hback : back.trivia.size = 0 := by decide
  have hhere : here.trivia.size = 1 := by decide
  rw [htrivia, hhere] at hback
  cases hback

end TokenSource

end MarkupSyntax
