import MarkupSyntax.Proofs.Token.Rewind

/-!
# `MarkupSyntax.Proofs.Token.Relex`: reading a token anew in another context

Who reads the next token in one context, looks ahead and then reads the
token anew in another context, has the token source of one who read it
in the other context at once (`Session.watch_bump_relex`). What came
before does not matter: the token source may have gone back to
checkpoints whose trivia or diagnostics were dropped, for `relex` goes
back no further than the token before, and what was recorded up to
there is still there (`twins_bump_relex`).

The two token sources may differ in what they have read ahead. This is
never to be seen, but for one thing: the diagnostics of tokens that were
read ahead stand behind those of the current token, and a checkpoint
from before that counts more diagnostics than are left takes some of
them for its own (`Session.watch_bump_relex_ne`). So the theorem asks
that the first time that somebody goes back, it is to a checkpoint that
counts no more diagnostics than there are up to the current token. The
checkpoints taken since do (`Session.ReturnsWithin.of_own_marks`).
-/

set_option autoImplicit false

namespace MarkupSyntax

/-- Going back does not depend on diagnostics that the checkpoint does
not count. -/
theorem Lexer.Extends.rewind {L L' : Lexer} {checkpoint : Lexer.Checkpoint} (h : L.Extends L')
    (hcount : checkpoint.diagnosticCount ≤ L.diagnostics.size) :
    L'.rewind checkpoint = L.rewind checkpoint := by
  have hdiagnostics : L'.diagnostics.take checkpoint.diagnosticCount
      = L.diagnostics.take checkpoint.diagnosticCount := by
    obtain ⟨later, hlater⟩ := h.diagnostics
    apply Array.toList_inj.mp
    simp [← hlater, List.take_append_of_le_length hcount]
  unfold Lexer.rewind
  rw [h.source, h.file, hdiagnostics]

namespace TokenSource

variable {a b source : TokenSource} {L : Lexer} {seam : Seam}

/-! ### Token sources of a text -/

/-- A question changes no more than what is read ahead, and keeps of it
what reading ahead keeps. -/
theorem exists_step_ask_eq {P : Lookahead → Prop}
    (keeps : ∀ buffer n, P buffer → P (buffer.nth? n).2) (h : P source.buffer) (n : Int) :
    ∃ buffer, P buffer ∧ source.step (.ask n) = { source with buffer } := by
  -- A view is put together from four questions, and each of them may read on. `P` is any property
  -- of the buffer that reading on keeps.
  have hkind : ∀ (source : TokenSource) n, P source.buffer →
      ∃ buffer, P buffer ∧ (source.nthKind n).2 = { source with buffer } := by
    intro source n h
    unfold nthKind
    split
    · exact ⟨_, h, rfl⟩
    · exact ⟨_, keeps _ _ h, rfl⟩
  have hrange : ∀ (source : TokenSource) n, P source.buffer →
      ∃ buffer, P buffer ∧ (source.nthRange n).2 = { source with buffer } := by
    intro source n h
    unfold nthRange
    split
    · exact ⟨_, h, rfl⟩
    · exact ⟨_, keeps _ _ h, rfl⟩
  have hbreak : ∀ (source : TokenSource) n, P source.buffer →
      ∃ buffer, P buffer ∧ (source.nthAfterLineBreak n).2 = { source with buffer } := by
    intro source n h
    unfold nthAfterLineBreak
    split
    · exact ⟨_, h, rfl⟩
    · exact ⟨_, keeps _ _ h, rfl⟩
  have htrivia : ∀ (source : TokenSource) n, P source.buffer →
      ∃ buffer, P buffer ∧ (source.nthAfterTrivia n).2 = { source with buffer } := by
    intro source n h
    unfold nthAfterTrivia
    split
    · exact ⟨_, h, rfl⟩
    · obtain ⟨buffer, h, hsource⟩ := hrange source n h
      obtain ⟨buffer', h, hsource'⟩ := hrange { source with buffer } (n - 1) h
      exact ⟨buffer', h, by simp only [hsource, hsource']⟩
  unfold step nth
  by_cases hn : n < 0
  · exact ⟨_, h, by simp only [if_pos hn]⟩
  · simp only [if_neg hn]
    obtain ⟨_, h, hsource⟩ := hkind source n.toNat h
    rw [hsource]
    obtain ⟨_, h, hsource⟩ := hrange { source with buffer := _ } n.toNat h
    rw [hsource]
    obtain ⟨_, h, hsource⟩ := hbreak { source with buffer := _ } n.toNat h
    rw [hsource]
    exact htrivia { source with buffer := _ } n.toNat h

/-- The token source stands somewhere in this text, whatever it has
recorded. -/
structure Roams (text : Text) (source : TokenSource) : Prop where
  reads : ∃ L, Lookahead.ReadsFrom L source.buffer ∧ L.source = text ∧ L.IsInside
  origin : source.current.origin.position ≤ text.length

namespace Roams

variable {text : Text}

/-- The lexer behind the buffer reads the text in which the source stands. -/
theorem lexer_source (h : Roams text source) : source.buffer.lexer.source = text := by
  obtain ⟨L, hreads, rfl, -⟩ := h.reads
  exact hreads.source

/-- After a step forward from a lexer of the text the source stands in the text:
the lexer that it has left is where its token starts. -/
theorem advanceFrom {buffer : Lookahead} (trivia : Array Trivia)
    (h : Lookahead.ReadsFrom L buffer) (inside : L.IsInside) (context : LexContext) :
    Roams L.source (advanceFrom buffer trivia context) := by
  have hstands := @standsAt_advanceFrom ⟨L, trivia⟩ context buffer h inside
  have hpass := @Seam.reads_leg ⟨L, trivia⟩ inside context
  refine ⟨⟨_, hstands.buffer, hpass.extends_.source, Seam.isInside_pass inside _⟩, ?_⟩
  rw [hstands.current]
  exact inside

/-- Going back to a place in the text. -/
theorem readsFrom_rewind (h : Roams text source) {checkpoint : Lexer.Checkpoint}
    (inside : checkpoint.position ≤ text.length) :
    ∃ L, Lookahead.ReadsFrom L (source.buffer.rewind checkpoint) ∧ L.source = text ∧
      L.IsInside := by
  refine ⟨_, Lookahead.readsFrom_ofLexer _, h.lexer_source, ?_⟩
  show checkpoint.position ≤ source.buffer.lexer.source.length
  rw [h.lexer_source]
  exact inside

/-- No operation leaves the text. -/
theorem step (h : Roams text source) (step : Step) : Roams text (source.step step) := by
  cases step with
  | bump context =>
    show Roams text (source.bump context)
    unfold bump
    split
    · exact h
    · obtain ⟨L, hreads, rfl, inside⟩ := h.reads
      exact advanceFrom _ hreads inside context
  | relex context =>
    show Roams text (source.relex context)
    unfold relex
    split
    · exact h
    · obtain ⟨L, hreads, rfl, inside⟩ := h.readsFrom_rewind h.origin
      exact advanceFrom _ hreads inside context
  | ask n =>
    obtain ⟨buffer, hreads, hsource⟩ := exists_step_ask_eq
      (P := fun buffer => ∃ L, Lookahead.ReadsFrom L buffer ∧ L.source = text ∧ L.IsInside)
      (fun _ n ⟨L, hreads, hL, inside⟩ => ⟨L, (hreads.nth? inside n).2, hL, inside⟩) h.reads n
    rw [hsource]
    exact ⟨hreads, h.origin⟩

/-- Asking for the trivia and the diagnostics does not leave the text. It drops
what was read ahead. -/
theorem finish (h : Roams text source) : Roams text source.finish.2.2 := by
  obtain ⟨L, hreads, hsource, inside⟩ := h.reads
  refine ⟨⟨L, ?_, hsource, inside⟩, h.origin⟩
  show Lookahead.ReadsFrom L source.buffer.drop
  rw [hreads.drop]
  exact Lookahead.readsFrom_ofLexer L

end Roams

/-! ### Twins -/

/-- Looking ahead leaves the token source where it stands. -/
theorem StandsAt.run_asks (h : StandsAt seam source) (inside : seam.lexer.IsInside)
    (questions : List Int) : StandsAt seam (source.run (questions.map .ask)) := by
  induction questions generalizing source with
  | nil => exact h
  | cons n questions ih => exact ih (h.ask inside n).1

/-- Reading the next token in one context, looking ahead and reading it
anew in another is reading it in the other context. Both ways end at the
place behind the token before, and there the context determines the
token. -/
theorem twins_bump_relex (hreads : Lookahead.ReadsFrom L source.buffer) (inside : L.IsInside)
    (hkind : source.current.kind ≠ .eof) (context context' : LexContext) (questions : List Int) :
    Twins (((source.bump context).run (questions.map .ask)).relex context')
      (source.bump context') := by
  have hstands : ∀ context, StandsAt ⟨L, source.trivia⟩ (source.bump context) := by
    intro context
    unfold bump
    rw [if_neg hkind]
    exact @standsAt_advanceFrom ⟨L, source.trivia⟩ context source.buffer hreads inside
  have hrelexed : StandsAt ⟨L, source.trivia⟩
      (((source.bump context).run (questions.map .ask)).relex context') :=
    ((hstands context).run_asks inside questions).relex inside
  have hcontext : (source.bump context').current.context = context' := by
    unfold bump
    rw [if_neg hkind]
    rfl
  refine ⟨_, inside, hrelexed, hstands context', ?_⟩
  rw [hrelexed.current, (hstands context').current, context_relex, hcontext]

/-- The diagnostics up to the current token are those of the seam behind
it. -/
theorem StandsAt.diagnostics_sight (h : StandsAt seam source) :
    source.sight.diagnostics = (seam.pass source.current.context).lexer.diagnostics := by
  show source.buffer.drop.lexer.diagnostics = _
  rw [h.buffer.drop]
  rfl

/-- Asking for the trivia and the diagnostics leaves the source at its seam. -/
theorem StandsAt.finish (h : StandsAt seam source) : StandsAt seam source.finish.2.2 := by
  refine ⟨h.current, h.trivia, ?_⟩
  show Lookahead.ReadsFrom _ source.buffer.drop
  rw [h.buffer.drop]
  exact Lookahead.readsFrom_ofLexer _

namespace Twins

/-- Twins have the same checkpoint: it counts what is recorded up to the current
token, and what was read ahead plays no part. -/
theorem checkpoint (h : Twins a b) : a.checkpoint = b.checkpoint := by
  obtain ⟨seam, -, ha, hb, hcurrent⟩ := h
  unfold TokenSource.checkpoint
  rw [ha.buffer.here, hb.buffer.here, ha.trivia, hb.trivia, hcurrent]

/-- Twins stay twins when both are asked for the trivia and the diagnostics. -/
theorem finish (h : Twins a b) : Twins a.finish.2.2 b.finish.2.2 := by
  obtain ⟨seam, inside, ha, hb, hcurrent⟩ := h
  exact ⟨seam, inside, ha.finish, hb.finish, hcurrent⟩

/-- What differs is read ahead, and in another context nothing of that
is left. -/
theorem relex_eq (h : Twins a b) {context : LexContext} (hcontext : context ≠ b.current.context) :
    a.relex context = b.relex context := by
  obtain ⟨seam, inside, ha, hb, hcurrent⟩ := h
  have horigin : b.current.origin = seam.lexer.checkpoint := by rw [hb.current]; rfl
  have hpass := (Seam.reads_leg inside b.current.context).extends_
  have hbuffer := ha.buffer
  have htrivia := ha.trivia
  rw [hcurrent] at hbuffer htrivia
  unfold TokenSource.relex
  rw [hcurrent, if_neg hcontext, if_neg hcontext, horigin, hbuffer.rewind hpass,
    hb.buffer.rewind hpass, htrivia, hb.trivia]

/-- Going back leaves nothing that was read ahead, unless diagnostics of
it are counted. -/
theorem rewind_eq (h : Twins a b) {saved : Checkpoint}
    (hcount : saved.lexer.diagnosticCount ≤ b.sight.diagnostics.size) :
    a.rewind saved = b.rewind saved := by
  obtain ⟨seam, -, ha, hb, hcurrent⟩ := h
  rw [hb.diagnostics_sight] at hcount
  have hbuffer : ∀ {L buffer}, Lookahead.ReadsFrom L buffer →
      saved.lexer.diagnosticCount ≤ L.diagnostics.size →
      buffer.rewind saved.lexer = .ofLexer (L.rewind saved.lexer) := by
    rintro L _ ⟨count, rfl⟩ hcount
    exact congrArg Lookahead.ofLexer ((Lexer.extends_stream count).rewind hcount)
  unfold TokenSource.rewind
  rw [hbuffer (hcurrent ▸ ha.buffer) hcount, hbuffer hb.buffer hcount, ha.trivia, hb.trivia,
    hcurrent]

end Twins

/-! ### Sessions -/

/-- An operation of a token source and of the checkpoints taken from it. -/
inductive Move where
  | step (step : Step)
  /-- Takes a checkpoint. -/
  | mark
  /-- Goes back to the checkpoint in this place, the first one being `0`. -/
  | back (place : Nat)
  /-- Asks for the trivia and the diagnostics up to the current token. -/
  | finish

/-- A token source with the checkpoints taken from it. -/
structure Session where
  source : TokenSource
  marks : List Checkpoint := []

namespace Session

variable {here here' : Session} {text : Text}

/-- A session at the first token of a text, without checkpoints. -/
def ofSource (text file : Text) (context : LexContext) : Session :=
  { source := ofLexer (.ofSource text file) context }

/-- The session after an operation. Going back to a checkpoint that was not
taken changes nothing. -/
def move (here : Session) : Move → Session
  | .step step => { here with source := here.source.step step }
  | .mark => { here with marks := here.marks ++ [here.source.checkpoint] }
  | .back place =>
    match here.marks[place]? with
    | some saved => { here with source := here.source.rewind saved }
    | none => here
  | .finish => { here with source := here.source.finish.2.2 }

/-- The session after some operations. -/
def run (moves : List Move) (here : Session) : Session := moves.foldl move here

/-- What a move answers, apart from what is to be seen anyway. -/
def answer? (here : Session) : Move → Option (Except Fault View)
  | .step step => here.source.answer? step
  | _ => none

/-- What is to be seen before, between and after some moves, with the
answers of the moves. -/
def watch : List Move → Session → List (Sight × Option (Except Fault View))
  | [], here => [(here.source.sight, none)]
  | move :: moves, here => (here.source.sight, here.answer? move) :: watch moves (here.move move)

/-- The first time that the moves go back, it is to a checkpoint that
counts no more diagnostics than there are up to the current token.
Nothing is asked for if the current token is read anew in another
context before. -/
def ReturnsWithin : List Move → Session → Prop
  | [], _ => True
  | .back place :: moves, here =>
    match here.marks[place]? with
    | some saved => saved.lexer.diagnosticCount ≤ here.source.sight.diagnostics.size
    | none => ReturnsWithin moves here
  | .step (.relex context) :: moves, here =>
    context = here.source.current.context → ReturnsWithin moves (here.move (.step (.relex context)))
  | move :: moves, here => ReturnsWithin moves (here.move move)

/-- The condition is decided by running the moves. The cases are written out
since the instance follows the recursion of `ReturnsWithin`, whose last case
stands for four kinds of moves. -/
instance decidableReturnsWithin :
    (moves : List Move) → (here : Session) → Decidable (here.ReturnsWithin moves)
  | [], _ => inferInstanceAs (Decidable True)
  | .back place :: moves, here =>
    match hplace : here.marks[place]? with
    | some saved =>
      decidable_of_iff (saved.lexer.diagnosticCount ≤ here.source.sight.diagnostics.size)
        (by simp only [ReturnsWithin, hplace])
    | none =>
      have := decidableReturnsWithin moves here
      decidable_of_iff (here.ReturnsWithin moves) (by simp only [ReturnsWithin, hplace])
  | .step (.relex context) :: moves, here =>
    have := decidableReturnsWithin moves (here.move (.step (.relex context)))
    inferInstanceAs (Decidable (_ → _))
  | .step (.bump context) :: moves, here =>
    decidableReturnsWithin moves (here.move (.step (.bump context)))
  | .step (.ask n) :: moves, here => decidableReturnsWithin moves (here.move (.step (.ask n)))
  | .mark :: moves, here => decidableReturnsWithin moves (here.move .mark)
  | .finish :: moves, here => decidableReturnsWithin moves (here.move .finish)

/-! Any moves stay in the text, also those that go back to a checkpoint
whose trivia or diagnostics were dropped. -/

/-- The token source and the checkpoints stand in this text. -/
structure Roams (text : Text) (here : Session) : Prop where
  source : here.source.Roams text
  marks : ∀ saved ∈ here.marks,
    saved.lexer.position ≤ text.length ∧ saved.current.origin.position ≤ text.length

/-- No move leaves the text, provided the checkpoints were taken in it. A new
checkpoint is taken where the session stands. -/
theorem Roams.move (h : here.Roams text) (move : Move) : (here.move move).Roams text := by
  cases move with
  | step step => exact ⟨h.source.step step, h.marks⟩
  | mark =>
    refine ⟨h.source, ?_⟩
    intro saved hmem
    rcases List.mem_append.mp hmem with hmem | hmem
    · exact h.marks saved hmem
    · obtain ⟨L, hreads, rfl, inside⟩ := h.source.reads
      rw [List.mem_singleton.mp hmem]
      refine ⟨?_, h.source.origin⟩
      show here.source.buffer.here.position ≤ L.source.length
      rw [hreads.here]
      exact inside
  | back place =>
    cases hplace : here.marks[place]? with
    | none => simpa only [Session.move, hplace] using h
    | some saved =>
      obtain ⟨hlexer, horigin⟩ := h.marks saved (List.mem_of_getElem? hplace)
      simp only [Session.move, hplace]
      exact ⟨⟨h.source.readsFrom_rewind hlexer, horigin⟩, h.marks⟩
  | finish => exact ⟨h.source.finish, h.marks⟩

/-- No moves leave the text, by induction on the moves. -/
theorem Roams.run (h : here.Roams text) (moves : List Move) : (here.run moves).Roams text := by
  induction moves generalizing here with
  | nil => exact h
  | cons first moves ih => exact ih (h.move first)

/-- A session starts in its text. -/
theorem roams_ofSource (text file : Text) (context : LexContext) :
    (ofSource text file context).Roams text :=
  ⟨.advanceFrom _ (Lookahead.readsFrom_ofLexer (.ofSource text file)) (Nat.zero_le _) context,
    fun _ hmem => nomatch hmem⟩

/-! ### The simulation -/

/-- The same checkpoints, and twins. -/
structure Twins (here here' : Session) : Prop where
  source : TokenSource.Twins here.source here'.source
  marks : here.marks = here'.marks

/-- Twins stay twins, unless they go back. -/
theorem Twins.move (h : Twins here here') {move : Move} (hmove : ∀ place, move ≠ .back place) :
    Twins (here.move move) (here'.move move) := by
  cases move with
  | step step => exact ⟨h.source.step step, h.marks⟩
  | mark => exact ⟨h.source, by simp only [Session.move, h.marks, h.source.checkpoint]⟩
  | back place => exact absurd rfl (hmove place)
  | finish => exact ⟨h.source.finish, h.marks⟩

/-- Twins answer alike: an answer is about tokens, and both have the same ones
to come. -/
theorem Twins.answer?_eq (h : Twins here here') (move : Move) :
    here.answer? move = here'.answer? move := by
  cases move with
  | step step => exact (h.source.alike.step step).1
  | _ => rfl

/-- Twins that read the current token anew in another context are one. -/
theorem Twins.relex_eq (h : Twins here here') {context : LexContext}
    (hcontext : context ≠ here'.source.current.context) :
    here.move (.step (.relex context)) = here'.move (.step (.relex context)) := by
  simp only [Session.move, TokenSource.step, h.source.relex_eq hcontext, h.marks]

/-- Twins that go back are one, unless diagnostics are counted that were
read ahead. -/
theorem Twins.back_eq (h : Twins here here') {place : Nat} {saved : Checkpoint}
    (hplace : here'.marks[place]? = some saved)
    (hcount : saved.lexer.diagnosticCount ≤ here'.source.sight.diagnostics.size) :
    here.move (.back place) = here'.move (.back place) := by
  simp only [Session.move, h.marks, hplace, h.source.rewind_eq hcount]

/-- Twins are seen to do the same. The induction is on the moves; where
the two sessions become one, nothing is left to show. -/
theorem Twins.watch_eq {moves : List Move} (h : Twins here here')
    (hreturns : here'.ReturnsWithin moves) : watch moves here = watch moves here' := by
  induction moves generalizing here here' with
  | nil => simp only [watch, h.source.sight]
  | cons first moves ih =>
    simp only [watch, h.source.sight, h.answer?_eq first, List.cons.injEq, true_and]
    cases first with
    | step step =>
      have hmove : Twins (here.move (.step step)) (here'.move (.step step)) := h.move nofun
      cases step with
      | relex context =>
        by_cases hcontext : context = here'.source.current.context
        · exact ih hmove (hreturns hcontext)
        · rw [h.relex_eq hcontext]
      | bump context => exact ih hmove hreturns
      | ask n => exact ih hmove hreturns
    | mark => exact ih (h.move nofun) hreturns
    | finish => exact ih (h.move nofun) hreturns
    | back place =>
      unfold ReturnsWithin at hreturns
      cases hplace : here'.marks[place]? with
      | none =>
        simp only [hplace] at hreturns
        simpa only [Session.move, h.marks, hplace] using ih h hreturns
      | some saved =>
        simp only [hplace] at hreturns
        rw [h.back_eq hplace hreturns]

/-- Steps alone take no checkpoints and go back to none. -/
theorem run_steps (steps : List Step) :
    here.run (steps.map .step) = { here with source := here.source.run steps } := by
  induction steps generalizing here with
  | nil => rfl
  | cons first steps ih => exact ih

/-- To read the next token in one context, look ahead and read it anew in
another context is seen to be the same as to read it in the other context
at once, whatever is done before and after. -/
theorem watch_bump_relex (text file : Text) (first context context' : LexContext)
    (before : List Move) (questions : List Int) (further : List Move) :
    let here := (ofSource text file first).run before
    let relexed : List Step := .bump context :: questions.map .ask ++ [.relex context']
    let there := here.run [.step (.bump context')]
    here.source.current.kind ≠ .eof → there.ReturnsWithin further →
      watch further (here.run (relexed.map .step)) = watch further there := by
  intro here relexed there hkind hreturns
  obtain ⟨L, hreads, -, inside⟩ := ((roams_ofSource text file first).run before).source.reads
  have htwins := twins_bump_relex hreads inside hkind context context' questions
  refine Twins.watch_eq ⟨?_, ?_⟩ hreturns
  · simp only [relexed, run_steps, TokenSource.run, List.foldl_cons, List.foldl_append,
      List.cons_append, List.foldl_nil]
    exact htwins
  · simp only [run_steps]
    rfl

/-- No diagnostic is lost without going back or reading anew. -/
theorem size_diagnostics_le_move (h : Twins here here) {move : Move}
    (hmove : ∀ place, move ≠ .back place)
    (hrelex : ∀ context, move = .step (.relex context) → context = here.source.current.context) :
    here.source.sight.diagnostics.size ≤ (here.move move).source.sight.diagnostics.size := by
  obtain ⟨seam, inside, hstands, -, -⟩ := h.source
  cases move with
  | step step =>
    show _ ≤ (here.source.step step).sight.diagnostics.size
    cases step with
    | bump context =>
      show _ ≤ (here.source.bump context).sight.diagnostics.size
      by_cases hkind : here.source.current.kind = .eof
      · simp only [bump, if_pos hkind, Nat.le_refl]
      · have inside' := Seam.isInside_pass inside here.source.current.context
        rw [hstands.diagnostics_sight, (hstands.bump inside hkind).diagnostics_sight]
        simpa using (Seam.reads_leg inside' _).extends_.diagnostics.length_le
    | relex context =>
      show _ ≤ (here.source.relex context).sight.diagnostics.size
      simp only [relex, if_pos (hrelex context rfl), Nat.le_refl]
    | ask n =>
      obtain ⟨hasked, hcurrent⟩ := hstands.ask inside n
      refine Nat.le_of_eq ?_
      show _ = (here.source.step (.ask n)).sight.diagnostics.size
      rw [hstands.diagnostics_sight, hasked.diagnostics_sight, hcurrent]
  | mark => exact Nat.le_refl _
  | back place => exact absurd rfl (hmove place)
  | finish =>
    show _ ≤ here.source.finish.2.2.sight.diagnostics.size
    rw [hstands.diagnostics_sight, hstands.finish.diagnostics_sight]
    exact Nat.le_refl _

/-- Checkpoints that count no more diagnostics than there are keep to
that, and so do those that are taken later. -/
theorem ReturnsWithin.of_marks {further : List Move} {count : Nat} (h : Twins here here)
    (hcount : count ≤ here.marks.length)
    (hmarks : ∀ saved ∈ here.marks.drop count,
      saved.lexer.diagnosticCount ≤ here.source.sight.diagnostics.size)
    (hplaces : ∀ place, .back place ∈ further → count ≤ place) : here.ReturnsWithin further := by
  -- The moves keep that no checkpoint from `count` on counts more diagnostics than there are.
  -- This is true of a new one, and the number only grows.
  induction further generalizing here with
  | nil => trivial
  | cons first further ih =>
    have hlater : ∀ place, .back place ∈ further → count ≤ place :=
      fun place hmem => hplaces place (List.mem_cons_of_mem _ hmem)
    have hmove : (∀ place, first ≠ .back place) →
        (∀ context, first = .step (.relex context) → context = here.source.current.context) →
        (here.move first).marks = here.marks → (here.move first).ReturnsWithin further := by
      intro hback hrelex hsame
      refine ih (h.move hback) (hsame ▸ hcount) ?_ hlater
      intro saved hmem
      exact Nat.le_trans (hmarks saved (hsame ▸ hmem)) (size_diagnostics_le_move h hback hrelex)
    cases first with
    | step step =>
      cases step with
      | relex context => exact fun hcontext => hmove nofun (by simpa using hcontext) rfl
      | bump context => exact hmove nofun nofun rfl
      | ask n => exact hmove nofun nofun rfl
    | finish => exact hmove nofun nofun rfl
    | mark =>
      refine ih (h.move nofun) ?_ ?_ hlater
      · simp only [move, List.length_append]
        omega
      · intro saved hmem
        simp only [move, List.drop_append_of_le_length hcount, List.mem_append,
          List.mem_singleton] at hmem
        rcases hmem with hmem | rfl
        · exact hmarks saved hmem
        · obtain ⟨seam, -, hstands, -, -⟩ := h.source
          show here.source.buffer.here.diagnosticCount ≤ here.source.sight.diagnostics.size
          rw [hstands.diagnostics_sight, hstands.buffer.here]
          exact Nat.le_refl _
    | back place =>
      unfold ReturnsWithin
      cases hplace : here.marks[place]? with
      | none => exact ih h hcount hmarks hlater
      | some saved =>
        refine hmarks saved (List.mem_of_getElem? (i := place - count) ?_)
        rw [List.getElem?_drop, Nat.add_sub_cancel' (hplaces place (List.mem_cons_self ..)), hplace]

/-- Going back to one's own checkpoints only is within what the theorem
asks for. -/
theorem ReturnsWithin.of_own_marks {further : List Move} (h : Twins here here)
    (hplaces : ∀ place, .back place ∈ further → here.marks.length ≤ place) :
    here.ReturnsWithin further :=
  .of_marks h (Nat.le_refl _) (by simp) hplaces

/-- The comment in front of `>` is trivia outside text only. -/
theorem watch_bump_relex_comment :
    let here := (ofSource "<a // b\n>" "f" .normal).run [.step (.bump .tag)]
    let relexed : List Step := [.bump .normal, .ask 1, .ask 2, .relex .text]
    let further : List Move := [.mark, .step (.bump .normal), .back 0, .finish]
    watch further (here.run (relexed.map .step)) = watch further (here.run [.step (.bump .text)]) :=
  watch_bump_relex "<a // b\n>" "f" .normal .normal .text [.step (.bump .tag)] [1, 2]
    [.mark, .step (.bump .normal), .back 0, .finish] (by decide +kernel) (by decide +kernel)

/-- The character `#` is an invalid one outside text. The checkpoint at `a`
counts its diagnostic, which is gone when `#a` is read as text. That of
the second `#`, read ahead, takes its place. -/
theorem watch_bump_relex_ne :
    let here := (ofSource "#a<#" "f" .normal).run [.mark, .step (.relex .text)]
    let relexed : List Step := [.bump .normal, .ask 1, .relex .normal]
    here.source.current.kind ≠ .eof ∧
      watch [.back 0] (here.run (relexed.map .step))
        ≠ watch [.back 0] (here.run [.step (.bump .normal)]) := by
  intro here relexed
  refine ⟨by decide +kernel, fun h => ?_⟩
  have hsight := congrArg (fun seen => seen.map (·.1.diagnostics.size)) h
  have hrelexed : (watch [.back 0] (here.run (relexed.map .step))).map (·.1.diagnostics.size)
      = [0, 1] := by decide +kernel
  have hdirect : (watch [.back 0] (here.run [.step (.bump .normal)])).map (·.1.diagnostics.size)
      = [0, 0] := by decide +kernel
  rw [hrelexed, hdirect] at hsight
  cases hsight

end Session

end TokenSource

end MarkupSyntax
