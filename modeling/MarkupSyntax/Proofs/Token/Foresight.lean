import MarkupSyntax.Proofs.Token.Relex

/-!
# `MarkupSyntax.Proofs.Token.Foresight`: what is asked ahead is what comes

A token source answers questions about the token `n` places ahead. The
answer is what is to be seen of the current token after `n` steps in the
normal context (`Session.nth_foresees`): its kind in any case, and its
range, the line break and the trivia in front of it as long as the end of
the source has not been passed.

The two sides come by these facts in different ways. A step passes the
trivia, and knows of a line break because it passed one. A question sees
no trivia: the line break is a flag of the token, and trivia is where the
token before stops short of it. `Lexer.afterLineBreak_landed` and
`Lexer.position_lt_start_landed_iff` bring them together.

Only two things must hold of the token source for that: it stands
somewhere in its text, and its buffer is at its current token
(`Poised`). Any moves keep them, whatever they dropped of the trivia and
the diagnostics (`Session.exists_poised`).
-/

set_option autoImplicit false

namespace MarkupSyntax

namespace Lexer

variable {L : Lexer} {context : LexContext} {fuel : Nat}

/-! ### The trivia in front of a token -/

/-- A token knows of a line break that it is, or that came since the last
token that is no trivia. -/
theorem flags_afterLineBreak_next :
    (L.next context).current.flags.afterLineBreak
      = (L.afterLineBreak || (L.next context).current.kind = .newline) := by
  unfold next
  split <;> simp

/-- Trivia hands this knowledge on. -/
theorem afterLineBreak_next_of_isTrivia (h : (L.next context).current.kind.isTrivia = true) :
    (L.next context).afterLineBreak
      = (L.afterLineBreak || (L.next context).current.kind = .newline) := by
  unfold next at h ⊢
  split at h
  · cases h
  · simp [show _ = true from h]

/-- The flag of a token that is no trivia says whether a line break was
passed on the way to it. The induction is on the fuel, one token for each. -/
theorem afterLineBreak_landed (enough : L.Suffices fuel) :
    (L.landed context fuel).current.flags.afterLineBreak
      = (L.afterLineBreak || (L.passed context fuel).any (·.kind = .newline)) := by
  induction fuel generalizing L with
  | zero => exact absurd enough.2 (Nat.not_lt_zero _)
  | succ fuel ih =>
    unfold landed passed
    by_cases htrivia : (L.next context).current.kind.isTrivia = true
    · simp [htrivia, ih (enough.next htrivia), afterLineBreak_next_of_isTrivia htrivia,
        Bool.or_assoc]
    · have hkind : (L.next context).current.kind ≠ .newline := by
        rintro hkind
        exact htrivia (by rw [hkind]; rfl)
      simp [htrivia, flags_afterLineBreak_next, hkind]

/-- The next token does not start in front of the current one's end. -/
theorem position_le_start_landed (enough : L.Suffices fuel) :
    L.position ≤ (L.landed context fuel).current.range.start := by
  induction fuel generalizing L with
  | zero => exact absurd enough.2 (Nat.not_lt_zero _)
  | succ fuel ih =>
    unfold landed
    by_cases htrivia : (L.next context).current.kind.isTrivia = true
    · rw [if_pos htrivia]
      exact Nat.le_trans position_le_next (ih (enough.next htrivia))
    · simp [htrivia, start_next]

/-- It starts further behind exactly if trivia is passed on the way to it:
no piece of trivia is empty. -/
theorem position_lt_start_landed_iff (enough : L.Suffices fuel) :
    L.position < (L.landed context fuel).current.range.start ↔ L.passed context fuel ≠ [] := by
  cases fuel with
  | zero => exact absurd enough.2 (Nat.not_lt_zero _)
  | succ fuel =>
    unfold landed passed
    by_cases htrivia : (L.next context).current.kind.isTrivia = true
    · have hkind : (L.next context).current.kind ≠ .eof := by
        intro hkind
        rw [hkind] at htrivia
        cases htrivia
      have hfirst := position_lt_next hkind
      have hlater := @position_le_start_landed _ context _ (enough.next htrivia)
      simp only [htrivia, if_true, ne_eq, List.cons_ne_nil, not_false_eq_true, iff_true]
      omega
    · simp [htrivia, start_next]

/-- At the end of the source nothing is ahead. -/
theorem solid_of_eof (h : L.current.kind = .eof) : L.solid = [] := by
  simp [solid, stream_of_eof h, solidOf]

/-- The tokens ahead are the next one and what is ahead of it. -/
theorem solid_eq_cons (inside : L.IsInside) (h : L.current.kind ≠ .eof) :
    L.solid = (L.target .normal).current :: (L.target .normal).solid :=
  solidOf_stream inside.suffices h

end Lexer

namespace TokenSource

variable {L : Lexer} {source : TokenSource} {context : LexContext}

/-! ### Questions and their answers -/

/-- What is to be seen of the current token, as the answer to a
question. -/
def Current.view (current : Current) : View :=
  ⟨current.kind, current.range, current.afterLineBreak, current.afterTrivia⟩

/-- The token source stands where the lexer does, and at the same
token. What it has recorded is left open. -/
structure Poised (L : Lexer) (source : TokenSource) : Prop where
  reads : Lookahead.ReadsFrom L source.buffer
  inside : L.IsInside
  kind : source.current.kind = L.current.kind
  range : source.current.range = L.current.range

/-- The range of the token `n` places ahead of a lexer at this token. -/
def Current.rangeAhead (current : Current) (L : Lexer) (n : Nat) : TextRange :=
  if n = 0 then current.range
  else (L.solid[n - 1]?.map (·.range)).getD (.empty current.range.stop)

/-- All that is answered about the token `n` places ahead. -/
def Current.viewAhead (current : Current) (L : Lexer) (n : Nat) : View :=
  if n = 0 then current.view
  else
    { kind := (L.solid[n - 1]?.map (·.kind)).getD .eof
      range := current.rangeAhead L n
      afterLineBreak := L.solid[n - 1]?.any (·.flags.afterLineBreak)
      afterTrivia := (current.rangeAhead L (n - 1)).stop < (current.rangeAhead L n).start }

namespace Poised

/-- A token source that stands where the lexer does answers with the solid token
`n` places ahead of the lexer, and still stands there. -/
theorem ahead? (h : Poised L source) (n : Nat) :
    (source.ahead? n).1 = L.solid[n - 1]? ∧ Poised L (source.ahead? n).2 := by
  obtain ⟨hanswer, hbuffer⟩ := h.reads.nth? h.inside (n - 1)
  exact ⟨hanswer, hbuffer, h.inside, h.kind, h.range⟩

/-- The kind that is answered is that of the token ahead of the lexer. Asking
changes no more than what is buffered: the source stands where it did, at the
same token. -/
theorem nthKind (h : Poised L source) (n : Nat) :
    (source.nthKind n).1 = (source.current.viewAhead L n).kind ∧ Poised L (source.nthKind n).2 ∧
      (source.nthKind n).2.current = source.current := by
  obtain ⟨hanswer, hafter⟩ := h.ahead? n
  unfold TokenSource.nthKind Current.viewAhead
  by_cases hn : n = 0
  · simpa [hn, Current.view] using h
  · simp only [hn, if_false]
    exact ⟨by rw [hanswer], hafter, rfl⟩

/-- The range that is answered is that of the token ahead of the lexer, and
asking changes no more than what is buffered. -/
theorem nthRange (h : Poised L source) (n : Nat) :
    (source.nthRange n).1 = source.current.rangeAhead L n ∧ Poised L (source.nthRange n).2 ∧
      (source.nthRange n).2.current = source.current := by
  obtain ⟨hanswer, hafter⟩ := h.ahead? n
  unfold TokenSource.nthRange Current.rangeAhead
  by_cases hn : n = 0
  · simpa [hn] using h
  · simp only [hn, if_false]
    exact ⟨by rw [hanswer]; rfl, hafter, rfl⟩

/-- Whether a line break stands in front of the token `n` places ahead is
answered as the lexer would, and asking changes no more than what is
buffered. -/
theorem nthAfterLineBreak (h : Poised L source) (n : Nat) :
    (source.nthAfterLineBreak n).1 = (source.current.viewAhead L n).afterLineBreak ∧
      Poised L (source.nthAfterLineBreak n).2 ∧
      (source.nthAfterLineBreak n).2.current = source.current := by
  obtain ⟨hanswer, hafter⟩ := h.ahead? n
  unfold TokenSource.nthAfterLineBreak Current.viewAhead
  by_cases hn : n = 0
  · simpa [hn, Current.view] using h
  · simp only [hn, if_false]
    exact ⟨by rw [hanswer], hafter, rfl⟩

/-- Whether anything stands in front of the token `n` places ahead is answered
as the lexer would, and asking changes no more than what is buffered. -/
theorem nthAfterTrivia (h : Poised L source) (n : Nat) :
    (source.nthAfterTrivia n).1 = (source.current.viewAhead L n).afterTrivia ∧
      Poised L (source.nthAfterTrivia n).2 ∧
      (source.nthAfterTrivia n).2.current = source.current := by
  obtain ⟨hrange, hafter, hcurrent⟩ := h.nthRange n
  obtain ⟨hbefore, hafter', hcurrent'⟩ := hafter.nthRange (n - 1)
  unfold TokenSource.nthAfterTrivia Current.viewAhead
  by_cases hn : n = 0
  · simpa [hn, Current.view] using h
  · simp only [hn, if_false]
    rw [hcurrent] at hbefore
    exact ⟨by rw [hbefore, hrange], hafter', hcurrent'.trans hcurrent⟩

/-- A question is answered from the tokens ahead of the lexer, and changes
nothing but what is read ahead. -/
theorem nth (h : Poised L source) (n : Nat) :
    ∃ asked, source.nth n = .ok (source.current.viewAhead L n, asked) ∧ Poised L asked ∧
      asked.current = source.current := by
  obtain ⟨hkind, h₁, hcurrent₁⟩ := h.nthKind n
  obtain ⟨hrange, h₂, hcurrent₂⟩ := h₁.nthRange n
  obtain ⟨hbreak, h₃, hcurrent₃⟩ := h₂.nthAfterLineBreak n
  obtain ⟨htrivia, h₄, hcurrent₄⟩ := h₃.nthAfterTrivia n
  rw [hcurrent₁] at hrange hcurrent₂
  rw [hcurrent₂] at hbreak hcurrent₃
  rw [hcurrent₃] at htrivia hcurrent₄
  have hview : source.current.rangeAhead L n = (source.current.viewAhead L n).range := by
    unfold Current.viewAhead Current.rangeAhead
    split <;> rfl
  refine ⟨_, ?_, h₄, hcurrent₄⟩
  unfold TokenSource.nth
  simp only [Int.not_lt.mpr (Int.natCast_nonneg n), if_false, Int.toNat_natCast, hkind, hrange,
    hbreak, htrivia, hview]

/-! ### Steps and what they lead to -/

/-- Behind the current token the next one is current, and the lexer
stands there, too. -/
theorem bump (h : Poised L source) (hkind : source.current.kind ≠ .eof) :
    Poised (L.target .normal) (source.bump .normal) ∧
      (source.bump .normal).current.view = source.current.viewAhead L 1 := by
  have hstands := @standsAt_advanceFrom ⟨L, source.trivia⟩ .normal source.buffer h.reads h.inside
  have hbump : source.bump .normal = advanceFrom source.buffer source.trivia .normal := by
    unfold TokenSource.bump
    rw [if_neg hkind]
  have hcurrent := hstands.current
  have hnormal : (advanceFrom source.buffer source.trivia .normal).current.context = .normal := rfl
  rw [← hbump] at hstands hcurrent hnormal
  rw [hnormal] at hcurrent
  have hsolid := Lexer.solid_eq_cons h.inside (h.kind ▸ hkind)
  refine ⟨⟨?_, @Seam.isInside_pass ⟨L, source.trivia⟩ h.inside .normal, ?_, ?_⟩, ?_⟩
  · have hbuffer := hstands.buffer
    rwa [hnormal] at hbuffer
  · rw [hcurrent]
    rfl
  · rw [hcurrent]
    rfl
  · -- A step passes the trivia, a question only sees where the tokens are.
    -- The flag and the gap of the token reached, both said of the trivia that the step passes.
    have hbreak : (L.target .normal).current.flags.afterLineBreak
        = (L.afterLineBreak || (L.gap .normal).any (·.kind = .newline)) :=
      Lexer.afterLineBreak_landed h.inside.suffices
    have hapart : L.current.range.stop < (L.target .normal).current.range.start ↔
        L.gap .normal ≠ [] :=
      Lexer.position_lt_start_landed_iff h.inside.suffices
    rw [hcurrent]
    simp only [Current.view, Seam.current, Current.viewAhead, Current.rangeAhead, hsolid, h.range,
      Nat.one_ne_zero, if_false, Nat.sub_self, List.getElem?_cons_zero, Option.map_some,
      Option.getD_some, Option.any_some, if_true, View.mk.injEq, true_and]
    refine ⟨by simp [hbreak, Bool.or_left_comm], ?_⟩
    cases hgap : L.gap .normal with
    | nil => simpa [hgap] using hapart
    | cons trivia others => simpa [hgap] using hapart

/-- As long as a step goes on, the range of what is ahead is that of what
is ahead of the next token. -/
theorem rangeAhead_bump (h : Poised L source) (hkind : source.current.kind ≠ .eof) {n : Nat}
    (hn : n ≤ (L.target .normal).solid.length) :
    source.current.rangeAhead L (n + 1)
      = (source.bump .normal).current.rangeAhead (L.target .normal) n := by
  have hsolid := Lexer.solid_eq_cons h.inside (h.kind ▸ hkind)
  obtain ⟨hpoised, -⟩ := h.bump hkind
  cases n with
  | zero => simp [Current.rangeAhead, hsolid, hpoised.range]
  | succ n => simp [Current.rangeAhead, hsolid, List.getElem?_eq_getElem hn]

/-- What is two and more places ahead is ahead of the next token. Past the
end of the source this is so of the kind only. -/
theorem viewAhead_bump (h : Poised L source) (hkind : source.current.kind ≠ .eof) (n : Nat) :
    (source.current.viewAhead L (n + 2)).kind
        = ((source.bump .normal).current.viewAhead (L.target .normal) (n + 1)).kind ∧
      (n < (L.target .normal).solid.length →
        source.current.viewAhead L (n + 2)
          = (source.bump .normal).current.viewAhead (L.target .normal) (n + 1)) := by
  have hsolid := Lexer.solid_eq_cons h.inside (h.kind ▸ hkind)
  refine ⟨by simp [Current.viewAhead, hsolid], fun hn => ?_⟩
  have hrange := h.rangeAhead_bump hkind (n := n + 1) hn
  have hbefore := h.rangeAhead_bump hkind (n := n) (Nat.le_of_lt hn)
  simp [Current.viewAhead, hsolid, hrange, hbefore]

/-- As long as the end has not been reached, there is a token ahead. -/
theorem lt_length_solid (h : Poised L source) {n : Nat}
    (hbefore : ∀ k ≤ n, (source.run (List.replicate k (.bump .normal))).current.kind ≠ .eof) :
    n < L.solid.length := by
  induction n generalizing L source with
  | zero => simp [Lexer.solid_eq_cons h.inside (h.kind ▸ hbefore 0 (Nat.le_refl 0))]
  | succ n ih =>
    have hkind : source.current.kind ≠ .eof := hbefore 0 (Nat.zero_le _)
    have hlater := ih (h.bump hkind).1 fun k hk => hbefore (k + 1) (Nat.succ_le_succ hk)
    simpa [Lexer.solid_eq_cons h.inside (h.kind ▸ hkind)] using hlater

/-- At the end of the source a step does nothing. -/
theorem run_bump_of_eof (hkind : source.current.kind = .eof) (n : Nat) :
    source.run (List.replicate n (.bump .normal)) = source := by
  induction n with
  | zero => rfl
  | succ n ih =>
    have hbump : source.bump .normal = source := if_pos hkind
    rw [List.replicate_succ]
    show (source.bump .normal).run _ = source
    rw [hbump, ih]

/-- The token `n` places ahead is the current one after `n` steps. The
induction is on the steps: what is ahead of the next token is a place
nearer. -/
theorem viewAhead_eq (h : Poised L source) (n : Nat) :
    let later := source.run (List.replicate n (.bump .normal))
    (source.current.viewAhead L n).kind = later.current.kind ∧
      ((∀ k < n, (source.run (List.replicate k (.bump .normal))).current.kind ≠ .eof) →
        source.current.viewAhead L n = later.current.view) := by
  induction n generalizing L source with
  | zero => exact ⟨rfl, fun _ => rfl⟩
  | succ n ih =>
    by_cases hkind : source.current.kind = .eof
    · -- Nothing is ahead, and nothing but the kind is promised.
      have hsolid := Lexer.solid_of_eof (h.kind ▸ hkind)
      intro later
      refine ⟨?_, fun hbefore => absurd hkind (hbefore 0 (Nat.succ_pos n))⟩
      simp only [later, run_bump_of_eof hkind, hkind]
      simp [Current.viewAhead, hsolid]
    · obtain ⟨hpoised, hview⟩ := h.bump hkind
      obtain ⟨hlater, hall⟩ := ih hpoised
      cases n with
      | zero => exact ⟨congrArg View.kind hview.symm, fun _ => hview.symm⟩
      | succ n =>
        obtain ⟨hsame, hrest⟩ := h.viewAhead_bump hkind n
        refine ⟨hsame.trans hlater, fun hbefore => ?_⟩
        have hnext : ∀ k < n + 1, ((source.bump .normal).run
            (List.replicate k (.bump .normal))).current.kind ≠ .eof :=
          fun k hk => hbefore (k + 1) (Nat.succ_lt_succ hk)
        exact (hrest (hpoised.lt_length_solid fun k hk => hnext k (Nat.lt_succ_of_le hk))).trans
          (hall hnext)

end Poised

/-! ### Token sources that are poised -/

/-- The token is the one of this state of a lexer. -/
structure Current.IsOf (current : Current) (here : Lexer.Checkpoint) : Prop where
  kind : current.kind = here.current.kind
  range : current.range = here.current.range

/-- A step forward leaves the source at the token where its buffer stands. -/
theorem isOf_advanceFrom (buffer : Lookahead) (trivia : Array Trivia) (context : LexContext) :
    (advanceFrom buffer trivia context).current.IsOf
      (advanceFrom buffer trivia context).buffer.here :=
  ⟨rfl, rfl⟩

/-- No step takes the token apart from the buffer: a step forward and a relex
replace both, and a question changes neither. -/
theorem Roams.isOf_step {text : Text} (h : Roams text source)
    (hcurrent : source.current.IsOf source.buffer.here) (step : Step) :
    (source.step step).current.IsOf (source.step step).buffer.here := by
  cases step with
  | bump context =>
    show (source.bump context).current.IsOf (source.bump context).buffer.here
    unfold bump
    split
    · exact hcurrent
    · exact isOf_advanceFrom _ _ _
  | relex context =>
    show (source.relex context).current.IsOf (source.relex context).buffer.here
    unfold relex
    split
    · exact hcurrent
    · exact isOf_advanceFrom _ _ _
  | ask n =>
    obtain ⟨L, hreads, -, inside⟩ := h.reads
    obtain ⟨buffer, hbuffer, hsource⟩ := exists_step_ask_eq (P := Lookahead.ReadsFrom L)
      (fun _ n hreads => (hreads.nth? inside n).2) hreads n
    rw [hsource]
    show source.current.IsOf buffer.here
    rw [hbuffer.here, ← hreads.here]
    exact hcurrent

/-- Questions change nothing but what is read ahead. -/
theorem Poised.exists_run_asks (h : Poised L source) (questions : List Int) :
    ∃ buffer, Lookahead.ReadsFrom L buffer ∧
      source.run (questions.map .ask) = { source with buffer } := by
  induction questions generalizing source with
  | nil => exact ⟨source.buffer, h.reads, rfl⟩
  | cons n questions ih =>
    obtain ⟨buffer, hbuffer, hsource⟩ := exists_step_ask_eq (P := Lookahead.ReadsFrom L)
      (fun _ n hreads => (hreads.nth? h.inside n).2) h.reads n
    obtain ⟨buffer', hbuffer', hasked⟩ :=
      @ih { source with buffer } ⟨hbuffer, h.inside, h.kind, h.range⟩
    refine ⟨buffer', hbuffer', ?_⟩
    rw [List.map_cons]
    show (source.step (.ask n)).run _ = _
    rw [hsource, hasked]

/-- Token sources with the same tokens to come keep on so. -/
theorem Alike.run {a b : TokenSource} (h : Alike a b) (steps : List Step) :
    Alike (a.run steps) (b.run steps) := by
  induction steps generalizing a b with
  | nil => exact h
  | cons first steps ih => exact ih (h.step first).2

namespace Session

variable {here : Session} {text : Text}

/-- The buffer is at the current token, now and in all checkpoints. -/
structure IsOf (here : Session) : Prop where
  source : here.source.current.IsOf here.source.buffer.here
  marks : ∀ saved ∈ here.marks, saved.current.IsOf saved.lexer

/-- In a session the token stays the one of the buffer. A rewind brings back
both from the same checkpoint, which is why the checkpoints are part of
`IsOf`. -/
theorem IsOf.move (h : here.IsOf) (hroams : here.Roams text) (move : Move) :
    (here.move move).IsOf := by
  cases move with
  | step step => exact ⟨hroams.source.isOf_step h.source step, h.marks⟩
  | mark =>
    refine ⟨h.source, fun saved hmem => ?_⟩
    rcases List.mem_append.mp hmem with hmem | hmem
    · exact h.marks saved hmem
    · rw [List.mem_singleton.mp hmem]
      exact h.source
  | back place =>
    cases hplace : here.marks[place]? with
    | none => simpa only [Session.move, hplace] using h
    | some saved =>
      simp only [Session.move, hplace]
      obtain ⟨hkind, hrange⟩ := h.marks saved (List.mem_of_getElem? hplace)
      exact ⟨⟨hkind, hrange⟩, h.marks⟩
  | finish =>
    refine ⟨?_, h.marks⟩
    obtain ⟨L, hreads, -, -⟩ := hroams.source.reads
    show here.source.current.IsOf here.source.buffer.drop.here
    rw [hreads.drop]
    show here.source.current.IsOf L.checkpoint
    rw [← hreads.here]
    exact h.source

/-- The token of a session stays the one of its buffer over every run of calls,
by induction on the run. -/
theorem IsOf.run (h : here.IsOf) (hroams : here.Roams text) (moves : List Move) :
    (here.run moves).IsOf := by
  induction moves generalizing here with
  | nil => exact h
  | cons first moves ih => exact ih (h.move hroams first) (hroams.move first)

/-- Whatever is done with a token source, it is poised. -/
theorem exists_poised (text file : Text) (first : LexContext) (moves : List Move) :
    ∃ L, L.source = text ∧ Poised L ((ofSource text file first).run moves).source := by
  have hroams := roams_ofSource text file first
  have hcurrent : (ofSource text file first).IsOf :=
    ⟨isOf_advanceFrom _ _ _, fun _ hmem => absurd hmem List.not_mem_nil⟩
  obtain ⟨hkind, hrange⟩ := (hcurrent.run hroams moves).source
  obtain ⟨L, hreads, htext, inside⟩ := (hroams.run moves).source.reads
  rw [hreads.here] at hkind hrange
  exact ⟨L, htext, hreads, inside, hkind, hrange⟩

/-- The lookahead predicts what comes, in any state that a token source
can be in: the kind of the token `n` places ahead is that of the current
token after `n` steps in the normal context, and up to the end of the
source so are its range, the line break and the trivia in front of it.
Other questions asked before change neither the answer nor what comes. -/
theorem nth_foresees (text file : Text) (first : LexContext) (moves : List Move)
    (questions : List Int) (n : Nat) :
    let source := ((ofSource text file first).run moves).source
    let asked := source.run (questions.map .ask)
    let later := source.run (List.replicate n (.bump .normal))
    (asked.run (List.replicate n (.bump .normal))).reading = later.reading ∧
      ∃ view, (asked.nth n).map (·.1) = .ok view ∧ view.kind = later.current.kind ∧
        ((∀ k < n, (source.run (List.replicate k (.bump .normal))).current.kind ≠ .eof) →
          view = later.current.view) := by
  intro source asked later
  obtain ⟨L, htext, hpoised⟩ := exists_poised text file first moves
  obtain ⟨buffer, hbuffer, hasked⟩ := hpoised.exists_run_asks questions
  have hpoised' : Poised L asked := by
    rw [show asked = { source with buffer } from hasked]
    exact ⟨hbuffer, hpoised.inside, hpoised.kind, hpoised.range⟩
  have hcurrent : asked.current = source.current := by simp only [asked, hasked, source]
  have halike : Alike asked source := by
    have horigin := ((roams_ofSource text file first).run moves).source.origin
    refine ⟨congrArg Current.reading hcurrent, by rw [hcurrent], by rw [hcurrent], ?_, L, L,
      hpoised'.reads, hpoised.reads, ⟨rfl, rfl, rfl⟩, hpoised.inside⟩
    show asked.current.origin.position ≤ asked.buffer.lexer.source.length
    rw [hcurrent, hpoised'.reads.source, htext]
    exact horigin
  obtain ⟨after, hanswer, -, -⟩ := hpoised'.nth n
  obtain ⟨hkind, hview⟩ := hpoised.viewAhead_eq n
  rw [hcurrent] at hanswer
  refine ⟨(halike.run _).reading, _, ?_, hkind, hview⟩
  rw [hanswer]
  rfl

/-- On the way from `>` to `b` a comment and a line break are passed. The
name in the tag was read in three contexts before, and the token source
went back to it. -/
theorem nth_foresees_after_line_break :
    let text : Text := "<p> // a\n b \"c"
    let moves : List Move := [.mark, .step (.bump .tag), .step (.ask 2), .step (.relex .normal),
      .mark, .step (.relex .text), .back 1]
    let source := ((ofSource text "f" .normal).run moves).source
    let asked := source.run ([4, 0, -1].map .ask)
    let later := source.run (List.replicate 2 (.bump .normal))
    (∀ k < 2, (source.run (List.replicate k (.bump .normal))).current.kind ≠ .eof) ∧
      (asked.run (List.replicate 2 (.bump .normal))).reading = later.reading ∧
      (asked.nth 2).map (·.1) = .ok later.current.view ∧
      later.current.view = ⟨.identifier, .ofLength 10 1, true, true⟩ := by
  intro text moves source asked later
  have hbefore : ∀ k < 2, (source.run (List.replicate k (.bump .normal))).current.kind ≠ .eof := by
    decide +kernel
  obtain ⟨hreading, view, hanswer, -, hview⟩ :=
    nth_foresees text "f" .normal moves [4, 0, -1] 2
  rw [hview hbefore] at hanswer
  exact ⟨hbefore, hreading, hanswer, by decide +kernel⟩

end Session

end TokenSource

end MarkupSyntax
