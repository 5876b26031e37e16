import MarkupSyntax.Proofs.Token.Stream

/-!
# `MarkupSyntax.Proofs.Token.Lookahead`: looking ahead changes nothing

A lexer that can look ahead is seen to do what the plain lexer does
that never looks (`sights_ofSource`), whatever is asked in between and
however tokens are read, marked and gone back to.

`Lookahead.Follows` is the relation between the two that every step
keeps. The buffer has read ahead from the plain lexer
(`Lookahead.ReadsFrom`), and the states that were marked are those of
lexers of which each later one has all diagnostics of the earlier ones.
So a state that is still marked can be gone back to: the diagnostics
that it counts are the ones that it had.
-/

set_option autoImplicit false

namespace MarkupSyntax

/-! ### Steps -/

/-- A step of a lexer that can look ahead. -/
inductive LexerStep where
  /-- To the next token, read in a context. -/
  | next (context : LexContext)
  /-- Marks the state, to go back to. -/
  | mark
  /-- Back at the state marked in this place, the first one being `0`.
  States that were marked later are no longer marked then. -/
  | back (place : Nat)
  /-- Asks for the token `n` places ahead, trivia left out. -/
  | ask (n : Int)
  /-- Asks for the next token of a walk over the tokens ahead that has
  passed `place` of them. The walk may have begun before other steps. -/
  | peek (place : Nat)
  /-- Walks over the next `count` tokens ahead. -/
  | look (count : Nat)
  /-- Asks for the diagnostics of the tokens up to the current one. -/
  | finish

/-- What is to be seen of a lexer at its current token. -/
structure LexerSight where
  current : Token
  /-- The checkpoint that would be taken here. -/
  checkpoint : Lexer.Checkpoint
  /-- The diagnostics that `finish` would answer. -/
  diagnostics : Array Diagnostic

namespace Lexer

/-- What is to be seen of a plain lexer. -/
def sight (L : Lexer) : LexerSight := ⟨L.current, L.checkpoint, L.diagnostics⟩

/-- A step of a plain lexer with the states that are marked. It does not
look ahead, so it takes no part in the other steps. -/
def step : LexerStep → Lexer × List Checkpoint → Lexer × List Checkpoint
  | .next context, (L, marks) => (L.next context, marks)
  | .mark, (L, marks) => (L, marks ++ [L.checkpoint])
  | .back place, (L, marks) =>
    match marks[place]? with
    | some checkpoint => (L.rewind checkpoint, marks.take (place + 1))
    | none => (L, marks)
  | .ask _, state | .peek _, state | .look _, state | .finish, state => state

/-- What is to be seen after each of these steps. -/
def sights : List LexerStep → Lexer × List Checkpoint → List LexerSight
  | [], _ => []
  | step :: steps, state => (Lexer.step step state).1.sight :: sights steps (Lexer.step step state)

end Lexer

namespace Lookahead

/-- What is to be seen of a lexer that can look ahead. -/
def sight (buffer : Lookahead) : LexerSight := ⟨buffer.current, buffer.here, buffer.finish.1⟩

/-- The buffer after a question, also after one that is refused. -/
def asked (buffer : Lookahead) (n : Int) : Lookahead :=
  match buffer.nthFrom1 n with
  | .ok (_, buffer) => buffer
  | .error _ => buffer

/-- A step of a lexer that can look ahead, with the states that are
marked. -/
def step : LexerStep → Lookahead × List Lexer.Checkpoint → Lookahead × List Lexer.Checkpoint
  | .next context, (buffer, marks) => (buffer.next context, marks)
  | .mark, (buffer, marks) => (buffer, marks ++ [buffer.here])
  | .back place, (buffer, marks) =>
    match marks[place]? with
    | some checkpoint => (buffer.rewind checkpoint, marks.take (place + 1))
    | none => (buffer, marks)
  | .ask n, (buffer, marks) => (buffer.asked n, marks)
  | .peek place, (buffer, marks) => ((buffer.peek place).2, marks)
  | .look count, (buffer, marks) => ((buffer.look count).2, marks)
  | .finish, (buffer, marks) => (buffer.finish.2, marks)

/-- What is to be seen after each of these steps. -/
def sights : List LexerStep → Lookahead × List Lexer.Checkpoint → List LexerSight
  | [], _ => []
  | step :: steps, state =>
    (Lookahead.step step state).1.sight :: sights steps (Lookahead.step step state)

variable {L : Lexer} {buffer : Lookahead} {marks : List Lexer.Checkpoint}

/-! ### Looking ahead -/

/-- Reading ahead ends where nothing more can be read. -/
theorem fetch_succ (count : Nat) :
    fetch (count + 1) buffer = (fetch count buffer).fetch?.getD (fetch count buffer) := by
  induction count generalizing buffer with
  | zero =>
    unfold fetch
    cases buffer.fetch? <;> rfl
  | succ count ih =>
    rw [fetch]
    cases hfetch : buffer.fetch? with
    | none => simp [fetch, hfetch]
    | some next => simpa [fetch, hfetch] using ih

/-- Reading ahead `count` times adds at most `count` tokens to those that are
held. It adds fewer of them at the end of the source. -/
theorem length_ahead_fetch_le (count : Nat) :
    (fetch count buffer).ahead.length ≤ buffer.ahead.length + count := by
  induction count generalizing buffer with
  | zero => exact Nat.le_refl _
  | succ count ih =>
    unfold fetch
    cases hfetch : buffer.fetch? with
    | none => exact Nat.le_add_right _ _
    | some next =>
      have hlength : next.ahead.length = buffer.ahead.length + 1 := by
        unfold fetch? at hfetch
        split at hfetch
        · cases hfetch
        · rw [← Option.some.inj hfetch, List.length_append]
          rfl
      have hle : (fetch count next).ahead.length ≤ next.ahead.length + count := ih
      show (fetch count next).ahead.length ≤ _
      omega

/-- A walk over tokens ahead is made of its steps. -/
theorem look_succ (count : Nat) :
    (buffer.look (count + 1)).2 = ((buffer.look count).2.peek count).2 := by
  show fetch (count + 1 - buffer.ahead.length) buffer
    = ((fetch (count - buffer.ahead.length) buffer).peek count).2
  unfold peek
  rcases Nat.lt_or_ge count buffer.ahead.length with h | h
  · -- So much was read ahead before.
    rw [Nat.sub_eq_zero_of_le h, Nat.sub_eq_zero_of_le (Nat.le_of_lt h)]
    simp only [fetch, List.getElem?_eq_getElem h]
  · have hlength := @length_ahead_fetch_le buffer (count - buffer.ahead.length)
    rw [Nat.succ_sub h, fetch_succ, List.getElem?_eq_none (by omega)]
    cases (fetch (count - buffer.ahead.length) buffer).fetch? <;> rfl

/-- One more token read ahead is read from the same lexer. -/
theorem ReadsFrom.fetch? (h : ReadsFrom L buffer) : ∀ next ∈ buffer.fetch?, ReadsFrom L next := by
  obtain ⟨count, rfl⟩ := h
  intro next hnext
  rw [fetch?_reading] at hnext
  split at hnext
  · cases hnext
  · exact ⟨count + 1, (Option.some.inj hnext).symm⟩

/-- Reading ahead leaves the buffer where the lexer is. -/
theorem ReadsFrom.fetch (h : ReadsFrom L buffer) (count : Nat) :
    ReadsFrom L (fetch count buffer) := by
  induction count generalizing buffer with
  | zero => exact h
  | succ count ih =>
    unfold Lookahead.fetch
    cases hfetch : buffer.fetch? with
    | none => exact h
    | some next => exact ih (h.fetch? next hfetch)

/-- A look at the token at a place leaves the buffer where the lexer is. -/
theorem ReadsFrom.peek (h : ReadsFrom L buffer) (place : Nat) :
    ReadsFrom L (buffer.peek place).2 := by
  unfold Lookahead.peek
  cases buffer.ahead[place]? with
  | some state => exact h
  | none =>
    cases hfetch : buffer.fetch? with
    | none => exact h
    | some next => exact h.fetch? next hfetch

/-- A question leaves the buffer where the lexer is, also one that is
refused. -/
theorem ReadsFrom.asked (h : ReadsFrom L buffer) (inside : L.IsInside) (n : Int) :
    ReadsFrom L (buffer.asked n) := by
  unfold Lookahead.asked nthFrom1
  by_cases hn : n ≤ 0
  · rw [if_pos hn]
    exact h
  · rw [if_neg hn]
    exact (h.nth? inside _).2

/-- A lexer that can look ahead shows what the lexer shows that it reads
from. -/
theorem ReadsFrom.sight (h : ReadsFrom L buffer) : buffer.sight = L.sight := by
  have hdrop := h.drop
  unfold Lookahead.sight Lookahead.current finish
  rw [h.here, hdrop]
  rfl

/-! ### The simulation -/

/-- A lexer that can look ahead stands where a plain lexer does, and
marks the same states. -/
structure Follows (state : Lookahead × List Lexer.Checkpoint)
    (plain : Lexer × List Lexer.Checkpoint) : Prop where
  reads : ReadsFrom plain.1 state.1
  marks : state.2 = plain.2
  /-- The states that are marked are those of lexers, each with the
  diagnostics of those before it. -/
  marked : ∃ kept : List Lexer, plain.2 = kept.map Lexer.checkpoint ∧
    (kept ++ [plain.1]).Pairwise Lexer.Extends ∧ ∀ L ∈ kept ++ [plain.1], L.IsInside

/-- The first `place + 1` lexers that were marked, and the last of them
again as the current one. -/
theorem pairwise_take_concat {kept : List Lexer} {place : Nat} {L₀ : Lexer}
    (h : (kept ++ [L]).Pairwise Lexer.Extends) (hplace : kept[place]? = some L₀) :
    (kept.take (place + 1) ++ [L₀]).Pairwise Lexer.Extends := by
  have htake : kept.take (place + 1) = kept.take place ++ [L₀] := by
    rw [List.take_add_one, hplace]
    rfl
  have hkept : (kept.take (place + 1)).Pairwise Lexer.Extends :=
    (List.pairwise_append.mp h).1.sublist (List.take_sublist _ _)
  refine List.pairwise_append.mpr ⟨hkept, List.pairwise_singleton _ _, ?_⟩
  intro L' hmem last hlast
  rw [List.mem_singleton.mp hlast]
  rw [htake] at hkept hmem
  rcases List.mem_append.mp hmem with hmem | hmem
  · exact (List.pairwise_append.mp hkept).2.2 L' hmem L₀ (List.mem_singleton_self _)
  · rw [List.mem_singleton.mp hmem]
    exact .refl L₀

namespace Follows

variable {state : Lookahead × List Lexer.Checkpoint} {plain : Lexer × List Lexer.Checkpoint}

/-- The plain lexer is inside its text, as each of the states is that is
marked. -/
theorem inside (h : Follows state plain) : plain.1.IsInside := by
  obtain ⟨kept, -, -, hinside⟩ := h.marked
  exact hinside _ (List.mem_append_right _ (List.mem_singleton_self _))

/-- A step that only looks leaves the plain lexer where it is. -/
theorem look {buffer' : Lookahead} (h : Follows (buffer, marks) plain)
    (h' : ReadsFrom plain.1 buffer') : Follows (buffer', marks) plain :=
  ⟨h', h.marks, h.marked⟩

/-- Both read the next token and are together again. The buffer reads on from
the token it stands at, whatever it has read ahead. -/
theorem next (h : Follows (buffer, marks) (L, marks)) (context : LexContext) :
    Follows (buffer.next context, marks) (L.next context, marks) := by
  obtain ⟨kept, hmarks, hpairwise, hinside⟩ := h.marked
  refine ⟨h.reads.next context, rfl, kept, hmarks, ?_, ?_⟩
  · obtain ⟨hkept, -, hlast⟩ := List.pairwise_append.mp hpairwise
    refine List.pairwise_append.mpr ⟨hkept, List.pairwise_singleton _ _, ?_⟩
    intro L' hmem next hnext
    rw [List.mem_singleton.mp hnext]
    exact (hlast L' hmem L (List.mem_singleton_self _)).trans Lexer.extends_next
  · intro L' hmem
    rcases List.mem_append.mp hmem with hmem | hmem
    · exact hinside L' (List.mem_append_left _ hmem)
    · rw [List.mem_singleton.mp hmem]
      exact h.inside.next context

/-- Both mark the state they are in, and it is the same state. -/
theorem mark (h : Follows (buffer, marks) (L, marks)) :
    Follows (buffer, marks ++ [buffer.here]) (L, marks ++ [L.checkpoint]) := by
  obtain ⟨kept, hmarks, hpairwise, hinside⟩ := h.marked
  have hhere : buffer.here = L.checkpoint := h.reads.here
  refine ⟨h.reads, congrArg (marks ++ [·]) hhere, kept ++ [L], ?_, ?_, ?_⟩
  · rw [List.map_append, ← hmarks]
    rfl
  · refine List.pairwise_append.mpr ⟨hpairwise, List.pairwise_singleton _ _, ?_⟩
    intro L' hmem last hlast
    rw [List.mem_singleton.mp hlast]
    rcases List.mem_append.mp hmem with hmem | hmem
    · exact (List.pairwise_append.mp hpairwise).2.2 L' hmem L (List.mem_singleton_self _)
    · rw [List.mem_singleton.mp hmem]
      exact .refl L
  · intro L' hmem
    rcases List.mem_append.mp hmem with hmem | hmem
    · exact hinside L' hmem
    · rw [List.mem_singleton.mp hmem]
      exact h.inside

/-- Both go back to the same lexer. -/
theorem back (h : Follows (buffer, marks) (L, marks)) {place : Nat} {checkpoint : Lexer.Checkpoint}
    (hplace : marks[place]? = some checkpoint) :
    Follows (buffer.rewind checkpoint, marks.take (place + 1))
      (L.rewind checkpoint, marks.take (place + 1)) := by
  obtain ⟨kept, hmarks, hpairwise, hinside⟩ := h.marked
  have hmarks : marks = kept.map Lexer.checkpoint := hmarks
  rw [hmarks, List.getElem?_map, Option.map_eq_some_iff] at hplace
  obtain ⟨L₀, hplace, rfl⟩ := hplace
  have hmem : L₀ ∈ kept := List.mem_of_getElem? hplace
  have hlater : L₀.Extends L :=
    (List.pairwise_append.mp hpairwise).2.2 L₀ hmem L (List.mem_singleton_self _)
  have hbuffer : buffer.rewind L₀.checkpoint = .ofLexer L₀ := h.reads.rewind hlater
  rw [hbuffer, Lexer.rewind_checkpoint hlater]
  refine ⟨readsFrom_ofLexer L₀, rfl, kept.take (place + 1), ?_,
    pairwise_take_concat hpairwise hplace, ?_⟩
  · rw [hmarks, List.map_take]
  · intro L' hmem'
    rcases List.mem_append.mp hmem' with hmem' | hmem'
    · exact hinside L' (List.mem_append_left _ (List.mem_of_mem_take hmem'))
    · rw [List.mem_singleton.mp hmem']
      exact hinside L₀ (List.mem_append_left _ hmem)

/-- Every step keeps the relation. -/
theorem step (h : Follows state plain) (step : LexerStep) :
    Follows (Lookahead.step step state) (Lexer.step step plain) := by
  obtain ⟨buffer, marks⟩ := state
  obtain ⟨L, marks'⟩ := plain
  obtain rfl : marks = marks' := h.marks
  cases step with
  | next context => exact h.next context
  | mark => exact h.mark
  | back place =>
    cases hplace : marks[place]? with
    | none => simpa only [Lookahead.step, Lexer.step, hplace] using h
    | some checkpoint =>
      simpa only [Lookahead.step, Lexer.step, hplace] using h.back hplace
  | ask n => exact h.look (h.reads.asked h.inside n)
  | peek place => exact h.look (h.reads.peek place)
  | look count => exact h.look (h.reads.fetch _)
  | finish =>
    refine h.look ?_
    show ReadsFrom L buffer.drop
    rw [h.reads.drop]
    exact readsFrom_ofLexer L

/-- So the two are seen to do the same. The induction is on the steps. -/
theorem sights_eq (h : Follows state plain) (steps : List LexerStep) :
    Lookahead.sights steps state = Lexer.sights steps plain := by
  induction steps generalizing state plain with
  | nil => rfl
  | cons first steps ih =>
    have hstep := h.step first
    rw [Lookahead.sights, Lexer.sights, hstep.reads.sight, ih hstep]

end Follows

/-- A lexer starts with nothing marked and nothing read ahead. -/
theorem follows_ofSource (source file : Text) :
    Follows (.ofLexer (.ofSource source file), []) (.ofSource source file, []) := by
  refine ⟨readsFrom_ofLexer _, rfl, [], rfl, List.pairwise_singleton _ _, ?_⟩
  intro L hmem
  rw [List.mem_singleton.mp hmem]
  exact Nat.zero_le _

/-- Looking ahead is not to be seen. After each of any steps, a lexer
that can look ahead stands at the token at which a plain lexer stands
that takes only those steps that read, mark and go back; its checkpoint
is the same, and so are the diagnostics that it answers with. -/
theorem sights_ofSource (source file : Text) (steps : List LexerStep) :
    Lookahead.sights steps (.ofLexer (.ofSource source file), [])
      = Lexer.sights steps (.ofSource source file, []) :=
  (follows_ofSource source file).sights_eq steps

end Lookahead

end MarkupSyntax
