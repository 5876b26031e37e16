import MarkupSyntax.Proofs.Token.Lexeme
import MarkupSyntax.Token.Source

/-!
# `MarkupSyntax.Proofs.Token.Stream`: lexers and what is read ahead

A step of a lexer reads one lexeme at its position, or stays at the end
of the source. It only ever adds diagnostics, so going back to a
checkpoint of an earlier lexer, which cuts the diagnostics to a count,
gives that lexer back (`rewind_checkpoint`).

`Lexer.stream` lists the lexers that reading ahead passes through. A
`Lookahead` that has read ahead from a lexer is `Lookahead.reading` of it,
whatever was asked and in whichever order: `ReadsFrom` says so, and
every operation of a `Lookahead` keeps it. So what a question about a
token ahead answers depends only on the lexer at the current token
(`nth?_of_readsFrom`).
-/

set_option autoImplicit false

namespace MarkupSyntax

namespace Lexer

variable {L L' L'' : Lexer} {context : LexContext}

/-! ### One step -/

/-- A step of the lexer stays in its source. -/
@[simp] theorem next_source : (L.next context).source = L.source := by
  unfold next
  split <;> rfl

/-- A step of the lexer stays in its file. -/
@[simp] theorem next_file : (L.next context).file = L.file := by
  unfold next
  split <;> rfl

/-- The lexer stands inside its source. -/
def IsInside (L : Lexer) : Prop := L.position ≤ L.source.length

/-- At the end of the source a step reads an empty end token. -/
theorem next_of_length_le (h : L.source.length ≤ L.position) :
    L.next context = { L with
      current := ⟨.eof, .empty L.position, { afterLineBreak := L.afterLineBreak }⟩ } := by
  unfold next
  rw [List.drop_eq_nil_of_le h]

/-- Inside the source a step reads the lexeme at the position. -/
theorem next_of_drop_eq {c : CodePoint} {rest : Text} (h : L.source.drop L.position = c :: rest) :
    (L.next context).current.kind = (Lexeme.next context c rest).kind ∧
    (L.next context).current.range
      = .ofLength L.position (Lexeme.next context c rest).length ∧
    (L.next context).diagnostics = L.diagnostics ++
      (problem? (Lexeme.next context c rest)
        (.ofLength L.position (Lexeme.next context c rest).length)
        ((c :: rest).take (Lexeme.next context c rest).length) L.file).toArray := by
  unfold next
  rw [h]
  exact ⟨rfl, rfl, rfl⟩

/-- The text from a position inside the source on is not empty. -/
theorem exists_drop_eq_cons (h : L.position < L.source.length) :
    ∃ c rest, L.source.drop L.position = c :: rest := by
  cases hdrop : L.source.drop L.position with
  | nil =>
    rw [List.drop_eq_nil_iff] at hdrop
    omega
  | cons c rest => exact ⟨c, rest, rfl⟩

/-- The token that a step reads starts where the last one stopped. -/
theorem start_next : (L.next context).current.range.start = L.position := by
  rcases Nat.lt_or_ge L.position L.source.length with h | h
  · obtain ⟨c, rest, hdrop⟩ := exists_drop_eq_cons h
    rw [(next_of_drop_eq hdrop).2.1]
    rfl
  · rw [next_of_length_le h]
    rfl

/-- A step reads the end exactly at the end of the source. -/
theorem kind_next_eq_eof_iff :
    (L.next context).current.kind = .eof ↔ L.source.length ≤ L.position := by
  constructor
  · intro h
    refine Nat.le_of_not_lt fun hlt => ?_
    obtain ⟨c, rest, hdrop⟩ := exists_drop_eq_cons hlt
    rw [(next_of_drop_eq hdrop).1] at h
    exact (Lexeme.cuts_next context c rest).kind_ne h
  · intro h
    rw [next_of_length_le h]

/-- A step never goes back. -/
theorem position_le_next : L.position ≤ (L.next context).position := by
  have h := (L.next context).current.range.start_le_stop
  rwa [start_next] at h

/-- A step that reads a token goes on. -/
theorem position_lt_next (h : (L.next context).current.kind ≠ .eof) :
    L.position < (L.next context).position := by
  rw [Ne, kind_next_eq_eof_iff, Nat.not_le] at h
  obtain ⟨c, rest, hdrop⟩ := exists_drop_eq_cons h
  have hpos := (Lexeme.next context c rest).length_pos
  show L.position < (L.next context).current.range.stop
  rw [(next_of_drop_eq hdrop).2.1]
  show L.position < L.position + (Lexeme.next context c rest).length
  omega

/-- A step stays inside the source. -/
theorem IsInside.next (h : L.IsInside) (context : LexContext) : (L.next context).IsInside := by
  unfold IsInside at h ⊢
  rw [next_source]
  rcases Nat.lt_or_ge L.position L.source.length with hlt | hge
  · obtain ⟨c, rest, hdrop⟩ := exists_drop_eq_cons hlt
    have hfits := (Lexeme.cuts_next context c rest).fits
    have hlen := congrArg List.length hdrop
    rw [List.length_drop] at hlen
    show (L.next context).current.range.stop ≤ _
    rw [(next_of_drop_eq hdrop).2.1]
    show L.position + (Lexeme.next context c rest).length ≤ _
    omega
  · rw [next_of_length_le hge]
    exact h

/-! ### Going back -/

/-- `L'` is a later lexer of the same source: it has the diagnostics of
`L` and perhaps more. -/
structure Extends (L L' : Lexer) : Prop where
  source : L'.source = L.source
  file : L'.file = L.file
  diagnostics : L.diagnostics.toList <+: L'.diagnostics.toList

/-- A lexer is a later one of itself. -/
theorem Extends.refl (L : Lexer) : L.Extends L := ⟨rfl, rfl, List.prefix_refl _⟩

/-- A later lexer of a later one is a later one. -/
theorem Extends.trans (h : L.Extends L') (h' : L'.Extends L'') : L.Extends L'' :=
  ⟨h'.source.trans h.source, h'.file.trans h.file, h.diagnostics.trans h'.diagnostics⟩

/-- A step adds diagnostics and drops none. -/
theorem extends_next : L.Extends (L.next context) where
  source := next_source
  file := next_file
  diagnostics := by
    rcases Nat.lt_or_ge L.position L.source.length with h | h
    · obtain ⟨c, rest, hdrop⟩ := exists_drop_eq_cons h
      rw [(next_of_drop_eq hdrop).2.2, Array.toList_append]
      exact List.prefix_append _ _
    · simp [next_of_length_le h]

/-- A later lexer that goes back to a checkpoint is the lexer of that
checkpoint: the diagnostics that it drops are those that came since. -/
theorem rewind_checkpoint (h : L.Extends L') : L'.rewind L.checkpoint = L := by
  have hdiagnostics : L'.diagnostics.take L.diagnostics.size = L.diagnostics := by
    apply Array.toList_inj.mp
    rw [Array.take_eq_extract, Array.toList_extract, List.extract_eq_take_drop, Nat.sub_zero,
      List.drop_zero]
    exact (List.prefix_iff_eq_take.mp h.diagnostics).symm
  unfold rewind checkpoint
  simp only [hdiagnostics]
  cases L
  cases L'
  obtain ⟨rfl, rfl, -⟩ := h
  rfl

/-! ### Reading ahead -/

/-- The lexers at the next `count` tokens, read in the normal context.
There are fewer where the source ends first. -/
def stream : (count : Nat) → Lexer → List Lexer
  | 0, _ => []
  | count + 1, L =>
    if L.current.kind = .eof then []
    else L.next .normal :: stream count (L.next .normal)

/-- At the end of the source nothing is read ahead. -/
theorem stream_of_eof (h : L.current.kind = .eof) (count : Nat) : L.stream count = [] := by
  cases count with
  | zero => rfl
  | succ count => rw [stream, if_pos h]

/-- The last lexer of a stream, or the first where the stream is
empty, is a later lexer. -/
theorem extends_stream (count : Nat) : L.Extends ((L.stream count).getLastD L) := by
  induction count generalizing L with
  | zero => exact .refl L
  | succ count ih =>
    rw [stream]
    split
    · exact .refl L
    · rw [List.getLastD_cons]
      exact extends_next.trans ih

/-- Reading on from the last lexer of a stream continues the stream. -/
theorem stream_add (m n : Nat) :
    L.stream (m + n) = L.stream m ++ ((L.stream m).getLastD L).stream n := by
  induction m generalizing L with
  | zero => rw [Nat.zero_add]; rfl
  | succ m ih =>
    rw [Nat.succ_add, stream, stream]
    split
    · rename_i h
      rw [List.nil_append]
      exact (stream_of_eof h n).symm
    · rw [List.getLastD_cons, List.cons_append, ih]

/-- A stream that is longer than the rest of the source has all of it:
each token but the last takes a character. -/
theorem stream_add_of_lt {m : Nat} (inside : L.IsInside)
    (h : L.source.length - L.position < m) (n : Nat) : L.stream (m + n) = L.stream m := by
  induction m generalizing L with
  | zero => omega
  | succ m ih =>
    rw [Nat.succ_add, stream, stream]
    split
    · rfl
    · congr 1
      by_cases hend : (L.next .normal).current.kind = .eof
      · rw [stream_of_eof hend, stream_of_eof hend]
      · have hlt := position_lt_next hend
        have hinside := inside.next .normal
        unfold IsInside at hinside
        rw [next_source] at hinside
        refine ih (inside.next .normal) ?_
        rw [next_source]
        omega

/-- The tokens at which these lexers stand, without the trivia. -/
def solidOf (lexers : List Lexer) : List Token :=
  (lexers.map (·.current)).filter fun token => !token.kind.isTrivia

/-- The tokens ahead that are no trivia, up to the end of the source. -/
def solid (L : Lexer) : List Token := solidOf (L.stream (L.source.length + 1))

/-- The tokens of two lists of lexers are those of the first one and then those
of the second. -/
theorem solidOf_append (l l' : List Lexer) : solidOf (l ++ l') = solidOf l ++ solidOf l' := by
  unfold solidOf
  rw [List.map_append, List.filter_append]

/-- A lexer at trivia adds no token. -/
theorem solidOf_cons_of_isTrivia {l : List Lexer} (h : L.current.kind.isTrivia = true) :
    solidOf (L :: l) = solidOf l := by
  simp [solidOf, h]

/-- A lexer at a token adds that token. -/
theorem solidOf_cons_of_not_isTrivia {l : List Lexer} (h : L.current.kind.isTrivia = false) :
    solidOf (L :: l) = L.current :: solidOf l := by
  simp [solidOf, h]

/-- Whatever was read ahead, what follows it completes the same list of
tokens. -/
theorem solidOf_stream_append (inside : L.IsInside) (m : Nat) :
    solidOf (L.stream m) ++ solidOf (((L.stream m).getLastD L).stream (L.source.length + 1))
      = L.solid := by
  rw [← solidOf_append, ← stream_add, Nat.add_comm,
    stream_add_of_lt inside (by omega), solid]

end Lexer

namespace Lookahead

variable {L : Lexer} {buffer : Lookahead} {context : LexContext}

/-- A lexer with `count` tokens read ahead, or as many as there are. -/
def reading (L : Lexer) (count : Nat) : Lookahead :=
  ⟨(L.stream count).getLastD L, L.checkpoint, (L.stream count).map Lexer.checkpoint⟩

/-- The buffer stands where the lexer does, with some tokens read
ahead. -/
def ReadsFrom (L : Lexer) (buffer : Lookahead) : Prop := ∃ count, buffer = reading L count

/-- A buffer starts with nothing read ahead. -/
theorem readsFrom_ofLexer (L : Lexer) : ReadsFrom L (.ofLexer L) := ⟨0, rfl⟩

/-- The buffer reads the source of the lexer, however far it has read ahead. -/
theorem ReadsFrom.source (h : ReadsFrom L buffer) : buffer.lexer.source = L.source := by
  obtain ⟨count, rfl⟩ := h
  exact (Lexer.extends_stream count).source

/-- The state that a buffer gives is that of the lexer. -/
theorem ReadsFrom.here (h : ReadsFrom L buffer) : buffer.here = L.checkpoint := by
  obtain ⟨count, rfl⟩ := h
  rfl

/-- What was read ahead does not matter for going back. -/
theorem ReadsFrom.rewind {L₀ : Lexer} (h : ReadsFrom L buffer) (later : L₀.Extends L) :
    buffer.rewind L₀.checkpoint = .ofLexer L₀ := by
  obtain ⟨count, rfl⟩ := h
  show Lookahead.ofLexer (((L.stream count).getLastD L).rewind L₀.checkpoint) = _
  rw [Lexer.rewind_checkpoint (later.trans (Lexer.extends_stream count))]

/-- Without what was read ahead the lexer is left. -/
theorem ReadsFrom.drop (h : ReadsFrom L buffer) : buffer.drop = .ofLexer L := by
  unfold Lookahead.drop
  split
  · obtain ⟨count, rfl⟩ := h
    rename_i hempty
    have hstream : L.stream count = [] := by
      simpa [reading] using hempty
    unfold reading
    rw [hstream]
    rfl
  · rw [h.here]
    exact h.rewind (.refl L)

/-- A step takes the next token from what was read ahead, or reads it:
the buffer stands at it in both cases. -/
theorem ReadsFrom.next (h : ReadsFrom L buffer) (context : LexContext) :
    ReadsFrom (L.next context) (buffer.next context) := by
  unfold Lookahead.next
  split
  · rename_i state ahead hahead
    obtain ⟨count, rfl⟩ := h
    -- Something was read ahead, so the stream is not empty.
    cases count with
    | zero => cases hahead
    | succ count =>
      simp only [reading, Lexer.stream] at hahead
      split at hahead
      · cases hahead
      · rename_i hkind
        rw [List.map_cons] at hahead
        cases hahead
        refine ⟨count, ?_⟩
        unfold reading
        rw [Lexer.stream, if_neg hkind, List.getLastD_cons]
  · rw [h.drop]
    exact readsFrom_ofLexer _

/-- One more token read ahead. -/
theorem fetch?_reading (count : Nat) :
    (reading L count).fetch? =
      if ((L.stream count).getLastD L).current.kind = .eof then none
      else some (reading L (count + 1)) := by
  show (if ((L.stream count).getLastD L).current.kind = .eof then none else _) = _
  split
  · rfl
  · rename_i h
    have hstream : L.stream (count + 1)
        = L.stream count ++ [((L.stream count).getLastD L).next .normal] := by
      rw [Lexer.stream_add, Lexer.stream, if_neg h, Lexer.stream]
    unfold reading
    rw [hstream, List.getLastD_concat, List.map_append]
    rfl

/-- Seeking a token finds it among those that follow what was read
ahead. The induction is on the fuel, one token for each. -/
theorem seek_reading (fuel wanted count : Nat) :
    ∃ more, seek fuel wanted (reading L count) =
      ((Lexer.solidOf (((L.stream count).getLastD L).stream fuel))[wanted]?, reading L more) := by
  induction fuel generalizing wanted count with
  | zero => exact ⟨count, rfl⟩
  | succ fuel ih =>
    unfold seek
    rw [fetch?_reading]
    by_cases hend : ((L.stream count).getLastD L).current.kind = .eof
    · rw [if_pos hend, Lexer.stream_of_eof hend]
      exact ⟨count, rfl⟩
    · have hlast : (L.stream (count + 1)).getLastD L
          = ((L.stream count).getLastD L).next .normal := by
        rw [Lexer.stream_add, Lexer.stream, if_neg hend, Lexer.stream, List.getLastD_concat]
      rw [if_neg hend, Lexer.stream, if_neg hend, ← hlast]
      show ∃ more, (if ((L.stream (count + 1)).getLastD L).current.kind.isTrivia then _ else _) = _
      by_cases htrivia : ((L.stream (count + 1)).getLastD L).current.kind.isTrivia = true
      · rw [if_pos htrivia, Lexer.solidOf_cons_of_isTrivia htrivia]
        exact ih wanted (count + 1)
      · rw [if_neg htrivia,
          Lexer.solidOf_cons_of_not_isTrivia (Bool.eq_false_iff.mpr htrivia)]
        cases wanted with
        | zero => exact ⟨count + 1, rfl⟩
        | succ wanted => exact ih wanted (count + 1)

/-- A question about a token ahead is answered from the list of all
tokens ahead, whatever was read before. -/
theorem ReadsFrom.nth? (h : ReadsFrom L buffer) (inside : L.IsInside) (n : Nat) :
    (buffer.nth? n).1 = L.solid[n]? ∧ ReadsFrom L (buffer.nth? n).2 := by
  obtain ⟨count, rfl⟩ := h
  have hsolid : (reading L count).solid = Lexer.solidOf (L.stream count) := by
    unfold solid reading Lexer.solidOf
    rw [List.map_map]
    rfl
  unfold Lookahead.nth?
  rw [hsolid]
  cases hfound : (Lexer.solidOf (L.stream count))[n]? with
  | some token =>
    refine ⟨?_, count, rfl⟩
    obtain ⟨hlt, -⟩ := List.getElem?_eq_some_iff.mp hfound
    rw [← Lexer.solidOf_stream_append inside count, List.getElem?_append_left hlt, hfound]
  | none =>
    have hge := List.getElem?_eq_none_iff.mp hfound
    obtain ⟨more, hmore⟩ := @seek_reading L ((reading L count).lexer.source.length + 1)
      (n - (Lexer.solidOf (L.stream count)).length) count
    simp only [hmore]
    refine ⟨?_, more, rfl⟩
    rw [(ReadsFrom.source ⟨count, rfl⟩ : (reading L count).lexer.source = L.source),
      ← Lexer.solidOf_stream_append inside count, List.getElem?_append_right hge]

/-! ### The text stays -/

section Source

variable {context : LexContext} {buffer' : Lookahead}

/-- To drop what was read ahead stays in the source. -/
theorem source_drop : buffer.drop.lexer.source = buffer.lexer.source := by
  unfold drop
  split <;> rfl

/-- A step of the buffer stays in the source. -/
theorem source_next : (buffer.next context).lexer.source = buffer.lexer.source := by
  unfold next
  split
  · rfl
  · exact Lexer.next_source.trans source_drop

/-- To read one token ahead stays in the source. -/
theorem source_of_fetch? (h : buffer.fetch? = some buffer') :
    buffer'.lexer.source = buffer.lexer.source := by
  unfold fetch? at h
  split at h
  · cases h
  · rw [← Option.some.inj h]
    exact Lexer.next_source

/-- To look for a token ahead stays in the source. -/
theorem source_seek (fuel wanted : Nat) :
    (seek fuel wanted buffer).2.lexer.source = buffer.lexer.source := by
  induction fuel generalizing wanted buffer with
  | zero => rfl
  | succ fuel ih =>
    unfold seek
    split
    · rfl
    · have hsource := source_of_fetch? ‹_›
      dsimp only
      split
      · rw [ih, hsource]
      · split
        · exact hsource
        · rw [ih, hsource]

/-- To ask for a token ahead stays in the source. -/
theorem source_nth? (n : Nat) : (buffer.nth? n).2.lexer.source = buffer.lexer.source := by
  unfold nth?
  split
  · rfl
  · exact source_seek _ _

end Source

end Lookahead

/-! Neither does a token source ever change its text. -/

namespace TokenSource

variable {source : TokenSource} {context : LexContext}

/-- To skip trivia stays in the source. -/
theorem source_skipTrivia (fuel : Nat) (gap : Gap) :
    (skipTrivia context fuel gap).buffer.lexer.source = gap.buffer.lexer.source := by
  induction fuel generalizing gap with
  | zero => rfl
  | succ fuel ih =>
    unfold skipTrivia
    dsimp only
    split
    · exact Lookahead.source_next
    · rw [ih]
      exact Lookahead.source_next

/-- After a step forward the text is that of the lexer behind the buffer. -/
theorem text_advanceFrom (buffer : Lookahead) (trivia : Array Trivia) :
    (advanceFrom buffer trivia context).text = buffer.lexer.source :=
  source_skipTrivia _ _

/-- A step forward stays in the text. -/
@[simp] theorem text_bump : (source.bump context).text = source.text := by
  unfold bump
  split
  · rfl
  · exact text_advanceFrom _ _

/-- To read the current token anew stays in the text. -/
@[simp] theorem text_relex : (source.relex context).text = source.text := by
  unfold relex
  split
  · rfl
  · exact text_advanceFrom _ _

/-- To go back to a checkpoint stays in the text: a checkpoint has no text of
its own. -/
@[simp] theorem text_rewind (checkpoint : Checkpoint) :
    (source.rewind checkpoint).text = source.text := rfl

/-- To ask for a kind stays in the text. -/
@[simp] theorem text_nthKind (n : Nat) : (source.nthKind n).2.text = source.text := by
  unfold nthKind
  split
  · rfl
  · exact Lookahead.source_nth? _

/-- To ask for a range stays in the text. -/
@[simp] theorem text_nthRange (n : Nat) : (source.nthRange n).2.text = source.text := by
  unfold nthRange
  split
  · rfl
  · exact Lookahead.source_nth? _

/-- To ask for trivia in front of a token stays in the text. -/
@[simp] theorem text_nthAfterTrivia (n : Nat) :
    (source.nthAfterTrivia n).2.text = source.text := by
  unfold nthAfterTrivia
  split
  · rfl
  · show (((source.nthRange n).2).nthRange (n - 1)).2.text = source.text
    rw [text_nthRange, text_nthRange]

end TokenSource

end MarkupSyntax
