import MarkupSyntax.Proofs.Token.Reading

/-!
# `MarkupSyntax.Proofs.Token.Seam`: token sources by the contexts of their tokens

A `Seam` is the place between two tokens: the lexer right after a
token, and the trivia recorded so far. From a seam one token is read in
a context, together with the trivia in front of it (`Seam.current`),
and behind it lies the next seam (`Seam.pass`). So the contexts of the
tokens that were consumed determine the seam (`Seam.along`), and one
more context the token source at the current token.

`TokenSource.StandsAt` says that a token source is the one that a seam
and the context of its current token determine, up to what it has read
ahead. Each operation of a token source keeps that:

- `bump` passes to the next seam, whatever was read ahead;
- `relex` stays at the seam and changes the context;
- looking ahead changes nothing, and its answer depends on the seam and
  the context only;
- `rewind` goes back to the seam of its checkpoint, if the token that
  was current there is still part of the way to the present seam.

The condition of the last point is what keeps diagnostics from being
lost: a checkpoint counts the diagnostics of its current token as that
token was read then.
-/

set_option autoImplicit false

namespace MarkupSyntax

/-- The pieces of trivia that these tokens are. The first ones are
trailing if `isTrailing` holds, up to the first line break. -/
def Trivia.ofTokens (isTrailing : Bool) : List Token → List Trivia
  | [] => []
  | token :: rest =>
    ⟨token.kind.triviaKind?.getD .whitespace, token.range,
      isTrailing && token.kind ≠ .newline⟩ ::
      ofTokens (isTrailing && token.kind ≠ .newline) rest

namespace Lexer

/-- The trivia in front of the next token, read in `context`. -/
def gap (L : Lexer) (context : LexContext) : List Token := L.passed context (L.source.length + 1)

/-- The lexer at the next token, read in `context`. -/
def target (L : Lexer) (context : LexContext) : Lexer := L.landed context (L.source.length + 1)

/-- A lexer inside its source reaches the next token within as many steps as the
source has characters, and one more. -/
theorem IsInside.suffices {L : Lexer} (h : L.IsInside) : L.Suffices (L.source.length + 1) :=
  ⟨h, by omega⟩

end Lexer

/-- The place between two tokens. -/
structure Seam where
  /-- The lexer right after the token before. -/
  lexer : Lexer
  /-- The trivia recorded up to that token. -/
  trivia : Array Trivia

namespace Seam

variable {seam : Seam} {context : LexContext}

/-- The place in front of the first token. -/
def ofSource (source file : Text) : Seam := ⟨.ofSource source file, #[]⟩

/-- The trivia in front of the next token, read in `context`. -/
def gap (seam : Seam) (context : LexContext) : List Trivia :=
  Trivia.ofTokens (0 < seam.lexer.position) (seam.lexer.gap context)

/-- The next token, read in `context`, as the current one. -/
def current (seam : Seam) (context : LexContext) : TokenSource.Current where
  kind := (seam.lexer.target context).current.kind
  range := (seam.lexer.target context).current.range
  context
  afterLineBreak := (seam.lexer.gap context).any (·.kind = .newline) ||
    (seam.lexer.target context).current.flags.afterLineBreak
  afterTrivia := !(seam.lexer.gap context).isEmpty
  origin := seam.lexer.checkpoint
  originTrivia := seam.trivia.size

/-- The place after the next token, read in `context`. -/
def pass (seam : Seam) (context : LexContext) : Seam :=
  ⟨seam.lexer.target context, seam.trivia ++ (seam.gap context).toArray⟩

/-- The place after tokens that were read in these contexts. -/
def along (seam : Seam) (contexts : List LexContext) : Seam := contexts.foldl pass seam

/-- Along no contexts the seam stays. -/
@[simp] theorem along_nil : seam.along [] = seam := rfl

/-- The last context of several is the one of the last token. -/
theorem along_concat (contexts : List LexContext) :
    seam.along (contexts ++ [context]) = (seam.along contexts).pass context :=
  List.foldl_append ..

/-- The tokens read from one seam to the next, trivia included. -/
def leg (seam : Seam) (context : LexContext) : List (LexContext × Token) :=
  (seam.lexer.gap context).map ((context, ·)) ++ [(context, (seam.lexer.target context).current)]

/-- The tokens read along these contexts, trivia included. -/
def legs (seam : Seam) : List LexContext → List (LexContext × Token)
  | [] => []
  | context :: rest => seam.leg context ++ (seam.pass context).legs rest

/-- The lexer reads from one seam to the next what the leg between them
holds. -/
theorem reads_leg (inside : seam.lexer.IsInside) (context : LexContext) :
    seam.lexer.Reads (seam.leg context) (seam.pass context).lexer :=
  (Lexer.reads_landed inside.suffices).1

/-- The next token is no trivia. -/
theorem isTrivia_current (inside : seam.lexer.IsInside) :
    (seam.current context).kind.isTrivia = false :=
  (Lexer.reads_landed inside.suffices).2

/-- The next seam is inside the source. -/
theorem isInside_pass (inside : seam.lexer.IsInside) (context : LexContext) :
    (seam.pass context).lexer.IsInside :=
  (reads_leg inside context).isInside inside

/-- All seams that are reached are inside the source. -/
theorem isInside_along (inside : seam.lexer.IsInside) (contexts : List LexContext) :
    (seam.along contexts).lexer.IsInside := by
  induction contexts generalizing seam with
  | nil => exact inside
  | cons context rest ih => exact ih (isInside_pass inside context)

/-- The lexer of a seam has read the tokens on the way to it. -/
theorem reads_legs (inside : seam.lexer.IsInside) (contexts : List LexContext) :
    seam.lexer.Reads (seam.legs contexts) (seam.along contexts).lexer := by
  induction contexts generalizing seam with
  | nil => exact .refl _
  | cons context rest ih => exact (reads_leg inside context).append (ih (isInside_pass inside context))

/-- A later seam has the trivia of an earlier one and perhaps more. -/
theorem trivia_prefix_along (contexts : List LexContext) :
    seam.trivia.toList <+: (seam.along contexts).trivia.toList := by
  induction contexts generalizing seam with
  | nil => exact List.prefix_refl _
  | cons context rest ih =>
    refine List.IsPrefix.trans ?_ ih
    rw [pass, Array.toList_append]
    exact List.prefix_append _ _

/-- A token that is not the end starts behind the seam, is not empty
and stops at the next seam. -/
theorem position_le_start (inside : seam.lexer.IsInside) :
    seam.lexer.position ≤ (seam.current context).range.start := by
  have hchain := (reads_leg inside context).chain
  unfold leg at hchain
  rw [List.map_append, List.map_map] at hchain
  generalize hgap : ((seam.lexer.gap context).map ((·.2) ∘ (context, ·))) = tokens at hchain
  show seam.lexer.position ≤ (seam.lexer.target context).current.range.start
  clear hgap
  generalize seam.lexer.position = start at hchain ⊢
  induction tokens generalizing start with
  | nil => exact Nat.le_of_eq hchain.1.symm
  | cons token tokens ih =>
    have hle := token.range.start_le_stop
    have hstart := hchain.1
    have := ih token.range.stop hchain.2
    omega

/-- A seam stands where the token before it stops. -/
theorem position_pass : (seam.pass context).lexer.position = (seam.current context).range.stop :=
  rfl

/-- The next token is inside the source. -/
theorem stop_le (inside : seam.lexer.IsInside) :
    (seam.current context).range.stop ≤ seam.lexer.source.length := by
  have hinside := isInside_pass inside context
  unfold Lexer.IsInside at hinside
  rwa [(reads_leg inside context).extends_.source] at hinside

/-- The next token is cut from the source, unless it is the end. -/
theorem cutIn_current (inside : seam.lexer.IsInside) (h : (seam.current context).kind ≠ .eof) :
    (seam.lexer.target context).current.CutIn seam.lexer.source context :=
  (reads_leg inside context).cutIn (context, (seam.lexer.target context).current)
    (List.mem_append_right _ (List.mem_singleton_self _)) h

/-- The end of the source is an empty token behind its last character. -/
theorem range_current_of_eof (inside : seam.lexer.IsInside)
    (h : (seam.current context).kind = .eof) :
    (seam.current context).range = .empty seam.lexer.source.length :=
  Lexer.range_landed_of_eof inside.suffices h

/-- Only the end of the source is an empty token. -/
theorem start_lt_stop (inside : seam.lexer.IsInside)
    (h : (seam.current context).kind ≠ .eof) :
    (seam.current context).range.start < (seam.current context).range.stop :=
  (cutIn_current inside h).bounds.1

end Seam

namespace TokenSource

variable {L : Lexer} {seam : Seam} {source : TokenSource} {context : LexContext}

/-- Passing trivia ends at the next token, with the trivia in front of
it recorded. The induction is on the fuel; each round reads one token,
from what was read ahead or from the source. -/
theorem skipTrivia_of_readsFrom {fuel : Nat} (gap : Gap) (h : Lookahead.ReadsFrom L gap.buffer)
    (enough : L.Suffices fuel) :
    Lookahead.ReadsFrom (L.landed context fuel) (skipTrivia context fuel gap).buffer ∧
    (skipTrivia context fuel gap).trivia.toList
      = gap.trivia.toList ++ Trivia.ofTokens gap.isTrailing (L.passed context fuel) ∧
    (skipTrivia context fuel gap).afterLineBreak
      = (gap.afterLineBreak || ((L.passed context fuel).any (·.kind = .newline) ||
          (L.landed context fuel).current.flags.afterLineBreak)) ∧
    (skipTrivia context fuel gap).afterTrivia
      = (gap.afterTrivia || !(L.passed context fuel).isEmpty) := by
  -- Both loops skip one token of trivia at a time. The one of the source also records it, which
  -- the accumulator `gap` is for.
  induction fuel generalizing L gap with
  | zero => exact absurd enough.2 (Nat.not_lt_zero _)
  | succ fuel ih =>
    have hnext := h.next context
    have hcurrent : (gap.buffer.next context).current = (L.next context).current := by
      unfold Lookahead.current
      rw [hnext.here]
      rfl
    unfold skipTrivia Lexer.passed Lexer.landed
    simp only [hcurrent]
    cases hkind : (L.next context).current.kind.triviaKind? with
    | none =>
      have htrivia : (L.next context).current.kind.isTrivia = false := by
        rw [TokenKind.isTrivia, hkind]; rfl
      rw [if_neg (Bool.eq_false_iff.mp htrivia), if_neg (Bool.eq_false_iff.mp htrivia)]
      exact ⟨hnext, (List.append_nil _).symm, by simp, by simp⟩
    | some kind =>
      have htrivia : (L.next context).current.kind.isTrivia = true := by
        rw [TokenKind.isTrivia, hkind]; rfl
      have hnewline : decide (kind = TriviaKind.newline)
          = decide ((L.next context).current.kind = .newline) := by
        revert hkind
        generalize (L.next context).current.kind = token
        cases token <;> intro hkind <;> cases hkind <;> decide
      rw [if_pos htrivia, if_pos htrivia]
      obtain ⟨hbuffer, hpieces, hbreak, hafter⟩ := ih
        { buffer := gap.buffer.next context
          trivia := gap.trivia.push ⟨kind, (L.next context).current.range,
            gap.isTrailing && !(decide (kind = TriviaKind.newline))⟩
          isTrailing := gap.isTrailing && !(decide (kind = TriviaKind.newline))
          afterLineBreak := gap.afterLineBreak || decide (kind = TriviaKind.newline)
          afterTrivia := true }
        hnext (enough.next htrivia)
      refine ⟨hbuffer, hpieces.trans ?_, hbreak.trans ?_, hafter.trans ?_⟩
      · simp [Trivia.ofTokens, hkind, hnewline]
      · simp [hnewline, Bool.or_assoc]
      · simp

/-- The token source is the one that the seam and the context of its
current token determine, up to what it has read ahead. -/
structure StandsAt (seam : Seam) (source : TokenSource) : Prop where
  current : source.current = seam.current source.current.context
  trivia : source.trivia = (seam.pass source.current.context).trivia
  buffer : Lookahead.ReadsFrom (seam.pass source.current.context).lexer source.buffer

/-- Reading a token from a seam stands at that seam. -/
theorem standsAt_advanceFrom {buffer : Lookahead} (h : Lookahead.ReadsFrom seam.lexer buffer)
    (inside : seam.lexer.IsInside) : StandsAt seam (advanceFrom buffer seam.trivia context) := by
  obtain ⟨hbuffer, hpieces, hbreak, hafter⟩ :=
    skipTrivia_of_readsFrom
      { buffer, trivia := seam.trivia, isTrailing := 0 < buffer.here.position } h inside.suffices
  have hsource := h.source
  have hposition : buffer.here.position = seam.lexer.position := by rw [h.here]; rfl
  unfold advanceFrom
  rw [hsource]
  refine ⟨?_, ?_, hbuffer⟩
  · simp only [Seam.current]
    have hhere := hbuffer.here
    unfold Lookahead.current
    rw [hhere, hbreak, hafter, h.here]
    simp only [Bool.false_or]
    rfl
  · apply Array.toList_inj.mp
    rw [hpieces, Seam.pass, Array.toList_append, Seam.gap, hposition]
    rfl

/-- At the start of a source. -/
theorem standsAt_ofLexer (text file : Text) :
    StandsAt (.ofSource text file) (ofLexer (.ofSource text file) context) :=
  standsAt_advanceFrom (Lookahead.readsFrom_ofLexer _) (Nat.zero_le _)

/-- Consuming the current token passes to the seam behind it. -/
theorem StandsAt.bump (h : StandsAt seam source) (inside : seam.lexer.IsInside)
    (hkind : source.current.kind ≠ .eof) :
    StandsAt (seam.pass source.current.context) (source.bump context) := by
  unfold TokenSource.bump
  rw [if_neg hkind, h.trivia]
  exact standsAt_advanceFrom h.buffer (Seam.isInside_pass inside _)

/-- The trivia recorded in front of a seam is what is left when the
later trivia is cut off. -/
theorem take_trivia_pass :
    (seam.pass context).trivia.take seam.trivia.size = seam.trivia := by
  apply Array.toList_inj.mp
  rw [Array.take_eq_extract, Array.toList_extract, List.extract_eq_take_drop, Seam.pass]
  simp

/-- Reading the current token anew stays at the seam. -/
theorem StandsAt.relex (h : StandsAt seam source) (inside : seam.lexer.IsInside) :
    StandsAt seam (source.relex context) := by
  unfold TokenSource.relex
  split
  · exact h
  · have horigin : source.current.origin = seam.lexer.checkpoint := by rw [h.current]; rfl
    have hcount : source.current.originTrivia = seam.trivia.size := by rw [h.current]; rfl
    rw [horigin, hcount, h.buffer.rewind (Seam.reads_leg inside _).extends_, h.trivia,
      take_trivia_pass]
    exact standsAt_advanceFrom (Lookahead.readsFrom_ofLexer _) inside

/-- The context of the current token after `relex`. -/
theorem context_relex : (source.relex context).current.context = context := by
  unfold TokenSource.relex
  split
  · rename_i h
    exact h.symm
  · rfl

/-- Going back to a checkpoint stands where the checkpoint was taken, if
the current token of that time is on the way to the present seam: what
was recorded up to it is then still there. -/
theorem StandsAt.rewind {seam' : Seam} {source' : TokenSource} {contexts : List LexContext}
    (h : StandsAt seam source) (inside : seam.lexer.IsInside) (h' : StandsAt seam' source')
    (onTheWay : seam'.pass source'.current.context
      = (seam.pass source.current.context).along contexts) :
    StandsAt seam (source'.rewind source.checkpoint) ∧
      (source'.rewind source.checkpoint).current = source.current ∧
      (source'.rewind source.checkpoint).trivia = source.trivia := by
  have hbuffer := h'.buffer
  have htrivia := h'.trivia
  rw [onTheWay] at hbuffer htrivia
  have hprefix : source.trivia.toList <+: source'.trivia.toList := by
    rw [h.trivia, htrivia]
    exact Seam.trivia_prefix_along contexts
  have hcut : source'.trivia.take source.trivia.size = source.trivia := by
    apply Array.toList_inj.mp
    rw [Array.take_eq_extract, Array.toList_extract, List.extract_eq_take_drop, Nat.sub_zero,
      List.drop_zero]
    exact (List.prefix_iff_eq_take.mp hprefix).symm
  have hback : source'.buffer.rewind source.buffer.here
      = .ofLexer (seam.pass source.current.context).lexer := by
    rw [h.buffer.here]
    exact hbuffer.rewind (Seam.reads_legs (Seam.isInside_pass inside _) contexts).extends_
  refine ⟨⟨h.current, ?_, ?_⟩, rfl, hcut⟩
  · exact hcut.trans h.trivia
  · show Lookahead.ReadsFrom _ (source'.buffer.rewind source.buffer.here)
    rw [hback]
    exact Lookahead.readsFrom_ofLexer _

/-! ### Looking ahead -/

/-- Asking for the token `n` places ahead changes nothing but what is
read ahead. -/
theorem StandsAt.ahead? (h : StandsAt seam source) (inside : seam.lexer.IsInside) (n : Nat) :
    (source.ahead? n).1 = (seam.pass source.current.context).lexer.solid[n - 1]? ∧
    StandsAt seam (source.ahead? n).2 ∧ (source.ahead? n).2.current = source.current := by
  obtain ⟨hanswer, hbuffer⟩ := h.buffer.nth? (Seam.isInside_pass inside _) (n - 1)
  exact ⟨hanswer, ⟨h.current, h.trivia, hbuffer⟩, rfl⟩

end TokenSource

namespace Seam

variable {seam : Seam} {context : LexContext}

/-- The kind of the token `n` places ahead, read in the normal context;
past the end of the source it is the end. -/
def kindAhead (seam : Seam) (context : LexContext) (n : Nat) : TokenKind :=
  if n = 0 then (seam.current context).kind
  else ((seam.pass context).lexer.solid[n - 1]?.map (·.kind)).getD .eof

/-- The range of the token `n` places ahead. -/
def rangeAhead (seam : Seam) (context : LexContext) (n : Nat) : TextRange :=
  if n = 0 then (seam.current context).range
  else ((seam.pass context).lexer.solid[n - 1]?.map (·.range)).getD
    (.empty (seam.current context).range.stop)

/-- True when the token `n` places ahead does not touch the one before
it. -/
def apartAhead (seam : Seam) (context : LexContext) (n : Nat) : Bool :=
  if n = 0 then (seam.current context).afterTrivia
  else (seam.rangeAhead context (n - 1)).stop < (seam.rangeAhead context n).start

end Seam

namespace Lexer

variable {L : Lexer}

/-- The tokens ahead are the next one and those ahead of it. -/
theorem solidOf_stream {fuel : Nat} (enough : L.Suffices fuel) (hkind : L.current.kind ≠ .eof) :
    solidOf (L.stream fuel)
      = (L.landed .normal fuel).current :: (L.landed .normal fuel).solid := by
  induction fuel generalizing L with
  | zero => exact absurd enough.2 (Nat.not_lt_zero _)
  | succ fuel ih =>
    rw [stream, if_neg hkind, landed]
    by_cases htrivia : (L.next .normal).current.kind.isTrivia = true
    · rw [if_pos htrivia, solidOf_cons_of_isTrivia htrivia]
      refine ih (enough.next htrivia) fun heof => ?_
      rw [heof] at htrivia
      cases htrivia
    · rw [if_neg htrivia, solidOf_cons_of_not_isTrivia (Bool.eq_false_iff.mpr htrivia), solid]
      congr 2
      by_cases hend : (L.next .normal).current.kind = .eof
      · rw [stream_of_eof hend, stream_of_eof hend]
      -- Both streams are as long as the rest of the source allows.
      · have hlt := position_lt_next hend
        have hinside := enough.1.next .normal
        have hfuel := enough.2
        have hposition := hinside
        unfold IsInside at hposition
        rw [next_source] at hposition
        have hshort := stream_add_of_lt hinside (m := fuel)
          (by rw [next_source]; omega) ((L.next .normal).source.length + 1)
        have hlong := stream_add_of_lt hinside (m := (L.next .normal).source.length + 1)
          (by omega) fuel
        rw [← hshort, Nat.add_comm, hlong]

/-- There are no more tokens ahead than characters, the end counted. -/
theorem length_stream_le (inside : L.IsInside) (count : Nat) :
    (L.stream count).length ≤ L.source.length - L.position + 1 := by
  induction count generalizing L with
  | zero => exact Nat.zero_le _
  | succ count ih =>
    rw [stream]
    split
    · exact Nat.zero_le _
    · rw [List.length_cons]
      by_cases hend : (L.next .normal).current.kind = .eof
      · rw [stream_of_eof hend, List.length_nil]
        omega
      · have hlt := position_lt_next hend
        have hinside := inside.next .normal
        have hlen := ih hinside
        unfold IsInside at hinside
        rw [next_source] at hinside hlen
        omega

/-- There are no more tokens to come than the source has characters, and one
more for its end. -/
theorem length_solid_le (inside : L.IsInside) : L.solid.length ≤ L.source.length + 1 := by
  have hfilter : L.solid.length ≤ (L.stream (L.source.length + 1)).length := by
    unfold solid solidOf
    exact Nat.le_trans (List.length_filter_le _ _) (Nat.le_of_eq (List.length_map _))
  have hstream := length_stream_le inside (L.source.length + 1)
  omega

end Lexer

namespace Seam

variable {seam : Seam} {context : LexContext}

/-- The kind one place ahead is the kind that a normal token has behind
the current one. -/
theorem kindAhead_one (inside : seam.lexer.IsInside)
    (hkind : (seam.current context).kind ≠ .eof) :
    seam.kindAhead context 1 = ((seam.pass context).current .normal).kind := by
  have hsolid := Lexer.solidOf_stream (isInside_pass inside context).suffices hkind
  show ((Lexer.solidOf _)[0]?.map (·.kind)).getD .eof = _
  rw [hsolid]
  rfl

/-- What is two and more places ahead is ahead of the next token. -/
theorem kindAhead_succ (inside : seam.lexer.IsInside)
    (hkind : (seam.current context).kind ≠ .eof) {n : Nat} (hn : 0 < n) :
    seam.kindAhead context (n + 1) = (seam.pass context).kindAhead .normal n := by
  have hsolid := Lexer.solidOf_stream (isInside_pass inside context).suffices hkind
  obtain ⟨m, rfl⟩ : ∃ m, n = m + 1 := ⟨n - 1, by omega⟩
  show ((Lexer.solidOf _)[m + 1]?.map (·.kind)).getD .eof = _
  rw [hsolid]
  rfl

/-- Far ahead there is only the end of the source. -/
theorem le_of_kindAhead_ne_eof (inside : seam.lexer.IsInside) {n : Nat}
    (h : seam.kindAhead context n ≠ .eof) : n ≤ seam.lexer.source.length + 1 := by
  rcases Nat.eq_zero_or_pos n with rfl | hpos
  · exact Nat.zero_le _
  · unfold kindAhead at h
    rw [if_neg (Nat.pos_iff_ne_zero.mp hpos)] at h
    cases htoken : (seam.pass context).lexer.solid[n - 1]? with
    | none =>
      rw [htoken] at h
      exact absurd rfl h
    | some token =>
      obtain ⟨hlt, -⟩ := List.getElem?_eq_some_iff.mp htoken
      have hlen := Lexer.length_solid_le (isInside_pass inside context)
      rw [(reads_leg inside context).extends_.source] at hlen
      omega

end Seam

namespace TokenSource

variable {seam : Seam} {source : TokenSource}

/-- The answer on the kind of a token ahead depends on the seam and the
context only. -/
theorem StandsAt.nthKind (h : StandsAt seam source) (inside : seam.lexer.IsInside) (n : Nat) :
    (source.nthKind n).1 = seam.kindAhead source.current.context n ∧
    StandsAt seam (source.nthKind n).2 ∧ (source.nthKind n).2.current = source.current := by
  unfold TokenSource.nthKind Seam.kindAhead
  split
  · exact ⟨congrArg TokenSource.Current.kind h.current, h, rfl⟩
  · obtain ⟨hanswer, hstands, hcurrent⟩ := h.ahead? inside n
    exact ⟨by rw [← hanswer], hstands, hcurrent⟩

/-- So does the answer on its range. -/
theorem StandsAt.nthRange (h : StandsAt seam source) (inside : seam.lexer.IsInside) (n : Nat) :
    (source.nthRange n).1 = seam.rangeAhead source.current.context n ∧
    StandsAt seam (source.nthRange n).2 ∧ (source.nthRange n).2.current = source.current := by
  have hrange : source.current.range = (seam.current source.current.context).range :=
    congrArg TokenSource.Current.range h.current
  unfold TokenSource.nthRange Seam.rangeAhead
  split
  · exact ⟨hrange, h, rfl⟩
  · obtain ⟨hanswer, hstands, hcurrent⟩ := h.ahead? inside n
    refine ⟨?_, hstands, hcurrent⟩
    rw [← hanswer, ← hrange, ← hcurrent]

/-- So does the answer on the trivia in front of it. -/
theorem StandsAt.nthAfterTrivia (h : StandsAt seam source) (inside : seam.lexer.IsInside)
    (n : Nat) :
    (source.nthAfterTrivia n).1 = seam.apartAhead source.current.context n ∧
    StandsAt seam (source.nthAfterTrivia n).2 ∧
      (source.nthAfterTrivia n).2.current = source.current := by
  unfold TokenSource.nthAfterTrivia Seam.apartAhead
  split
  · exact ⟨congrArg TokenSource.Current.afterTrivia h.current, h, rfl⟩
  · obtain ⟨hrange, hstands, hcurrent⟩ := h.nthRange inside n
    obtain ⟨hbefore, hstands', hcurrent'⟩ := hstands.nthRange inside (n - 1)
    refine ⟨?_, hstands', hcurrent'.trans hcurrent⟩
    rw [hcurrent] at hbefore
    show decide ((((source.nthRange n).2).nthRange (n - 1)).1.stop < (source.nthRange n).1.start) = _
    rw [hbefore, hrange]

end TokenSource

end MarkupSyntax
