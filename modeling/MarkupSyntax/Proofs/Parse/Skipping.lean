import Mathlib
import MarkupSyntax.Parse.Recovery
import MarkupSyntax.Proofs.Parse.Foresees
import MarkupSyntax.Proofs.Parse.Steps

/-!
# `MarkupSyntax.Proofs.Parse.Skipping`: recovery stops at the first balanced safe place

Recovery skips tokens in the normal context and keeps count of the braces
that it opened. So it is compared with a walk that asks nothing and counts
nothing: `Parser.later p k` is the parse `k` tokens later, and recovery may
stop there if the source is at its end, or if all braces opened on the way
are closed again and the place is safe (`Recovery.StopsAfter`). It goes on
to the first such place (`Recovery.Skips`).

That all braces are closed is said of the tokens alone
(`Recovery.Closed`): from each of them on, at least as many close as open.
The count of the loop is zero exactly then (`openBraces_eq_zero_iff`), and
it passes over a brace that closes none.

The walk and the loop stay abreast, since the questions of the loop change
nothing but what is read ahead.
-/

set_option autoImplicit false

namespace MarkupSyntax

variable {L : Lexer} {p q : Parser}

/-! ### Braces -/

namespace Recovery

variable {kinds : List TokenKind} {depth : Nat}

/-- The number of open braces behind one more token. -/
def braceStep (depth : Nat) (kind : TokenKind) : Nat :=
  if openers.contains kind then depth + 1 else if kind = .rBrace then depth - 1 else depth

/-- The number of braces that are open behind these tokens. -/
def openBraces (kinds : List TokenKind) : Nat := kinds.foldl braceStep 0

/-- Every brace that is opened among the tokens is closed among them: from
each token on, as many braces close as open, or more. -/
def Closed (kinds : List TokenKind) : Prop :=
  ∀ tail, tail <:+ kinds → tail.countP openers.contains ≤ tail.count .rBrace

/-- A closing brace opens none, whether it closes one or not. -/
theorem closed_concat_rBrace (h : Closed kinds) : Closed (kinds ++ [.rBrace]) := by
  intro tail htail
  rcases List.suffix_concat_iff.mp htail with rfl | ⟨front, rfl, hfront⟩
  · exact Nat.le_refl _
  · have := h front hfront
    rw [List.countP_append, List.count_append]
    exact Nat.add_le_add this (by decide)

/-- Braces are counted token by token. -/
theorem openBraces_concat (kinds : List TokenKind) (kind : TokenKind) :
    openBraces (kinds ++ [kind]) = braceStep (openBraces kinds) kind := by
  rw [openBraces, List.foldl_append]
  rfl

/-- The count is the largest number of braces that some tail leaves open.
The induction is on the tokens from the last one back, as the count is. -/
theorem openBraces_le_iff : openBraces kinds ≤ depth ↔
    ∀ tail, tail <:+ kinds → tail.countP openers.contains ≤ tail.count .rBrace + depth := by
  -- The count goes from left to right, so the last token comes off first.
  induction kinds using List.reverseRecOn generalizing depth with
  | nil =>
    refine iff_of_true (Nat.zero_le _) fun tail htail => ?_
    rw [List.suffix_nil.mp htail]
    exact Nat.zero_le _
  | append_singleton kinds kind ih =>
    -- A suffix of the longer list is empty, or a suffix of the shorter one and the last token.
    have htails : (∀ tail, tail <:+ kinds ++ [kind] →
        tail.countP openers.contains ≤ tail.count .rBrace + depth) ↔
        ∀ front, front <:+ kinds →
          front.countP openers.contains + [kind].countP openers.contains
            ≤ front.count .rBrace + [kind].count .rBrace + depth := by
      constructor
      · intro h front hfront
        have := h (front ++ [kind]) (List.suffix_concat_iff.mpr (.inr ⟨front, rfl, hfront⟩))
        rwa [List.countP_append, List.count_append] at this
      · intro h tail htail
        rcases List.suffix_concat_iff.mp htail with rfl | ⟨front, rfl, hfront⟩
        · exact Nat.zero_le _
        · rw [List.countP_append, List.count_append]
          exact h front hfront
    rw [openBraces_concat, htails, List.countP_singleton, List.count_singleton]
    unfold braceStep
    by_cases hopener : openers.contains kind = true
    · have hcloser : kind ≠ .rBrace := by
        rintro rfl
        exact absurd hopener (by decide)
      simp only [hopener, if_true, beq_iff_eq, hcloser, if_false]
      cases depth with
      | zero =>
        refine iff_of_false (by omega) fun h => ?_
        exact absurd (h [] List.nil_suffix) (by decide)
      | succ depth =>
        rw [Nat.succ_le_succ_iff, ih]
        exact forall₂_congr fun front _ => by omega
    · simp only [Bool.not_eq_true] at hopener
      simp only [hopener, Bool.false_eq_true, if_false, beq_iff_eq]
      by_cases hcloser : kind = .rBrace
      · simp only [if_pos hcloser]
        rw [Nat.sub_le_iff_le_add, ih]
        exact forall₂_congr fun front _ => by omega
      · simp only [if_neg hcloser]
        exact ih

/-- Nothing is open behind the tokens if they close what they open. -/
theorem openBraces_eq_zero_iff : openBraces kinds = 0 ↔ Closed kinds := by
  rw [← Nat.le_zero, openBraces_le_iff]
  rfl

end Recovery

/-! ### The walk -/

namespace Parser

/-- The parse `k` tokens later. -/
def later (p : Parser) : (k : Nat) → Parser
  | 0 => p
  | k + 1 => (p.later k).bump .normal none none

/-- The kinds of the `k` tokens on the way. -/
def kindsPast (p : Parser) (k : Nat) : List TokenKind :=
  (List.range k).map fun i => (p.later i).kind

/-- The `k` tokens on the way, as they are recorded. -/
def tokensPast (p : Parser) (k : Nat) : List Event :=
  (List.range k).map fun i => .token (.token (p.later i).kind) (p.later i).range.stop none

/-- One token more is passed. -/
theorem kindsPast_succ (p : Parser) (k : Nat) :
    p.kindsPast (k + 1) = p.kindsPast k ++ [(p.later k).kind] := by
  rw [kindsPast, List.range_succ, List.map_append]
  rfl

/-- The same with the tokens themselves. -/
theorem tokensPast_succ (p : Parser) (k : Nat) : p.tokensPast (k + 1)
    = p.tokensPast k ++ [.token (.token (p.later k).kind) (p.later k).range.stop none] := by
  rw [tokensPast, List.range_succ, List.map_append]
  rfl

/-- As many tokens are passed as steps are taken. -/
@[simp] theorem length_tokensPast (p : Parser) (k : Nat) : (p.tokensPast k).length = k := by
  rw [tokensPast, List.length_map, List.length_range]

/-- What a parser is behind a token that is not the end of the source. -/
theorem bump_of_ne_eof (notEnd : p.kind ≠ .eof) :
    p.bump .normal none none = { p with
      events := p.events.push (.token (.token p.kind) p.range.stop none)
      source := p.source.bump .normal } :=
  if_neg notEnd

/-- The way adds tokens to the record, and leaves all but the record and
the token source alone. -/
theorem later_eq (p : Parser) (k : Nat) :
    p.later k = { p with events := (p.later k).events, source := (p.later k).source } := by
  induction k with
  | zero => rfl
  | succ k ih =>
    show (p.later k).bump .normal none none = _
    by_cases notEnd : (p.later k).kind = .eof
    · have hstays : p.later (k + 1) = p.later k := if_pos notEnd
      rw [hstays]
      exact (if_pos notEnd).trans ih
    · have hnext : p.later (k + 1) = _ := bump_of_ne_eof notEnd
      rw [hnext, bump_of_ne_eof notEnd]
      dsimp only
      rw [ih]

/-- Characters that are left, and one more in front of the end. -/
def way (p : Parser) : Nat := p.text.length - p.range.stop + if p.kind = .eof then 0 else 1

/-- Parsers that stand at one place have the same way in front of them. -/
theorem Abreast.way (h : Abreast L p q) : q.way = p.way := by
  unfold Parser.way
  rw [h.kind, h.range, show q.text = p.text from h.source.text]

/-- With each token there is less left. -/
theorem way_bump_lt (hp : TokenSource.Poised L p.source) (notEnd : p.kind ≠ .eof) :
    (p.bump .normal none none).way < p.way ∧
      (p.bump .normal none none).text.length = p.text.length := by
  have hnext := (hp.bump notEnd).1
  have hstart := @Seam.position_le_start ⟨L, #[]⟩ .normal hp.inside
  have hinside := @Seam.stop_le ⟨L, #[]⟩ .normal hp.inside
  have htext : p.text.length = L.source.length := congrArg List.length hp.reads.source
  have htext' : (p.source.bump .normal).text.length = L.source.length :=
    congrArg List.length (TokenSource.text_bump.trans hp.reads.source)
  have hstop : p.range.stop = L.position := congrArg TextRange.stop hp.range
  have hstop' : (p.source.bump .normal).current.range.stop
      = (L.target .normal).current.range.stop := congrArg TextRange.stop hnext.range
  have hkind' : (p.source.bump .normal).current.kind = (L.target .normal).current.kind := hnext.kind
  rw [bump_of_ne_eof notEnd]
  refine ⟨?_, htext'.trans htext.symm⟩
  unfold way
  show (p.source.bump .normal).text.length - (p.source.bump .normal).current.range.stop
    + (if (p.source.bump .normal).current.kind = .eof then 0 else 1) < _
  rw [htext, htext', hstop, hstop', hkind', if_neg notEnd]
  have hrange := (L.target .normal).current.range.start_le_stop
  have hbehind : L.position ≤ (L.target .normal).current.range.start := hstart
  have hin : (L.target .normal).current.range.stop ≤ L.source.length := hinside
  split
  · omega
  · rename_i hgoes
    have hlt : (L.target .normal).current.range.start < (L.target .normal).current.range.stop :=
      @Seam.start_lt_stop ⟨L, #[]⟩ .normal hp.inside hgoes
    omega

end Parser

/-! ### Recovery -/

namespace Recovery

open Parse

variable {recovery : Recovery}

/-- The parse is at a safe place. -/
def IsSafeAt (recovery : Recovery) (p : Parser) : Prop := ∃ q, recovery.isSafe p = .ok true q

/-- Recovery may stop `k` tokens later. -/
def StopsAfter (recovery : Recovery) (p : Parser) (k : Nat) : Prop :=
  (p.later k).kind = .eof ∨ Closed (p.kindsPast k) ∧ recovery.IsSafeAt (p.later k)

/-- Whether recovery may stop is foreseen if its own question is. -/
theorem foresees_isSafe (hresumes : Foresees recovery.resumes) : Foresees recovery.isSafe := by
  unfold isSafe
  refine (Foresees.seesAny recovery.stops).bind fun _ => .ite (.pure true) ?_
  refine .ite ?_ hresumes
  exact Foresees.seesCloseTag.bind fun _ => .ite (.pure true) hresumes

/-- Whether a place is safe is what is answered there. -/
theorem isSafeAt_iff {answer : Bool} (hp : TokenSource.Poised L p.source)
    (h : Foretells L p recovery.isSafe answer) : recovery.IsSafeAt p ↔ answer = true := by
  obtain ⟨answer', q, hrun, rfl, -⟩ := (h p (.refl hp)).exists_ok
  constructor
  · rintro ⟨r, hsafe⟩
    rw [hrun] at hsafe
    cases hsafe
    rfl
  · rintro rfl
    exact ⟨q, hrun⟩

/-- The loop has skipped `k` tokens into an open node, and could not stop
at any of them. -/
structure Skipping (recovery : Recovery) (p : Parser) (k : Nat) (q : Parser) : Prop where
  abreast : ∃ L, (p.later k).Abreast L q
  events : q.events.toList = p.events.toList ++ .pending :: p.tokensPast k
  unstopped : ∀ i < k, ¬recovery.StopsAfter p i

/-- One token more is skipped. -/
theorem Skipping.bump {k : Nat} (h : recovery.Skipping p k q) (notStop : ¬recovery.StopsAfter p k) :
    recovery.Skipping p (k + 1) (q.bump .normal none none) ∧
      (q.bump .normal none none).way < q.way := by
  obtain ⟨L, habreast⟩ := h.abreast
  have notEnd : (p.later k).kind ≠ .eof := fun hend => notStop (.inl hend)
  have notEnd' : q.kind ≠ .eof := habreast.kind ▸ notEnd
  refine ⟨⟨⟨_, habreast.bump notEnd⟩, ?_, ?_⟩, (Parser.way_bump_lt habreast.poised notEnd').1⟩
  · rw [Parser.bump_of_ne_eof notEnd', p.tokensPast_succ, habreast.kind, habreast.range]
    dsimp only
    rw [Array.toList_push, h.events, List.append_assoc, List.cons_append]
  · intro i hi
    rcases Nat.lt_succ_iff_lt_or_eq.mp hi with hi | rfl
    · exact h.unstopped i hi
    · exact notStop

/-- Asking changes nothing here. -/
theorem Skipping.asked {k : Nat} {r : Parser} (h : recovery.Skipping p k q)
    (habreast : (p.later k).Abreast L r) (hevents : r.events = q.events) :
    recovery.Skipping p k r :=
  ⟨⟨L, habreast⟩, by rw [hevents, h.events], h.unstopped⟩

/-- A round of the loop stops where recovery may stop, and else skips a
token. -/
theorem yields_skip_later {k : Nat} (hresumes : Foresees recovery.resumes)
    (h : recovery.Skipping p k q) :
    Yields (recovery.skip (openBraces (p.kindsPast k))) q fun round r =>
      match round with
      | .again depth => (recovery.Skipping p (k + 1) r ∧ depth = openBraces (p.kindsPast (k + 1))) ∧
          r.way < q.way
      | .done _ => recovery.Skipping p k r ∧ recovery.StopsAfter p k := by
  obtain ⟨L, habreast⟩ := h.abreast
  -- Wherever the round does not stop, it counts the token and consumes it.
  have hbump : ∀ r, recovery.Skipping p k r → r.kind = q.kind → r.way = q.way →
      ¬recovery.StopsAfter p k → Yields (do
        let isOpener ← seesAny openers
        let isCloser ← sees .rBrace
        bump
        return Round.again (if isOpener then openBraces (p.kindsPast k) + 1
          else if isCloser then openBraces (p.kindsPast k) - 1 else openBraces (p.kindsPast k))) r
        fun round r => match (round : Round Nat Unit) with
        | .again depth => (recovery.Skipping p (k + 1) r ∧
            depth = openBraces (p.kindsPast (k + 1))) ∧ r.way < q.way
        | .done _ => recovery.Skipping p k r ∧ recovery.StopsAfter p k := by
    intro r hr hkind hway notStop
    obtain ⟨hnext, hless⟩ := hr.bump notStop
    refine ⟨⟨hnext, ?_⟩, hway ▸ hless⟩
    rw [p.kindsPast_succ, openBraces_concat, ← habreast.kind, ← hkind]
    unfold braceStep
    simp only [decide_eq_true_eq]
  unfold skip
  refine .sees fun atEnd hend => .ite (fun hatEnd => .pure ⟨h, .inl ?_⟩) fun hgoes => ?_
  · rw [← habreast.kind]
    exact hend.mp hatEnd
  have notEnd : (p.later k).kind ≠ .eof := fun hkind =>
    hgoes (hend.mpr (habreast.kind.trans hkind))
  -- Only outside all braces is the question asked whether it is safe to stop.
  refine .ite (fun hclosed => ?_) fun hopen => hbump q h rfl rfl fun hstop => ?_
  · obtain ⟨answer, hanswer⟩ := foresees_isSafe hresumes L _ habreast.source.poised
    have hsafe := isSafeAt_iff habreast.source.poised hanswer
    refine (hanswer q habreast).bind ?_
    rintro _ r ⟨rfl, hr, hevents⟩
    have hasked := h.asked hr hevents
    refine .ite (fun hyes => .pure ⟨hasked, .inr ⟨?_, hsafe.mpr hyes⟩⟩) fun hno =>
      hbump r hasked (hr.kind.trans habreast.kind.symm) (hr.way.trans habreast.way.symm)
        fun hstop => ?_
    · exact openBraces_eq_zero_iff.mp hclosed
    · exact hno (hsafe.mp (hstop.resolve_left notEnd).2)
  · exact hopen (openBraces_eq_zero_iff.mpr (hstop.resolve_left notEnd).1)

/-- A node that is started is open at the end of the record. -/
theorem yields_start_then {α : Type} {f : Marker → Parse α} {post : α → Parser → Prop}
    (h : Yields (f { index := p.events.size, offset := p.position, firstEvent := p.events.size })
      { p with events := p.events.push .pending } post) : Yields (start >>= f) p post := h

/-- Completing a node whose start is at this place of the record. -/
theorem yields_complete_around {marker : Marker} {front rest : List Event} (kind : SyntaxKind)
    (hevents : q.events.toList = front ++ .pending :: rest) (hindex : marker.index = front.length) :
    Yields (marker.complete kind) q fun node r =>
      r = { q with events := r.events } ∧
        r.events.toList = front ++ .start kind none none :: rest ++ [.finish] ∧
        node = ⟨front.length, front.length + 1 + rest.length, marker.offset, marker.firstEvent⟩ := by
  have hpending : q.events[marker.index]? = some .pending := by
    rw [← Array.getElem?_toList, hevents, hindex, List.getElem?_append_right (Nat.le_refl _),
      Nat.sub_self]
    rfl
  have hset : (q.events.setIfInBounds marker.index (.start kind none none)).toList
      = front ++ .start kind none none :: rest := by
    rw [Array.toList_setIfInBounds, hevents, hindex, List.set_append_right _ _ (Nat.le_refl _),
      Nat.sub_self]
    rfl
  have hsize : (q.events.setIfInBounds marker.index (.start kind none none)).size
      = front.length + 1 + rest.length := by
    rw [← Array.length_toList, hset, List.length_append, List.length_cons]
    omega
  unfold Marker.complete
  refine .changeStart hpending (.get (.modify (.pure ⟨rfl, ?_, ?_⟩)))
  · show ((q.events.setIfInBounds marker.index (.start kind none none)).push .finish).toList = _
    rw [Array.toList_push, hset]
  · rw [← hsize, ← hindex]

/-- Nothing has changed but what is read ahead. -/
structure Unmoved (p q : Parser) : Prop where
  abreast : ∃ L, p.Abreast L q
  events : q.events = p.events

/-- A node was made of `k` tokens, the least number after which recovery
may stop. -/
structure Skips (recovery : Recovery) (p : Parser) (k : Nat) (node : Completed) (q : Parser) :
    Prop where
  pos : 0 < k
  least : IsLeast {k | recovery.StopsAfter p k} k
  /-- A closing brace that closes none is passed like any other token. -/
  unmatched : ∀ i < k, Closed (p.kindsPast i) → (p.later i).kind = .rBrace →
    Closed (p.kindsPast (i + 1))
  /-- The tokens to come are those that come after `k` tokens. -/
  abreast : ∃ L, (p.later k).Abreast L q
  events : q.events.toList = p.events.toList ++
    .start recovery.nodeKind none none :: p.tokensPast k ++ [.finish]
  node : node = ⟨p.events.size, p.events.size + 1 + k, p.position, p.events.size⟩

/-- Recovery skips nothing at the end of the source, at a safe place and
in speculation. Anywhere else it skips to the first place where it may
stop. -/
theorem yields_recover_first (hresumes : Foresees recovery.resumes)
    (hp : TokenSource.Poised L p.source) :
    Yields recovery.recover p fun result q =>
      match result with
      | .error .atEnd => Unmoved p q ∧ p.kind = .eof
      | .error .alreadySafe => Unmoved p q ∧ p.kind ≠ .eof ∧ recovery.IsSafeAt p
      | .error .speculative =>
        Unmoved p q ∧ p.kind ≠ .eof ∧ ¬recovery.IsSafeAt p ∧ p.isSpeculative = true
      | .ok node => (p.kind ≠ .eof ∧ ¬recovery.IsSafeAt p ∧ p.isSpeculative = false) ∧
          ∃ k, recovery.Skips p k node q := by
  obtain ⟨answer, hanswer⟩ := foresees_isSafe hresumes L p hp
  have hsafe := isSafeAt_iff hp hanswer
  unfold recover
  refine .sees fun atEnd hend => .ite (fun hatEnd => .pure ⟨⟨⟨L, .refl hp⟩, rfl⟩, hend.mp hatEnd⟩)
    fun hgoes => ?_
  have notEnd : p.kind ≠ .eof := fun hkind => hgoes (hend.mpr hkind)
  refine (hanswer p (.refl hp)).bind ?_
  rintro _ q ⟨rfl, hq, hevents⟩
  have hunmoved : Unmoved p q := ⟨⟨L, hq⟩, hevents⟩
  have hspeculative : q.isSpeculative = p.isSpeculative := by rw [hq.rest]; rfl
  refine .ite (fun hyes => .pure ⟨hunmoved, notEnd, hsafe.mpr hyes⟩) fun hno => ?_
  have notSafe : ¬recovery.IsSafeAt p := fun h => hno (hsafe.mp h)
  refine .get (.ite (fun hspec => .pure ⟨hunmoved, notEnd, notSafe, hspeculative ▸ hspec⟩)
    fun hspec => ?_)
  have notStop : ¬recovery.StopsAfter p 0 := by
    rintro (hkind | ⟨-, hplace⟩)
    · exact notEnd hkind
    · exact notSafe hplace
  -- The node is open, and no token is skipped yet.
  refine yields_start_then ?_
  have hskipping : recovery.Skipping p 0 { q with events := q.events.push .pending } :=
    ⟨⟨L, hq.record _⟩, by rw [Array.toList_push, hevents]; rfl, nofun⟩
  have hloop : Yields (loop recovery.skip 0) { q with events := q.events.push .pending }
      fun _ r => ∃ k, recovery.Skipping p k r ∧ recovery.StopsAfter p k := by
    refine yields_loop (fun depth r => ∃ k, recovery.Skipping p k r ∧
      depth = openBraces (p.kindsPast k)) (fun _ r => r.way) ?_ ⟨0, hskipping, rfl⟩ ?_
    · rintro depth r ⟨k, hr, rfl⟩
      refine (yields_skip_later hresumes hr).mono ?_
      rintro (depth' | _) s hs
      · exact ⟨⟨k + 1, hs.1⟩, hs.2⟩
      · exact ⟨k, hs⟩
    · unfold Parser.way
      split <;> omega
  refine hloop.bind ?_
  rintro _ r ⟨k, hr, hstops⟩
  have hindex : q.events.size = p.events.toList.length := by rw [hevents, Array.length_toList]
  refine (yields_complete_around recovery.nodeKind hr.events hindex).bind ?_
  rintro node s ⟨hs, hrecord, rfl⟩
  obtain ⟨L', habreast⟩ := hr.abreast
  refine .pure ⟨⟨notEnd, notSafe, ?_⟩, k, ?_, ⟨hstops, fun i hi => ?_⟩,
    fun i _ hclosed hkind => ?_, ⟨L', ?_⟩, hrecord, ?_⟩
  · rw [← hspeculative]
    exact Bool.eq_false_iff.mpr hspec
  · refine Nat.pos_of_ne_zero ?_
    rintro rfl
    exact notStop hstops
  · exact Nat.not_lt.mp fun hlt => hr.unstopped i hlt hi
  · rw [p.kindsPast_succ, hkind]
    exact closed_concat_rBrace hclosed
  · rw [hs]
    exact habreast.record _
  · rw [hevents, Array.length_toList, Parser.length_tokensPast]
    show Completed.mk _ _ q.range.start _ = _
    rw [hq.range]
    rfl

end Recovery

end MarkupSyntax
