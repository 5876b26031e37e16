import MarkupSyntax.Parse.Recovery
import MarkupSyntax.Proofs.Parse.Markers

/-!
# `MarkupSyntax.Proofs.Parse.Recovering`: skipping and lists

Skipping goes on at least one token, or skips nothing at all: that a
place is not safe was just seen, and the first round sees it again,
since looking does not change what is seen (`Settled`).

A list comes to its end because each item it reads and each stretch it
skips consumes the token that the round started at. This is also why the
list never finds itself where it was: the next token starts behind that
one, in whichever context it is read (`Behind`).
-/

set_option autoImplicit false

namespace MarkupSyntax

open Grammar

variable {p q r : Parser}

/-- What is added is some word. -/
theorem Adds.anything {word : Language Role} (h : Adds p q word) : Adds p q ⊤ := h.mono le_top

/-- Some word followed by another is some word. -/
theorem Adds.more {word : Language Role} (h : Adds p q ⊤) (h' : Adds q r word) : Adds p r ⊤ :=
  (h.trans h').anything

namespace Recovery

open Parse

variable {recovery : Recovery}

/-- Whether recovery may stop is settled if its own question is. -/
theorem settled_isSafe (hresumes : Settled recovery.resumes) : Settled recovery.isSafe := by
  unfold isSafe
  refine (settled_seesAny recovery.stops).bind fun _ => .ite (.pure true) ?_
  refine .ite ?_ hresumes
  exact settled_seesCloseTag.bind fun _ => .ite (.pure true) hresumes

/-- One round of skipping ends at the end of the source or at a safe
place, or consumes a token. -/
theorem yields_skip (hp : p.Live) (depth : Nat) {safe : Prop}
    (hsafe : Yields recovery.isSafe p fun answer q => (answer = true → safe) ∧ Quiet p q) :
    Yields (recovery.skip depth) p fun round q =>
      match round with
      | .again _ => Adds p q ⊤ ∧ Takes p q
      | .done _ => Quiet p q ∧ (p.kind = .eof ∨ safe) := by
  have hbump : ∀ q, Quiet p q → p.kind ≠ .eof → Yields (do
      let isOpener ← seesAny openers
      let isCloser ← sees .rBrace
      bump
      return Round.again
        (if isOpener then depth + 1 else if isCloser then depth - 1 else depth)) q
      fun round q => match (round : Round Nat Unit) with
      | .again _ => Adds p q ⊤ ∧ Takes p q
      | .done _ => Quiet p q ∧ (p.kind = .eof ∨ safe) := by
    intro q hq notEnd
    refine .seesAny fun isOpener _ => .sees fun isCloser _ => ?_
    have hlive := (hq.grows hp).live
    refine (yields_bump hlive (by rw [hq.kind]; exact notEnd) .normal none).bind ?_
    intro _ r hpost
    obtain ⟨hadds, htakes, -⟩ := hpost
    exact .pure ⟨((Adds.of_grows (hq.grows hp)).trans hadds).anything, hq.takes htakes⟩
  unfold skip
  refine .sees fun atEnd hend => .ite (fun h => .pure ⟨.refl _, .inl (hend.mp h)⟩) fun h => ?_
  have notEnd : p.kind ≠ .eof := fun hkind => h (hend.mpr hkind)
  dsimp only
  refine .ite (fun _ => hsafe.bind ?_) fun _ => hbump p (.refl p) notEnd
  intro answer q hpost
  obtain ⟨hanswer, hq⟩ := hpost
  exact .ite (fun h => .pure ⟨hq, .inr (hanswer h)⟩) fun _ => hbump q hq notEnd

/-- Skipping from a place that is not safe consumes its token, and goes
on to the next safe place. -/
theorem yields_skipping (hresumes : Settled recovery.resumes) (hp : p.Live)
    (notEnd : p.kind ≠ .eof)
    (notSafe : ∀ q, Still p q → Yields recovery.isSafe q fun answer r =>
      answer = false ∧ Quiet q r) :
    Yields (loop recovery.skip 0) p fun _ q => Adds p q ⊤ ∧ Takes p q := by
  refine yields_loop (fun _ q => Adds p q ⊤ ∧ (Takes p q ∨ Still p q)) (fun _ q => q.room) ?_
    ⟨(Adds.refl hp).anything, .inr (.refl p)⟩ (by unfold Parser.room; omega)
  intro depth q hpost
  obtain ⟨hadds, hway⟩ := hpost
  -- In the first round the place is as unsafe as it was.
  have hsafe : Yields recovery.isSafe q fun answer r =>
      (answer = true → Takes p q) ∧ Quiet q r := by
    rcases hway with htakes | hstill
    · exact ((settled_isSafe hresumes).quiet hadds.live).mono fun _ _ hr => ⟨fun _ => htakes, hr⟩
    · refine (notSafe q hstill).mono ?_
      intro _ r hpost
      obtain ⟨rfl, hr⟩ := hpost
      exact ⟨nofun, hr⟩
  refine (yields_skip hadds.live depth hsafe).mono ?_
  rintro (depth' | _) r hr
  · obtain ⟨hadds', htakes'⟩ := hr
    refine ⟨⟨hadds.more hadds', .inl ?_⟩, htakes'.room_lt hadds.live⟩
    rcases hway with htakes | hstill
    · exact htakes.trans htakes'.reaches
    · exact hstill.takes htakes'
  · obtain ⟨hr, hend⟩ := hr
    refine ⟨hadds.quiet hr, ?_⟩
    rcases hway with htakes | hstill
    · exact htakes.trans hr.reaches
    · rcases hend with hend | htakes
      · exact absurd (hstill.kind ▸ hend) notEnd
      · exact htakes.trans hr.reaches

/-- After an error, recovery skips from the current token on, or skips
nothing. -/
theorem yields_recover (hresumes : Settled recovery.resumes)
    (plain : recovery.nodeKind.isLooseNode = true) (hp : p.Live) (hfail : p.errorCount ≠ 0)
    (word : Language Role) :
    Yields recovery.recover p fun result q =>
      Adds p q word ∧ (if result.isOk then Takes p q else Still p q) := by
  obtain ⟨answer, hanswer⟩ := settled_isSafe hresumes p hp
  -- A refusal of any kind leaves everything as it was.
  have hidle : ∀ (q : Parser) (refusal : RecoveryRefusal), Quiet p q →
      Yields (pure (.error refusal) : Parse (Except RecoveryRefusal Completed)) q
        fun result q => Adds p q word ∧ (if result.isOk then Takes p q else Still p q) := by
    intro q refusal hq
    exact .pure ⟨((Adds.refl hp).quiet hq).of_failed (hq.errorCount ▸ hfail), hq.toStill⟩
  unfold recover
  refine .sees fun atEnd hend => .ite (fun _ => hidle p _ (.refl p)) fun h => ?_
  have notEnd : p.kind ≠ .eof := fun hkind => h (hend.mpr hkind)
  refine (hanswer p (.refl p)).bind ?_
  intro _ q hpost
  obtain ⟨rfl, hq⟩ := hpost
  refine .ite (fun _ => hidle q _ hq) fun hnotSafe => ?_
  refine .get (.ite (fun _ => hidle q _ hq) fun _ => ?_)
  have hlive := (hq.grows hp).live
  refine (yields_start hlive).bind ?_
  intro marker r hstarted
  have hstill : Still p r := hq.toStill.trans hstarted.toStill
  refine (yields_skipping hresumes hstarted.live (hstill.kind ▸ notEnd) ?_).bind ?_
  · intro s hs
    refine (hanswer s (hstill.trans hs)).mono ?_
    intro _ t hpost
    obtain ⟨rfl, ht⟩ := hpost
    exact ⟨Bool.eq_false_iff.mpr hnotSafe, ht⟩
  · intro _ s hpost
    obtain ⟨hadds, htakes⟩ := hpost
    -- An error was reported before, so the parts added need not be those that the production asks
    -- for.
    have hfail' : s.errorCount ≠ 0 := fun hs =>
      hfail (hq.errorCount ▸ (hstarted.adds hadds).moves.errorCount_start hs)
    refine (Marker.yields_complete ((hstarted.adds hadds).of_failed hfail') plain
      (le_refl _)).bind ?_
    intro node t hpost
    obtain ⟨hmakes, ht, -⟩ := hpost
    have hfail'' : t.errorCount ≠ 0 := fun h =>
      hfail (hq.errorCount ▸ hmakes.moves.errorCount_start h)
    refine .pure ⟨((Adds.of_grows (hq.grows hp)).trans hmakes.adds).of_failed hfail'', ?_⟩
    exact hstill.takes (htakes.trans ht.reaches)

/-- The current token is reported, and it is skipped or left alone. -/
theorem yields_skipUnexpected (hresumes : Settled recovery.resumes)
    (plain : recovery.nodeKind.isLooseNode = true) (hp : p.Live) (word : Language Role) :
    Yields recovery.skipUnexpected p fun skipped q =>
      Adds p q word ∧ q.errorCount ≠ 0 ∧ (if skipped then Takes p q else Still p q) := by
  unfold skipUnexpected
  refine (yields_reportUnexpected hp).bind ?_
  intro _ q hpost
  obtain ⟨hreport, hfail, hq⟩ := hpost
  refine (yields_recover hresumes plain hreport.live hfail word).bind ?_
  intro result r hpost
  obtain ⟨hadds, hway⟩ := hpost
  have hfail' : r.errorCount ≠ 0 := fun hr => hfail (hadds.moves.errorCount_start hr)
  refine .pure ⟨((Adds.of_grows hreport).trans hadds).of_failed hfail', hfail', ?_⟩
  cases result with
  | error => exact hq.trans hway
  | ok => exact hq.takes hway

end Recovery

/-! ### Lists -/

namespace Parse

/-- The loop last saw the parse at a token that is consumed. -/
def Behind (progress : Progress) (p : Parser) : Prop := ∀ last ∈ progress.last, last < p.done

/-- Before the first round of a loop no token was seen. -/
theorem behind_first (p : Parser) : Behind {} p := nofun

/-- What is behind a token stays behind it. -/
theorem Behind.reaches {progress : Progress} (h : Behind progress p) (h' : Reaches p q)
    (hp : p.Live) : Behind progress q := fun last hlast =>
  Nat.lt_of_lt_of_le (h last hlast) (h'.done_le hp)

/-- A loop that saw the current token last is behind when that is
consumed. -/
theorem behind_of_takes {progress : Progress} (hlast : progress.last = some p.position)
    (h : Takes p q) (hp : p.Live) : Behind progress q := by
  intro last hmem
  rw [hlast] at hmem
  rw [← Option.some.inj hmem]
  exact h.position_lt_done hp

/-- A loop whose last token is consumed has made progress. -/
theorem Yields.mustProgress {α : Type} {progress : Progress} {f : Progress → Parse α}
    {post : α → Parser → Prop} (hp : p.Live) (h : Behind progress p)
    (hf : ∀ next, next.last = some p.position → Yields (f next) p post) :
    Yields (Parse.mustProgress progress >>= f) p post := by
  have hadvanced : (progress.check p).1 = true := by
    unfold Progress.check
    cases hlast : progress.last with
    | none => rfl
    | some last => exact decide_eq_true (Nat.lt_of_lt_of_le (h last hlast) hp.done_le_position)
  have hyields : Yields (Parse.mustProgress progress) p fun next q =>
      p = q ∧ next.last = some p.position := by
    unfold Parse.mustProgress
    refine .get ?_
    dsimp only
    rw [if_pos hadvanced]
    exact .pure ⟨rfl, rfl⟩
  refine hyields.bind ?_
  intro next _ hpost
  obtain ⟨rfl, hnext⟩ := hpost
  exact hf next hnext

/-- What a round of a loop that checks its progress does: it adds
something, and a further round has consumed the token the loop saw. -/
def Advances (p : Parser) : Round Progress Unit → Parser → Prop
  | .again next, q => Adds p q ⊤ ∧ Behind next q ∧ q.room < p.room
  | .done _, q => Adds p q ⊤

/-- A further round after the current token was consumed. -/
theorem advances_again {next : Progress} {word : Language Role}
    (hlast : next.last = some q.position) (hadds : Adds p q word) (hadds' : Adds q r ⊤)
    (htakes : Takes q r) : Advances p (.again next) r :=
  ⟨hadds.anything.more hadds', behind_of_takes hlast htakes hadds.live,
    Nat.lt_of_lt_of_le (htakes.room_lt hadds.live) hadds.room_le⟩

/-- A loop that checks its progress comes to an end. -/
theorem yields_advancing {round : Progress → Parse (Round Progress Unit)} (hp : p.Live)
    (hround : ∀ progress q, q.Live → q.room ≤ p.room → Behind progress q →
      Yields (round progress) q (Advances q)) :
    Yields (loop round {}) p fun _ q => Adds p q ⊤ := by
  refine yields_loop (fun progress q => Adds p q ⊤ ∧ Behind progress q) (fun _ q => q.room) ?_
    ⟨(Adds.refl hp).anything, behind_first p⟩ (by unfold Parser.room; omega)
  intro progress q hpost
  obtain ⟨hadds, hbehind⟩ := hpost
  refine (hround progress q hadds.live hadds.room_le hbehind).mono ?_
  rintro (next | _) r hr
  · exact ⟨⟨hadds.more hr.1, hr.2.1⟩, hr.2.2⟩
  · exact hadds.more hr

end Parse

namespace ItemList

open Parse

/-- What a list asks of its parts, from the state `p` on: its questions
change nothing, and an item consumes the current token or changes
nothing. -/
structure Fits (list : ItemList) (p : Parser) : Prop where
  ends : Settled list.ends
  yields : Settled list.yields
  resumes : Settled list.recovery.resumes
  plain : list.nodeKind.isLooseNode = true
  skipPlain : list.recovery.nodeKind.isLooseNode = true
  free : ⊤ ≤ production list.nodeKind
  item : ∀ q, q.Live → q.context = list.context → q.room ≤ p.room →
    Yields list.item q fun result r =>
      Adds q r ⊤ ∧ (if result.isSome then Takes q r else Still q r)

variable {list : ItemList}

/-- One round of a list. -/
theorem yields_round (h : list.Fits p) {progress : Progress} (hq : q.Live)
    (hroom : q.room ≤ p.room) (hbehind : Behind progress q) :
    Yields (list.round progress) q (Advances q) := by
  have hrelex := q.grows_relex hq list.context
  have hq' := hrelex.live
  have hadds := (Adds.of_grows hrelex).anything
  unfold round
  refine .modify (.sees fun _ _ => .ite (fun _ => .pure hadds) fun _ => ?_)
  refine (h.ends.quiet hq').bind ?_
  intro ended r hr
  refine .ite (fun _ => .pure (hadds.quiet hr)) fun _ => ?_
  have hr' := hadds.quiet hr
  refine .mustProgress hr'.live (hbehind.reaches hr'.reaches hq) fun next hnext => ?_
  have hcontext : r.context = list.context := hr.context.trans (Parser.context_relex _)
  refine (h.item r hr'.live hcontext (Nat.le_trans hr'.room_le hroom)).bind ?_
  intro item s hpost
  obtain ⟨hitem, hway⟩ := hpost
  cases item with
  | some node => exact .pure (advances_again hnext hr' hitem hway)
  | none =>
    refine (h.yields.quiet hitem.live).bind ?_
    intro yielded t ht
    have hstays := hitem.quiet ht
    refine .ite (fun _ => .pure (hr'.more hstays)) fun _ => ?_
    refine (list.recovery.yields_skipUnexpected h.resumes h.skipPlain hstays.live ⊤).bind ?_
    intro skipped u hpost
    obtain ⟨hskip, -, hway'⟩ := hpost
    refine .ite (fun hskipped => .pure ?_) fun _ => .pure (hr'.more (hstays.more hskip))
    rw [if_pos hskipped] at hway'
    exact advances_again hnext hr' (hstays.more hskip) (Still.takes hway (ht.toStill.takes hway'))

/-- A list makes one node of its items. -/
theorem yields_parse (h : list.Fits p) (hp : p.Live) :
    Yields list.parse p fun node q => Makes p q node none {list.nodeKind} := by
  unfold parse
  refine (yields_start hp).bind ?_
  intro marker q hstarted
  refine (yields_advancing hstarted.live fun progress r hr hroom hbehind =>
    yields_round h hr (Nat.le_trans hroom hstarted.moves.room_le) hbehind).bind ?_
  intro _ r hadds
  refine (Marker.yields_complete (hstarted.adds hadds) h.plain h.free).mono ?_
  intro node s hpost
  obtain ⟨hmakes, -, -⟩ := hpost
  exact hmakes

end ItemList

end MarkupSyntax
