import MarkupSyntax.Parse.Action
import MarkupSyntax.Proofs.Parse.Grows
import MarkupSyntax.Proofs.Parse.Yields

/-!
# `MarkupSyntax.Proofs.Parse.Steps`: what the steps of a parse do

One specification for each step that the rules of the grammar are made
of: consuming a token, reading it anew, looking ahead, reporting, and
going back to a checkpoint.

What looking ahead answers depends on the seam and the context of the
current token only. `Observes` says so of a step, with the answer as a
function of the two, so that asking twice gives the same answer.
-/

set_option autoImplicit false

namespace MarkupSyntax

open Grammar
open Sprout hiding node token

variable {p q r : Parser}

/-! ### Reading ahead -/

namespace Lookahead

variable {buffer : Lookahead} {context : LexContext}

/-- Nothing is kept where nothing was, and outside the normal context. -/
theorem ahead_next (h : buffer.ahead = [] ∨ context ≠ .normal) :
    (buffer.next context).ahead = [] := by
  unfold next
  split
  · rename_i hahead
    rcases h with h | h
    · rw [h] at hahead
      cases hahead
    · exact absurd rfl h
  · rfl

end Lookahead

namespace TokenSource

variable {context : LexContext}

/-- With nothing read ahead, passing trivia reads nothing ahead. -/
theorem ahead_skipTrivia_of_nil {fuel : Nat} {gap : Gap} (h : gap.buffer.ahead = []) :
    (skipTrivia context fuel gap).buffer.ahead = [] := by
  induction fuel generalizing gap with
  | zero => exact h
  | succ fuel ih =>
    have hnext := @Lookahead.ahead_next _ context (.inl h)
    unfold skipTrivia
    dsimp only
    split
    · exact hnext
    · exact ih hnext

/-- So it is at the next token, whatever trivia is in front of it. -/
theorem ahead_advanceFrom {buffer : Lookahead} {trivia : Array Trivia}
    (h : buffer.ahead = [] ∨ context ≠ .normal) :
    (advanceFrom buffer trivia context).buffer.ahead = [] := by
  have hnext := Lookahead.ahead_next h
  show (skipTrivia context (buffer.lexer.source.length + 1) _).buffer.ahead = []
  unfold skipTrivia
  dsimp only
  split
  · exact hnext
  · exact ahead_skipTrivia_of_nil hnext

end TokenSource

/-- Nothing was read ahead of the current token. -/
def Parser.IsLevel (p : Parser) : Prop := p.source.buffer.ahead = []

/-- Where a token is consumed, nothing is read ahead if nothing was, and
inside tags and text. -/
theorem Parser.isLevel_bump {context : LexContext} {field : Option String}
    {kind : Option SyntaxKind} (notEnd : p.kind ≠ .eof) (h : p.IsLevel ∨ context ≠ .normal) :
    (p.bump context field kind).IsLevel := by
  unfold Parser.bump
  rw [if_neg notEnd]
  show (p.source.bump context).buffer.ahead = []
  unfold TokenSource.bump
  rw [if_neg (show ¬p.source.current.kind = .eof from notEnd)]
  exact TokenSource.ahead_advanceFrom h

/-- Marks do not read ahead. -/
theorem Marks.isLevel (h : Marks p q) (level : p.IsLevel) : q.IsLevel := by
  unfold Parser.IsLevel
  rw [h.source]
  exact level

/-! ### Changes of the state -/

namespace Parser

/-- Consuming a token that is not the end adds it to the record. -/
theorem grows_bump (hp : p.Live) (context : LexContext) (field : Option String)
    (kind : Option SyntaxKind) (notEnd : p.kind ≠ .eof)
    (plain : (kind.getD (.token p.kind)).lexeme? = some p.kind) :
    Grows p (p.bump context field kind)
      [.token (kind.getD (.token p.kind)) p.range.stop field] ∧
    Takes p (p.bump context field kind) ∧ (p.bump context field kind).context = context := by
  have htakes : Takes p (p.bump context field kind) :=
    ⟨[], .bump (.refl p) context field notEnd plain⟩
  have hfree : (kind.getD (.token p.kind)).isLoose = true := by
    revert plain
    generalize kind.getD (.token p.kind) = recorded
    cases recorded <;> intro plain <;> first | rfl | cases plain
  have hbump : p.bump context field kind =
      { p with
        events := p.events.push (.token (kind.getD (.token p.kind)) p.range.stop field)
        source := p.source.bump context } := if_neg notEnd
  rw [hbump] at htakes ⊢
  -- One token is taken, and all but the events and the source stays as it was.
  have htext := htakes.reaches.text hp
  refine ⟨⟨⟨hp, htakes.reaches, ⟨[], ?_, fun _ hmem => nomatch hmem⟩, Nat.le_refl _, ?_, ?_, rfl, rfl,
      .of_memo rfl rfl rfl⟩,
    ?_, ⟨trivial, trivial⟩, orderlyList_cons.mpr ⟨orderly_token _ _ _ hfree, orderlyList_nil⟩⟩,
    htakes, ?_⟩
  · exact (List.append_nil _).symm
  · intro hlt
    exact absurd hlt (Nat.lt_irrefl _)
  · exact fun hplaced => ⟨htext ▸ hplaced.diagnostics, htext ▸ hplaced.memo⟩
  · exact Array.toList_push
  · have hend : p.source.current.kind ≠ .eof := notEnd
    show (p.source.bump context).current.context = context
    unfold TokenSource.bump
    rw [if_neg hend]
    rfl

/-- The end of the source cannot be consumed. -/
theorem bump_of_eof {context : LexContext} {field : Option String} {kind : Option SyntaxKind}
    (h : p.kind = .eof) : p.bump context field kind = p := by
  unfold bump
  rw [if_pos h]

/-- Consuming a token decides nothing. -/
@[simp] theorem memo_bump (p : Parser) (context : LexContext) (field : Option String)
    (kind : Option SyntaxKind) : (p.bump context field kind).memo = p.memo := by
  unfold bump
  split <;> rfl

/-- Reading the current token anew adds nothing. -/
theorem grows_relex (hp : p.Live) (context : LexContext) : Grows p (p.relex context) [] where
  start := hp
  reaches := ⟨[], .relex (.refl p) context⟩
  diagnostics := ⟨[], (List.append_nil _).symm, fun _ hmem => nomatch hmem⟩
  errors := Nat.le_refl _
  shown := fun hlt => absurd hlt (Nat.lt_irrefl _)
  placed := fun hplaced => by
    have htext : (p.relex context).text = p.text := TokenSource.text_relex
    exact ⟨htext ▸ hplaced.diagnostics, htext ▸ hplaced.memo⟩
  options := rfl
  file := rfl
  notes := .of_memo rfl rfl rfl
  events := (List.append_nil _).symm
  sound := trivial
  orderly := orderlyList_nil

/-- The current token is then read in the context that was asked for. -/
@[simp] theorem context_relex (context : LexContext) : (p.relex context).context = context :=
  TokenSource.context_relex

/-- Reading a token anew in its own context changes nothing. -/
theorem relex_of_context {context : LexContext} (h : p.context = context) :
    p.relex context = p := by
  have hcontext : context = p.source.current.context := h.symm
  unfold relex TokenSource.relex
  rw [if_pos hcontext]

/-- The current token lies in the source. -/
theorem Live.range_isIn (hp : p.Live) : p.range.IsIn p.text.length := by
  obtain ⟨seam, hp⟩ := hp
  rw [hp.range, hp.text]
  exact Seam.stop_le hp.inside

/-- The current token starts within the source. -/
theorem Live.position_le (hp : p.Live) : p.position ≤ p.text.length :=
  Nat.le_trans p.range.start_le_stop hp.range_isIn

/-- A report adds an error, and no node or token. -/
theorem grows_report (hp : p.Live) {diagnostic : Diagnostic} (hown : diagnostic.OfGrammar)
    (hplaced : p.Placed → diagnostic.IsPlaced p.text.length p.file) :
    Grows p (p.report diagnostic) [] ∧ (p.report diagnostic).errorCount ≠ 0 := by
  refine ⟨⟨⟨hp, ⟨[], .other (.refl p) rfl rfl id⟩, ?_, Nat.le_succ _, fun _ => ?_,
      fun h => ⟨?_, h.memo⟩, rfl, rfl, .of_memo rfl rfl rfl⟩,
    (List.append_nil _).symm, trivial, orderlyList_nil⟩, Nat.succ_ne_zero _⟩
  all_goals unfold report
  · cases p.diagnostics.back?.any fun last => last.range.start = diagnostic.range.start with
    | true => exact ⟨[], (List.append_nil _).symm, fun _ hmem => nomatch hmem⟩
    | false =>
      refine ⟨[diagnostic], Array.toList_push, fun other hmem => ?_⟩
      rw [List.mem_singleton.mp hmem]
      exact hown
  · show (if (p.diagnostics.back?.any fun last => last.range.start = diagnostic.range.start) = true
      then p.diagnostics else p.diagnostics.push diagnostic) ≠ #[]
    split
    · rename_i hfollows
      intro hnone
      rw [hnone] at hfollows
      cases hfollows
    · exact Array.push_ne_empty
  · show ∀ other ∈ (if (p.diagnostics.back?.any fun last => last.range.start = diagnostic.range.start)
      = true then p.diagnostics else p.diagnostics.push diagnostic).toList, _
    split
    · exact h.diagnostics
    · intro other hmem
      rw [Array.toList_push] at hmem
      rcases List.mem_append.mp hmem with hmem | hmem
      · exact h.diagnostics other hmem
      · rw [List.mem_singleton.mp hmem]
        exact hplaced h

/-- Going back to a checkpoint undoes what was done since, if the token
that was current there was consumed or is current still. -/
theorem quiet_rewind {sprouts : List Sprout} (h : Grows p q sprouts)
    (hway : Takes p q ∨ Still p q) : Quiet p (q.rewind p.checkpoint) := by
  have hrecord : p.events.toList <+: q.events.toList := ⟨_, h.events.symm⟩
  have hback : Trace p [] (q.rewind p.checkpoint) := by
    rcases hway with ⟨contexts, htakes⟩ | hstill
    · exact .rewind (.refl p) htakes rfl hrecord
    · refine .rewind (.refl p) hstill.way ?_ hrecord
      rw [hstill.context]
      rfl
  refine ⟨⟨hback, rfl⟩, Trace.take_size hrecord, ?_, rfl, h.options, h.file,
    rfl, h.notes.memoizes, h.notes.memo⟩
  obtain ⟨fresh, hdiagnostics, -⟩ := h.diagnostics
  exact Trace.take_size ⟨fresh, hdiagnostics.symm⟩

/-- A speculation begins at the same tokens. -/
theorem still_enterSpeculation (p : Parser) : Still p p.enterSpeculation :=
  ⟨.other (.refl p) rfl rfl fun h => Int.le_add_one h, rfl⟩

/-- Going back behind the start of a speculation undoes what was done in
it. Of the decisions that it reached only those on the form of an `if`
are kept. -/
theorem quiet_rewind_speculation {sprouts : List Sprout} (h : Grows p.enterSpeculation q sprouts)
    (htakes : Takes p.enterSpeculation q) :
    Quiet p (q.leaveSpeculation.rewind p.checkpoint) ∧
      (0 ≤ p.speculation → ∃ fresh, q.memo = fresh ++ p.memo ∧
        ∀ entry ∈ fresh, entry.1.1 = "if_form") := by
  have hrecord : p.events.toList <+: q.events.toList := ⟨_, h.events.symm⟩
  obtain ⟨contexts, hway⟩ := (still_enterSpeculation p).takes htakes
  have hback : Trace p [] (q.rewind p.checkpoint) := .rewind (.refl p) hway rfl hrecord
  obtain ⟨fresh, hdiagnostics, -⟩ := h.diagnostics
  have hcut : q.diagnostics.take p.diagnostics.size = p.diagnostics :=
    Trace.take_size ⟨fresh, hdiagnostics.symm⟩
  obtain ⟨fresh, hmemo, hforms, hin⟩ := h.notes.memo
  have hspeculative : 0 ≤ p.speculation → p.enterSpeculation.isSpeculative = true :=
    fun hp => decide_eq_true (Int.lt_add_one_of_le hp)
  refine ⟨⟨⟨hback, rfl⟩, Trace.take_size hrecord, hcut, rfl, h.options, h.file, rfl,
    h.notes.memoizes, fresh, hmemo, fun hp => ?_, hin⟩,
    fun hp => ⟨fresh, hmemo, hforms (hspeculative hp)⟩⟩
  exact hforms (hspeculative (Int.le_of_lt (of_decide_eq_true hp)))

end Parser

namespace Parse

variable {α β : Type}

/-! ### Looking at tokens -/

namespace Yields

variable {f : Bool → Parse β} {post : β → Parser → Prop}

/-- Looking at the current token, and going on with the answer. -/
theorem sees {kind : TokenKind}
    (h : ∀ answer, (answer = true ↔ p.kind = kind) → Yields (f answer) p post) :
    Yields (sees kind >>= f) p post := h _ decide_eq_true_iff

/-- The same for some kinds. -/
theorem seesAny {kinds : List TokenKind}
    (h : ∀ answer, (answer = true ↔ p.kind ∈ kinds) → Yields (f answer) p post) :
    Yields (seesAny kinds >>= f) p post := h _ List.contains_iff_mem

end Yields

/-- The step changes nothing, and its answer is settled as long as the
current token stays. -/
def Settled (m : Parse α) : Prop :=
  ∀ p : Parser, p.Live → ∃ answer, ∀ q, Still p q →
    Yields m q fun answer' r => answer' = answer ∧ Quiet q r

namespace Settled

variable {m m' : Parse α} {f : α → Parse β}

/-- An answer is settled. -/
theorem pure (a : α) : Settled (pure a) := fun _ _ => ⟨a, fun q _ => ⟨rfl, .refl q⟩⟩

/-- One question after another. -/
theorem bind (h : Settled m) (h' : ∀ a, Settled (f a)) : Settled (m >>= f) := by
  intro p hp
  obtain ⟨a, ha⟩ := h p hp
  obtain ⟨b, hb⟩ := h' a p hp
  refine ⟨b, fun q hq => (ha q hq).bind ?_⟩
  intro _ r hpost
  obtain ⟨rfl, hr⟩ := hpost
  refine (hb r (hq.trans hr.toStill)).mono ?_
  intro _ s hpost
  obtain ⟨rfl, hs⟩ := hpost
  exact ⟨rfl, hr.trans hs⟩

/-- A question in each case. -/
theorem ite {c : Prop} [Decidable c] (h : Settled m) (h' : Settled m') :
    Settled (if c then m else m') := by
  by_cases hc : c
  · rw [if_pos hc]
    exact h
  · rw [if_neg hc]
    exact h'

/-- Asking a question is quiet. -/
theorem quiet (h : Settled m) (hp : p.Live) : Yields m p fun _ q => Quiet p q := by
  obtain ⟨a, ha⟩ := h p hp
  exact (ha p (.refl p)).mono fun _ _ h => h.2

end Settled

/-- Whether the current token is of a kind is settled. -/
theorem settled_sees (kind : TokenKind) : Settled (sees kind) := fun p _ =>
  ⟨decide (p.kind = kind), fun q hq => ⟨by rw [hq.kind], .refl q⟩⟩

/-- The same for some kinds. -/
theorem settled_seesAny (kinds : List TokenKind) : Settled (seesAny kinds) := fun p _ =>
  ⟨kinds.contains p.kind, fun q hq => ⟨by rw [hq.kind], .refl q⟩⟩

/-- The kind of a token ahead is that of the seam. -/
theorem yields_nthKind {seam : Seam} (hp : p.At seam) (n : Nat) :
    Yields (nthKind n) p fun kind q => kind = seam.kindAhead p.context n ∧ Quiet p q := by
  obtain ⟨hanswer, -, hcurrent⟩ := hp.stands.nthKind hp.inside n
  exact ⟨hanswer, ⟨.lookKind (.refl p) n, hcurrent⟩, rfl, rfl, rfl, rfl, rfl,
    .of_memo rfl rfl rfl⟩

/-- The kind of a token ahead is settled. -/
theorem settled_nthKind (n : Nat) : Settled (nthKind n) := by
  intro p hpost
  obtain ⟨seam, hp⟩ := hpost
  refine ⟨seam.kindAhead p.context n, fun q hq => ?_⟩
  rw [← hq.context]
  exact yields_nthKind (hq.at_ hp) n

/-- Whether it is behind trivia is settled. -/
theorem settled_nthAfterTrivia (n : Nat) : Settled (nthAfterTrivia n) := by
  intro p hpost
  obtain ⟨seam, hp⟩ := hpost
  refine ⟨seam.apartAhead p.context n, fun q hq => ?_⟩
  rw [← hq.context]
  obtain ⟨hanswer, -, hcurrent⟩ := (hq.at_ hp).stands.nthAfterTrivia hp.inside n
  exact ⟨hanswer, ⟨.lookTrivia (.refl q) n, hcurrent⟩, rfl, rfl, rfl, rfl, rfl,
    .of_memo rfl rfl rfl⟩

/-- A question about the kind of a token ahead is answered by the seam. -/
theorem yields_nthIs {seam : Seam} (hp : p.At seam) (n : Nat) (kind : TokenKind) :
    Yields (nthIs n kind) p fun answer q =>
      (answer = true → seam.kindAhead p.context n = kind) ∧ Quiet p q := by
  refine (yields_nthKind hp n).bind ?_
  intro _ q hpost
  obtain ⟨rfl, hq⟩ := hpost
  exact .pure ⟨of_decide_eq_true, hq⟩

/-- So it is settled. -/
theorem settled_nthIs (n : Nat) (kind : TokenKind) : Settled (nthIs n kind) :=
  (settled_nthKind n).bind fun _ => .pure _

/-- Whether a closing tag comes next is settled. -/
theorem settled_seesCloseTag : Settled seesCloseTag :=
  (settled_sees .lessThan).bind fun _ => .ite (settled_nthIs 1 .slash) (.pure false)

/-- A closing tag starts with `<`, and a slash is next ahead. -/
theorem yields_seesCloseTag {seam : Seam} (hp : p.At seam) :
    Yields seesCloseTag p fun answer q =>
      (answer = true → p.kind = .lessThan ∧ seam.kindAhead p.context 1 = .slash) ∧ Quiet p q := by
  unfold seesCloseTag seesPair
  refine .sees fun sees hsees => .ite (fun hkind => ?_) fun _ => .pure ⟨nofun, .refl p⟩
  exact (yields_nthIs hp 1 .slash).mono fun _ q hq => ⟨fun h => ⟨hsees.mp hkind, hq.1 h⟩, hq.2⟩

/-! ### Consuming tokens -/

/-- A token that is not the end is consumed, and fills a slot of its
kind. -/
theorem yields_bump_spells (hp : p.Live) {kind : TokenKind} (hkind : p.kind = kind)
    (notEnd : kind ≠ .eof) (context : LexContext) (field : Option String) :
    Yields (bump context field) p fun _ q =>
      Spells p q [.leaf field (.token kind)] (token field kind) ∧ Takes p q ∧
        q.context = context := by
  subst hkind
  obtain ⟨hgrows, htakes, hcontext⟩ := p.grows_bump hp context field none notEnd rfl
  exact ⟨⟨_, hgrows, .one (Slot.admits_leaf _ _), fun _ => ⟨⟨trivial, trivial⟩, _, rfl, rfl⟩⟩,
    htakes, hcontext⟩

/-- Consuming a token adds it. -/
theorem yields_bump (hp : p.Live) (notEnd : p.kind ≠ .eof) (context : LexContext)
    (field : Option String) :
    Yields (bump context field) p fun _ q =>
      Adds p q (token field p.kind) ∧ Takes p q ∧ q.context = context :=
  (yields_bump_spells hp rfl notEnd context field).mono fun _ _ h => ⟨h.1.adds, h.2⟩

/-- A name is consumed as a keyword. -/
theorem yields_bump_raw (hp : p.Live) (hkind : p.kind = .identifier) (context : LexContext)
    (field : Option String) :
    Yields (bump context field (some .rawKeyword)) p fun _ q =>
      Spells p q [.leaf field .rawKeyword] (node field .rawKeyword) ∧ Takes p q ∧
        q.context = context := by
  have notEnd : p.kind ≠ .eof := by rw [hkind]; decide
  obtain ⟨hgrows, htakes, hcontext⟩ :=
    p.grows_bump hp context field (some .rawKeyword) notEnd (congrArg some hkind.symm)
  exact ⟨⟨_, hgrows, .one (Slot.admits_leaf _ _), fun _ => ⟨⟨trivial, trivial⟩, _, rfl, rfl⟩⟩,
    htakes, hcontext⟩

/-- Behind what is consumed is the next token of the seam. -/
theorem yields_bump_next {seam : Seam} (hp : p.At seam) {kind : TokenKind} (hkind : p.kind = kind)
    (notEnd : kind ≠ .eof) (context : LexContext) :
    Yields (bump context) p fun _ q =>
      Spells p q [.mark kind] (mark kind) ∧ Takes p q ∧ q.context = context ∧
        q.kind = ((seam.pass p.context).current context).kind := by
  have hnext := (@Trace.bump p p [] (.refl p) context none none (hkind ▸ notEnd) rfl).at_ hp
  have hcontext := (p.grows_bump ⟨seam, hp⟩ context none none (hkind ▸ notEnd) rfl).2.2
  have hbehind : (p.bump context none none).kind = ((seam.pass p.context).current context).kind := by
    rw [hnext.1.kind, hcontext]
    rfl
  obtain ⟨hspells, htakes, -⟩ := yields_bump_spells ⟨seam, hp⟩ hkind notEnd context none
  exact ⟨hspells, htakes, hcontext, hbehind⟩

/-- What is consumed outside tags leaves the parse at the token that was
next ahead. -/
theorem yields_bump_ahead {seam : Seam} (hp : p.At seam) (notEnd : p.kind ≠ .eof) :
    Yields (bump .normal) p fun _ q =>
      Adds p q (token none p.kind) ∧ Takes p q ∧ q.kind = seam.kindAhead p.context 1 := by
  refine (yields_bump_next hp rfl notEnd .normal).mono ?_
  intro _ q hpost
  obtain ⟨hspells, htakes, -, hkind⟩ := hpost
  rw [hp.kind] at notEnd
  rw [Seam.kindAhead_one hp.inside notEnd]
  exact ⟨hspells.adds, htakes, hkind⟩

/-- Whatever token there is is consumed; at the end of the source there
is none. -/
theorem yields_bump_any (hp : p.Live) (context : LexContext) :
    Yields (bump context) p fun _ q =>
      Adds p q marks ∧ (p.context = context → q.context = context) := by
  by_cases hend : p.kind = .eof
  · show Adds p (p.bump context none none) marks ∧
      (p.context = context → (p.bump context none none).context = context)
    rw [Parser.bump_of_eof hend]
    exact ⟨(Adds.refl hp).mono one_le_kstar, id⟩
  · refine (yields_bump hp hend context none).mono ?_
    intro _ q hpost
    obtain ⟨hadds, -, hcontext⟩ := hpost
    exact ⟨hadds.mono (mark_le_marks p.kind), fun _ => hcontext⟩

/-- A token of a kind is consumed, or nothing happens at another. -/
theorem yields_eat_spells (hp : p.Live) {kind : TokenKind} (notEnd : kind ≠ .eof)
    (context : LexContext) (field : Option String) :
    Yields (eat kind context field) p fun found q =>
      match found with
      | true =>
        Spells p q [.leaf field (.token kind)] (token field kind) ∧ Takes p q ∧ q.context = context
      | false => q = p := by
  unfold eat
  refine .sees fun answer hanswer => .ite (fun h => ?_) fun _ => .pure rfl
  refine (yields_bump_spells hp (hanswer.mp h) notEnd context field).bind ?_
  exact fun _ q hq => .pure hq

/-- A token that may be there is consumed if it is. -/
theorem yields_eat (hp : p.Live) {kind : TokenKind} (notEnd : kind ≠ .eof) (context : LexContext)
    (field : Option String) :
    Yields (eat kind context field) p fun found q =>
      match found with
      | true => Adds p q (token field kind) ∧ Takes p q ∧ q.context = context
      | false => q = p := by
  refine (yields_eat_spells hp notEnd context field).mono ?_
  rintro (_ | _) q hq
  · exact hq
  · exact ⟨hq.1.adds, hq.2⟩

/-! ### Reporting -/

/-- A report adds an error and leaves the current token alone. -/
theorem yields_report (hp : p.Live) {diagnostic : Diagnostic} (hown : diagnostic.OfGrammar)
    (hplaced : p.Placed → diagnostic.IsPlaced p.text.length p.file) :
    Yields (report diagnostic) p fun _ q =>
      Grows p q [] ∧ q.errorCount ≠ 0 ∧ Still p q :=
  ⟨(Parser.grows_report hp hown hplaced).1, (Parser.grows_report hp hown hplaced).2,
    .of_source rfl rfl rfl⟩

variable {code : Code}

/-- A report at the current token adds nothing to the record, and counts as an
error. -/
theorem yields_reportHere (hp : p.Live) (hcode : code.isOfGrammar = true) :
    Yields (reportHere code) p fun _ q => Grows p q [] ∧ q.errorCount ≠ 0 ∧ Still p q :=
  yields_report hp ⟨hcode, rfl⟩ fun _ => .ofCode code hp.range_isIn

/-- The same with a text. -/
theorem yields_reportWith (hp : p.Live) (hcode : code.isOfGrammar = true)
    (message : String) :
    Yields (reportWith code message) p fun _ q =>
      Grows p q [] ∧ q.errorCount ≠ 0 ∧ Still p q :=
  yields_report hp ⟨hcode, rfl⟩ fun _ => (Diagnostic.IsPlaced.ofCode code hp.range_isIn).withMessage _

/-- The same for a token that is missing. -/
theorem yields_reportExpected (hp : p.Live) (kind : TokenKind) :
    Yields (reportExpected kind) p fun _ q => Grows p q [] ∧ q.errorCount ≠ 0 ∧ Still p q := by
  unfold reportExpected
  exact .get (yields_reportWith hp (by decide) _)

/-- The same for a token that should not be there. -/
theorem yields_reportUnexpected (hp : p.Live) :
    Yields reportUnexpected p fun _ q => Grows p q [] ∧ q.errorCount ≠ 0 ∧ Still p q := by
  unfold reportUnexpected
  exact .get (yields_reportWith hp (by decide) _)

/-- A token of a kind is consumed, or its absence is an error. -/
theorem yields_expect_spells (hp : p.Live) {kind : TokenKind} (notEnd : kind ≠ .eof)
    (context : LexContext) (field : Option String) :
    Yields (expect kind context field) p fun found q =>
      match found with
      | true =>
        Spells p q [.leaf field (.token kind)] (token field kind) ∧ Takes p q ∧ q.context = context
      | false => Grows p q [] ∧ q.errorCount ≠ 0 := by
  unfold expect
  refine (yields_eat_spells hp notEnd context field).bind ?_
  rintro (_ | _) q hq
  · cases hq
    refine (yields_reportExpected hp kind).bind ?_
    intro _ r hpost
    obtain ⟨hgrows, hfail, -⟩ := hpost
    exact .pure ⟨hgrows, hfail⟩
  · exact .pure hq

/-- Whether or not there was one, the parse goes on. -/
theorem yields_expect_optional (hp : p.Live) {kind : TokenKind} (notEnd : kind ≠ .eof)
    (context : LexContext) (field : Option String) :
    Yields (expect kind context field) p fun _ q =>
      Spells p q [(Slot.leaf field (.token kind)).optional] (token field kind) := by
  refine (yields_expect_spells hp notEnd context field).mono ?_
  rintro (_ | _) q hq
  · exact (Spells.nothing hq.1 _).of_failed hq.2
  · exact hq.1.optional

/-- A token that should be there is consumed, or an error is counted. -/
theorem yields_expect (hp : p.Live) {kind : TokenKind} (notEnd : kind ≠ .eof)
    (context : LexContext) (field : Option String) :
    Yields (expect kind context field) p fun found q =>
      Adds p q (token field kind) ∧ (found = true → Takes p q ∧ q.context = context) ∧
        (found = false → q.errorCount ≠ 0) := by
  refine (yields_expect_spells hp notEnd context field).mono ?_
  rintro (_ | _) q hq
  · exact ⟨(Adds.of_grows hq.1).of_failed hq.2, nofun, fun _ => hq.2⟩
  · exact ⟨hq.1.adds, fun _ => hq.2, nofun⟩

/-! ### Bracketing -/

section Bracketing

variable {m m' : Parse α} {post : α → Parser → Prop}

/-- Entering a level is quiet, and so is reporting that there is none left to
enter. -/
theorem yields_enterNesting (p : Parser) : Yields enterNesting p fun _ q => Quiet p q := by
  unfold enterNesting
  refine .get (.ite (fun _ => .pure (.refl p)) fun _ => ?_)
  exact .set (.pure (.of_source rfl rfl rfl rfl rfl rfl (.of_memo rfl rfl rfl)))

/-- A nested construct, or what stands for one that is too deep. -/
theorem yields_nested (h : ∀ q, Quiet p q → Yields m q post)
    (h' : ∀ q, Quiet p q → Yields m' q fun answer r => post answer r.leaveNesting) :
    Yields (nested m m') p post := by
  unfold nested
  refine (yields_enterNesting p).bind ?_
  intro entered q hq
  exact .ite (fun _ => .ensuring (h' q hq)) fun _ => h q hq

/-- Leaving a level is quiet. -/
theorem quiet_leaveNesting (p : Parser) : Quiet p p.leaveNesting :=
  .of_source rfl rfl rfl rfl rfl rfl (.of_memo rfl rfl rfl)

/-- A step in speculation. -/
theorem yields_speculating
    (h : Yields m p.enterSpeculation fun answer q => post answer q.leaveSpeculation) :
    Yields (speculating m) p post :=
  .modify (.ensuring h)

/-- The memo is no part of what a parse adds. In speculation it has only
decisions on the form of an `if`. -/
theorem quiet_keep (p : Parser) {rule : String} (offset : Nat) (outcome : Outcome)
    (h : p.isSpeculative = true → rule = "if_form") (hin : outcome.IsIn p.text.length) :
    Quiet p (p.keep rule offset outcome) := by
  unfold Parser.keep
  split
  · refine .of_source rfl rfl rfl rfl rfl rfl
      ⟨rfl, rfl, [((rule, offset), outcome)], rfl, fun hp entry hmem => ?_, fun entry hmem => ?_⟩
    all_goals rw [List.mem_singleton.mp hmem]
    · exact h hp
    · exact hin
  · exact .refl p

/-- Remembering a decision is quiet, if its range is in the source. -/
theorem quiet_remember (p : Parser) (rule : String) (offset : Nat) {outcome : Outcome}
    (hin : outcome.IsIn p.text.length) : Quiet p (p.remember rule offset outcome) := by
  unfold Parser.remember
  split
  · exact .refl p
  · rename_i hspeculative
    exact quiet_keep p offset outcome (fun h => absurd h hspeculative) hin

/-- The form of an `if`, remembered or not. -/
theorem yields_memoized {reach : Parse Outcome}
    (h : Yields reach p fun outcome q => outcome.IsIn q.text.length ∧ Quiet p q) :
    Yields (memoized "if_form" reach) p fun _ q => Quiet p q := by
  unfold memoized
  refine .get (.get ?_)
  cases p.recall? "if_form" p.position with
  | some outcome => exact .pure (.refl p)
  | none =>
    refine h.bind ?_
    intro outcome q hpost
    obtain ⟨hin, hq⟩ := hpost
    exact .modify (.pure (hq.trans (quiet_keep _ _ _ (fun _ => rfl) hin)))

end Bracketing

end Parse

end MarkupSyntax
