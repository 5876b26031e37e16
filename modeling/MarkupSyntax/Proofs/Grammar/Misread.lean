import MarkupSyntax.Proofs.Grammar.Descent
import MarkupSyntax.Proofs.Parse.Records
import MarkupSyntax.Proofs.Token.Guard

/-!
# `MarkupSyntax.Proofs.Grammar.Misread`: text that is read as a sequence

The body of a plain element is read as a sequence of elements first.
Where it is text that was written with escapes, that reading ends with
its first item, and the parse goes back to where it was
(`yields_bodyLoop_text`).

Such a text starts with neither a tag nor a brace. It may start with
comments and invalid characters, which are text after all, or with the
word `if` or `for`. Then a control construct is read. It has an error, or
it has a brace, as every control construct without errors does
(`exists_brace`). But in front of a brace stands a backslash, and the
lexer reports that as an invalid character. So in both cases the head of
the construct has an error (`hasHeaderError_of_guarded`), and the words
are text.
-/

set_option autoImplicit false

namespace MarkupSyntax

namespace Parser.At

variable {p : Parser} {seam : Seam}

/-- Where nothing was read ahead, the lexer has reported on the tokens up
to the current one. -/
theorem lexerDiagnostics (h : p.At seam) (level : p.IsLevel) :
    p.source.lexerDiagnostics = (seam.pass p.context).lexer.diagnostics := by
  obtain ⟨count, hbuffer⟩ := h.stands.buffer
  have hstream : ((seam.pass p.context).lexer.stream count) = [] := by
    have hahead := congrArg Lookahead.ahead hbuffer
    rw [level] at hahead
    exact List.map_eq_nil_iff.mp hahead.symm
  show p.source.buffer.lexer.diagnostics = _
  rw [hbuffer]
  show (((seam.pass p.context).lexer.stream count).getLastD _).diagnostics = _
  rw [hstream]
  rfl

/-- It has reported on them in any case. -/
theorem prefix_lexerDiagnostics (h : p.At seam) :
    seam.lexer.diagnostics.toList <+: p.source.lexerDiagnostics.toList := by
  obtain ⟨count, hbuffer⟩ := h.stands.buffer
  have hpass := (Seam.reads_leg h.inside p.context).extends_
  show seam.lexer.diagnostics.toList <+: p.source.buffer.lexer.diagnostics.toList
  rw [hbuffer]
  exact hpass.diagnostics.trans (Lexer.extends_stream count).diagnostics

end Parser.At

namespace Grammar

open Parse
open Sprout hiding node token

variable {p q r : Parser} {descend : Descent} {bound : Nat} {text : Text}

/-! ### Braces of control constructs -/

/-- An opening brace in no field. -/
def braceRole : Role := (none, .token .lBrace)

/-- Every word of the language has a brace. -/
def Braced (word : Language Role) : Prop := ∀ roles ∈ word, braceRole ∈ roles

namespace Braced

variable {word word' : Language Role}

/-- A brace in the first part is one in the whole. -/
theorem mul_left (h : Braced word) : Braced (word * word') := by
  rintro _ ⟨front, hfront, behind, -, rfl⟩
  exact List.mem_append_left _ (h front hfront)

/-- A brace in the second part is one in the whole. -/
theorem mul_right (h : Braced word') : Braced (word * word') := by
  rintro _ ⟨front, -, behind, hbehind, rfl⟩
  exact List.mem_append_right _ (h behind hbehind)

/-- The mark of a brace has one. -/
theorem mark : Braced (mark .lBrace) := by
  rintro _ ⟨kind, rfl, rfl⟩
  exact List.mem_singleton_self _

/-- A body in braces has one. -/
theorem bracedPart (domain : Domain) (field : String) : Braced (bracedPart domain field) :=
  mark.mul_left.mul_left

/-- A control construct has a brace. -/
theorem control (domain : Domain) {form : ControlForm} (h : form.isArm = false) :
    Braced (production (.control domain form)) := by
  cases form with
  | ifSimple => exact (bracedPart domain "then").mul_right.mul_left
  | ifMatch => exact mark.mul_right.mul_left.mul_left
  | ifConditionList => exact mark.mul_right.mul_left.mul_left
  | forLoop => exact (bracedPart domain "body").mul_right
  | matchArm => cases h
  | conditionArm => cases h

end Braced

/-- A node is no brace, in no field. Only a token has that role. -/
theorem role_ne_braceRole {sprout : Sprout} (hsound : sprout.Sound) (hnode : sprout.isNode = true) :
    sprout.role ≠ braceRole := by
  intro hrole
  have hkind := hsound.isNode_kind hnode
  rw [(Prod.mk.inj hrole).2] at hkind
  cases hkind

/-- A brace among these parts is in the record. -/
theorem exists_event_of_role {sprouts : List Sprout} (hsound : SoundList sprouts)
    (h : braceRole ∈ sprouts.map role) :
    ∃ stop, Event.token (.token .lBrace) stop none ∈ eventsList sprouts := by
  induction sprouts with
  | nil => cases h
  | cons sprout rest ih =>
    obtain ⟨hfirst, hrest⟩ := hsound
    rw [List.map_cons] at h
    rcases List.mem_cons.mp h with h | h
    · cases sprout with
      | token kind stop field =>
        obtain ⟨rfl, rfl⟩ := Prod.mk.inj h
        exact ⟨stop, List.mem_append_left _ (List.mem_singleton_self _)⟩
      | node => exact absurd h.symm (role_ne_braceRole hfirst rfl)
      | around => exact absurd h.symm (role_ne_braceRole hfirst rfl)
    · obtain ⟨stop, hstop⟩ := ih hrest h
      exact ⟨stop, List.mem_append_right _ hstop⟩

/-- A control construct whose children are the right ones has a brace in
the record. -/
theorem exists_brace {sprout : Sprout} (hsound : sprout.Sound) (hnode : sprout.isNode = true)
    (hobeys : sprout.Obeys production) (hbraced : Braced (production sprout.kind)) :
    ∃ stop, Event.token (.token .lBrace) stop none ∈ sprout.events none := by
  cases sprout with
  | token => cases hnode
  | node kind field children =>
    obtain ⟨stop, hstop⟩ := exists_event_of_role hsound.2 (hbraced _ hobeys.1)
    exact ⟨stop, List.mem_cons_of_mem _ (List.mem_append_left _ hstop)⟩
  | around first kind field rest =>
    obtain ⟨hfirst, hsound, -, hrest⟩ := hsound
    -- The node was put around another node, which is no brace.
    have hmem := hbraced _ hobeys.1
    rcases List.mem_cons.mp hmem with hrole | hmem
    · exact absurd hrole.symm (role_ne_braceRole hsound hfirst)
    · obtain ⟨stop, hstop⟩ := exists_event_of_role hrest hmem
      exact ⟨stop, List.mem_append_right _ (List.mem_cons_of_mem _ (List.mem_append_left _ hstop))⟩

/-! ### The head of a control construct -/

/-- What a list has more since it was shorter. -/
theorem toList_extract_of_append {α : Type} {xs : Array α} {front fresh : List α} {count : Nat}
    (h : xs.toList = front ++ fresh) (hcount : count = front.length) :
    (xs.extract count).toList = fresh := by
  have hsize : xs.size = front.length + fresh.length := by
    rw [← Array.length_toList, h, List.length_append]
  rw [Array.toList_extract, List.extract_eq_take_drop, h, hcount, List.drop_left,
    List.take_of_length_le (by omega)]

/-- The first brace is one of the braces. -/
theorem mem_of_firstBraceSince? {checkpoint : Parser.Checkpoint} {brace : Nat}
    (h : firstBraceSince? checkpoint p = some brace) :
    ∃ field, Event.token (.token .lBrace) brace field
      ∈ (p.events.extract checkpoint.eventCount).toList := by
  unfold firstBraceSince? at h
  rw [← Array.findSome?_toList] at h
  obtain ⟨event, hmem, hevent⟩ := List.exists_of_findSome?_eq_some h
  split at hevent
  · cases hevent
    exact ⟨_, hmem⟩
  · cases hevent

/-- A fresh error is not in front of the first one. -/
theorem firstErrorSince?_le {checkpoint : Parser.Checkpoint} {diagnostic : Diagnostic}
    (h : diagnostic ∈ (p.source.lexerDiagnostics.extract checkpoint.lexerDiagnosticCount).toList) :
    ∃ error, firstErrorSince? checkpoint p = some error ∧ error ≤ diagnostic.range.start := by
  unfold firstErrorSince?
  dsimp only
  generalize hfresh : p.diagnostics.extract checkpoint.diagnosticCount ++
    p.source.lexerDiagnostics.extract checkpoint.lexerDiagnosticCount = fresh
  have hmem : diagnostic.range.start ∈ fresh.toList.map (·.range.start) := by
    rw [← hfresh, Array.toList_append]
    exact List.mem_map_of_mem (List.mem_append_right _ h)
  cases hmin : (fresh.toList.map (·.range.start)).min? with
  | none =>
    rw [List.min?_eq_none_iff.mp hmin] at hmem
    cases hmem
  | some error => exact ⟨error, rfl, (List.min?_eq_some_iff.mp hmin).2 _ hmem⟩

/-- A control construct at the start of an escaped text has an error in
front of its first brace, or no brace and an error. -/
theorem hasHeaderError_of_guarded {seam : Seam} {node : Completed} (hp : p.At seam)
    (level : p.IsLevel) (hguarded : (seam.pass p.context).behind.Guarded)
    (hkind : p.kind ≠ .lBrace) (hclean : p.errorCount = 0) (hforms : Forms p r node controls)
    (htakes : Takes p r) : hasHeaderError p.checkpoint r = true := by
  obtain ⟨sprout, hgrows, hpoints, -, ⟨domain, form, hform, hisArm⟩, hobeys⟩ := hforms
  obtain ⟨contexts, hway⟩ := htakes
  obtain ⟨hr, -, htaken⟩ := hway.at_ hp
  have hcount : p.checkpoint.lexerDiagnosticCount
      = (seam.pass p.context).lexer.diagnostics.toList.length := by
    show p.source.lexerDiagnostics.size = _
    rw [hp.lexerDiagnostics level, Array.length_toList]
  -- Every brace that was consumed has a fresh error in front of it.
  have hbraces : ∀ stop field,
      Event.token (.token .lBrace) stop field ∈ (r.events.extract p.events.size).toList →
      ∃ diagnostic ∈ (r.source.lexerDiagnostics.extract
        p.checkpoint.lexerDiagnosticCount).toList, diagnostic.range.start < stop := by
    intro stop field hmem
    rw [toList_extract_of_append hgrows.events (Array.length_toList).symm] at hmem
    have hmem : (some TokenKind.lBrace, stop) ∈ Event.taken (eventsList [sprout]) :=
      List.mem_filterMap.mpr ⟨_, hmem, rfl⟩
    rw [hgrows.events, Event.taken_append, List.append_cancel_left_eq] at htaken
    rw [htaken] at hmem
    have hlater : (some TokenKind.lBrace, stop) ∈ (seam.pass p.context).takes contexts := by
      refine (List.mem_cons.mp hmem).resolve_left fun hfirst => hkind ?_
      rw [hp.kind]
      exact (Option.some.inj (Prod.mk.inj hfirst).1).symm
    obtain ⟨fresh, hfresh, diagnostic, hdiagnostic, hlt⟩ :=
      Seam.exists_defect_of_mem_takes (Seam.isInside_pass hp.inside _) hguarded hlater
    obtain ⟨more, hmore⟩ := hr.prefix_lexerDiagnostics
    refine ⟨diagnostic, ?_, hlt⟩
    have hall : r.source.lexerDiagnostics.toList
        = (seam.pass p.context).lexer.diagnostics.toList ++ (fresh ++ more) := by
      rw [← hmore, ← List.append_assoc, ← hfresh]
      rfl
    rw [toList_extract_of_append hall hcount]
    exact List.mem_append_left _ hdiagnostic
  have herrors : r.hasErrorsSince p.checkpoint = true := by
    unfold Parser.hasErrorsSince
    rw [Bool.or_eq_true, decide_eq_true_eq, decide_eq_true_eq]
    by_cases hfail : r.errorCount = 0
    · -- Without errors the construct has a brace.
      right
      have hkind' : sprout.kind = .control domain form := by rw [← kind_outline, hform]
      obtain ⟨stop, hstop⟩ := exists_brace hgrows.sound.1
        hpoints.isNode (hobeys hfail)
        (by rw [hkind']; exact .control domain hisArm)
      have hfresh : (r.events.extract p.events.size).toList = sprout.events none ++ [] :=
        toList_extract_of_append hgrows.events (Array.length_toList).symm
      obtain ⟨diagnostic, hdiagnostic, -⟩ := hbraces stop none
        (by rw [hfresh]; exact List.mem_append_left _ hstop)
      have hsize := List.length_pos_of_mem hdiagnostic
      rw [Array.length_toList, Array.size_extract] at hsize
      omega
    · left
      show p.errorCount < _
      omega
  unfold hasHeaderError
  rw [herrors, Bool.true_and]
  split
  · rename_i brace error hbrace herror
    obtain ⟨field, hmem⟩ := mem_of_firstBraceSince? hbrace
    obtain ⟨diagnostic, hdiagnostic, hlt⟩ := hbraces brace field hmem
    obtain ⟨error', herror', hle⟩ := firstErrorSince?_le hdiagnostic
    rw [herror] at herror'
    cases herror'
    exact decide_eq_true (Nat.lt_of_le_of_lt hle hlt)
  · rfl

/-! ### Bodies that start with text -/

/-- The text behind a seam starts neither with white space nor with
markup. -/
structure StartsText (seam : Seam) (c : CodePoint) (rest : Text) : Prop where
  behind : seam.behind = c :: rest
  white : c.isWhitespace = false
  angle : c ≠ '<'
  brace : c ≠ '\x7b'

/-- The trivia in front of the current token is that of the seam. -/
theorem gapReadsAsText_eq {seam : Seam} (hp : p.At seam) :
    gapReadsAsText p = (seam.gap p.context).any Trivia.readsAsText := by
  unfold gapReadsAsText
  rw [hp.stands.trivia, hp.current]
  show ((seam.trivia ++ (seam.gap p.context).toArray).extract seam.trivia.size).any _ = _
  rw [← Array.any_toList, toList_extract_of_append (Array.toList_append ..) (Array.length_toList).symm,
    List.toList_toArray]

namespace StartsText

variable {seam : Seam} {c : CodePoint} {rest : Text}

/-- Where no comment and no invalid character comes first, the first
token is the one that the text starts with. -/
theorem target_eq (h : StartsText seam c rest) (hp : p.At seam)
    (hgap : gapReadsAsText p = false) :
    seam.lexer.target p.context = seam.lexer.next p.context := by
  rw [gapReadsAsText_eq hp, List.any_eq_false] at hgap
  refine Seam.target_eq_next (fun d hd => ?_) fun piece hmem => ?_
  · rw [h.behind] at hd
    rw [← Option.some.inj hd]
    exact h.white
  · have hplain := hgap piece hmem
    rw [Trivia.readsAsText, Bool.or_eq_true, decide_eq_true_eq, decide_eq_true_eq, not_or] at hplain
    exact hplain

/-- Behind such a seam the current token starts with this character, if no
trivia that reads as text is in front of it. -/
theorem kind_eq (h : StartsText seam c rest) (hp : p.At seam) (hgap : gapReadsAsText p = false) :
    p.kind = (Lexeme.next p.context c rest).kind := by
  rw [hp.kind]
  show (seam.lexer.target p.context).current.kind = _
  rw [h.target_eq hp hgap]
  exact (Lexer.next_of_drop_eq h.behind).1

/-- It starts no markup. -/
theorem kind_notMem (h : StartsText seam c rest) (hp : p.At seam)
    (hgap : gapReadsAsText p = false) : p.kind ∉ [TokenKind.eof, .lessThan, .lBrace] := by
  have hkind := h.kind_eq hp hgap
  have hopens := Lexeme.opens_next p.context c rest
  rw [hkind]
  simp only [List.mem_cons, List.not_mem_nil, or_false, not_or]
  exact ⟨(Lexeme.cuts_next p.context c rest).kind_ne, fun hangle => h.angle (hopens.angle hangle),
    fun hbrace => h.brace (hopens.brace hbrace)⟩

end StartsText

/-- What is known of a body whose text was not read: it holds no markup,
and reading it on would find no closing tag. -/
structure BodyState.Ends (state result : BodyState) (r : Parser) : Prop where
  hasMarkup : result.hasMarkup = state.hasMarkup
  control : result.control = state.control
  firstControl : result.firstControl = state.firstControl
  noCloseTag : result.isText = false → r.kind ≠ .lessThan

/-- A sequence of elements ends in front of text, which is no word that
starts a control construct or is behind a comment. -/
theorem yields_bodyRound_text {seam : Seam} {c : CodePoint} {rest : Text} (hp : p.At seam)
    (h : StartsText seam c rest) (state : BodyState)
    (hword : gapReadsAsText (p.relex .normal) = true ∨
      (p.relex .normal).kind ∉ [TokenKind.ifKeyword, .forKeyword]) :
    Yields (bodyRound descend state) p fun next r => r = p.relex .normal ∧
      ∃ result, next = .done result ∧ state.Ends result r := by
  have hq : (p.relex .normal).At seam := ⟨hp.inside, hp.stands.relex hp.inside⟩
  unfold bodyRound
  refine .modify (.get (.ite (fun _ => .pure ⟨rfl, _, rfl, rfl, rfl, rfl, nofun⟩) fun hgap => ?_))
  rw [Bool.not_eq_true] at hgap
  have hword := hword.resolve_left (Bool.eq_false_iff.mp hgap)
  have hkind := h.kind_notMem hq hgap
  simp only [List.mem_cons, List.not_mem_nil, or_false, not_or] at hkind hword
  refine .sees_false hkind.1 (.ite_false Bool.false_ne_true ?_)
  refine (yields_seesCloseTag_other hkind.2.1).bind_known (.ite_false Bool.false_ne_true ?_)
  have hitem : (p.relex .normal).kind ∉ elementsStart := by
    simp [elementsStart, hkind.2.1, hkind.2.2, hword.1, hword.2]
  refine (yields_seesElementsItem_other hitem).bind_known ?_
  exact .ite_true rfl (.pure ⟨rfl, _, rfl, rfl, rfl, rfl, fun _ => hkind.2.1⟩)

/-- A word that starts a control construct is read as one, and its head
has an error: the words are text. -/
theorem yields_bodyRound_word {seam : Seam} {c : CodePoint} {rest : Text}
    (hw : Works descend bound) (hbound : 4 * p.room ≤ bound) (hp : p.At seam)
    (hcontext : p.context = .normal) (level : p.IsLevel) (hclean : p.errorCount = 0)
    (h : StartsText seam c rest) (hguarded : seam.behind.Guarded)
    (hgap : gapReadsAsText p = false) (hword : p.kind ∈ [TokenKind.ifKeyword, .forKeyword]) :
    Yields (bodyRound descend {}) p fun next r => ∃ result, next = .done result ∧
      result.hasMarkup = false ∧ result.control = none ∧ result.firstControl = some p.checkpoint ∧
      Takes p r ∧ ∃ sprouts, Grows p r sprouts := by
  have hlive : p.Live := ⟨seam, hp⟩
  have hkind := h.kind_notMem hp hgap
  simp only [List.mem_cons, List.not_mem_nil, or_false, not_or] at hkind
  have hsees := yields_seesElementsItem_word hword
  -- The construct, whichever it is.
  have hitem : Yields (elementsItem descend) p fun item r =>
      ∃ node, item = some node ∧ Forms p r node controls ∧ Takes p r := by
    unfold elementsItem
    refine .modify ?_
    rw [Parser.relex_of_context hcontext]
    refine hsees.bind_known (.ite_false Bool.false_ne_true (.get ?_))
    rcases List.mem_cons.mp hword with hword | hword
    · rw [hword]
      exact (yields_ifExpression hw hlive hbound hword .elements).bind fun node r hr =>
        .pure ⟨node, rfl, hr⟩
    · rw [List.mem_singleton.mp hword]
      exact (yields_forExpression hw hlive hbound (List.mem_singleton.mp hword) .elements).bind
        fun node r hr => .pure ⟨node, rfl, hr⟩
  -- The word is one lexeme of the text, and what follows it is guarded as well.
  have hguarded : (seam.pass p.context).behind.Guarded := by
    show (seam.lexer.target p.context).behind.Guarded
    rw [h.target_eq hp hgap]
    refine (Lexer.guarded_next_or_defect p.context hguarded).resolve_right fun hdefect => ?_
    have hskipped := hdefect.1
    rw [← h.target_eq hp hgap] at hskipped
    have hsame : p.kind = .skipped := hp.kind.trans hskipped
    rw [hsame] at hword
    exact absurd hword (by decide)
  unfold bodyRound
  refine .modify ?_
  rw [Parser.relex_of_context hcontext]
  refine .get (.ite_false (Bool.eq_false_iff.mp hgap) ?_)
  refine .sees_false hkind.1 (.ite_false Bool.false_ne_true ?_)
  refine (yields_seesCloseTag_other hkind.2.1).bind_known (.ite_false Bool.false_ne_true ?_)
  refine hsees.bind_known ?_
  refine .ite_false Bool.false_ne_true (.mustProgress hlive (behind_first p) fun progress _ => ?_)
  refine .get (hitem.bind ?_)
  rintro _ r ⟨node, rfl, hforms, htakes⟩
  have herror := hasHeaderError_of_guarded hp level hguarded hkind.2.2 hclean hforms htakes
  obtain ⟨sprout, hgrows, hpoints, -, ⟨domain, form, hform, -⟩, -⟩ := hforms
  refine (Completed.yields_kind hgrows hpoints).bind ?_
  rintro kind _ ⟨rfl, hkind⟩
  have hcontrol : kind.isControl = true := by
    rw [← hkind, ← kind_outline, hform]
    rfl
  unfold bodyItemRead
  refine .ite_false (by rw [hcontrol]; decide) (.get ?_)
  exact .ite_true herror (.pure ⟨_, rfl, rfl, rfl, rfl, htakes, _, hgrows⟩)

/-- Reading a body of escaped text as a sequence finds no markup in it,
and the place that it can go back to is where it started. -/
theorem yields_bodyLoop_text {seam : Seam} {c : CodePoint} {rest : Text}
    (hw : Works descend bound) (hbound : 4 * p.room ≤ bound) (hp : p.At seam)
    (hcontext : p.context = .normal) (level : p.IsLevel) (hclean : p.errorCount = 0)
    (h : StartsText seam c rest) (hguarded : seam.behind.Guarded) :
    Yields (loop (bodyRound descend) {}) p fun result r =>
      result.hasMarkup = false ∧ result.control = none ∧
        (result.firstControl = none ∧ r = p ∨ result.firstControl = some p.checkpoint ∧
          Takes p r ∧ ∃ sprouts, Grows p r sprouts) := by
  unfold loop
  refine .get (.rounds_done ?_)
  have hrelex := Parser.relex_of_context hcontext
  by_cases hword : gapReadsAsText p = true ∨ p.kind ∉ [TokenKind.ifKeyword, .forKeyword]
  · refine (yields_bodyRound_text hp h {} (by rwa [hrelex])).mono ?_
    rintro next r ⟨rfl, result, rfl, hends⟩
    exact ⟨result, rfl, hends.hasMarkup, hends.control, .inl ⟨hends.firstControl, hrelex⟩⟩
  · rw [not_or, Bool.not_eq_true, not_not] at hword
    refine (yields_bodyRound_word hw hbound hp hcontext level hclean h hguarded hword.1
      hword.2).mono ?_
    rintro next r ⟨result, rfl, hmarkup, hcontrol, hfirst, htakes, hgrows⟩
    exact ⟨result, rfl, hmarkup, hcontrol, .inr ⟨hfirst, htakes, hgrows⟩⟩

/-- A body of escaped text is read as mixed content from its start. -/
theorem yields_classifiedBody_text {seam : Seam} {c : CodePoint} {rest : Text} {marker : Marker}
    {offset : Nat} {post : Completed → Parser → Prop} (hw : Works descend bound)
    (hbound : 4 * p.room ≤ bound) (hp : p.At seam) (hcontext : p.context = .normal)
    (level : p.IsLevel) (hclean : p.errorCount = 0) (h : StartsText seam c rest)
    (hguarded : seam.behind.Guarded)
    (hmixed : ∀ q, Records p [] [] .normal q →
      Yields (mixedBody descend marker { isElements := false }) q post) :
    Yields (classifiedBody descend marker p.checkpoint offset) p post := by
  have hlive : p.Live := ⟨seam, hp⟩
  unfold classifiedBody
  refine (yields_bodyLoop_text hw hbound hp hcontext level hclean h hguarded).bind ?_
  rintro state r ⟨hmarkup, hcontrol, hplace⟩
  dsimp only
  rw [hmarkup, hcontrol]
  refine .modify (.ite_false (by simp) (.bind_known (.pure ⟨rfl, rfl⟩) ?_))
  refine .ite_false Bool.false_ne_true (.modify (.get ?_))
  generalize hs : (r.relex .normal).remember "element_content" offset
    (.content { isElements := false }) = s
  have hquiet : Quiet (r.relex .normal) s :=
    hs ▸ quiet_remember _ _ _ (Outcome.isIn_content false _)
  -- Wherever reading the sequence went, the parse is back at the start of the body.
  have hback : ∀ sprouts, Grows p s sprouts → Takes p s ∨ Still p s →
      Records p [] [] .normal (s.rewind p.checkpoint) := by
    intro sprouts hgrows hway
    have hrewind := Parser.quiet_rewind hgrows hway
    exact .of_quiet hlive hcontext hrewind
      ⟨hrewind.diagnostics, hrewind.errorCount, hrewind.options, hrewind.file, rfl⟩
  rcases hplace with ⟨hfirst, rfl⟩ | ⟨hfirst, htakes, sprouts, hgrows⟩
  · rw [Parser.relex_of_context hcontext] at hs hquiet
    rw [hfirst]
    exact .ite (fun _ => .modify (hmixed _ (hback [] (hquiet.grows hlive) (.inr hquiet.toStill))))
      fun _ => hmixed s (hs ▸ .remember hlive hcontext _ _ (Outcome.isIn_content false _))
  · have hrelex := r.grows_relex hgrows.live .normal
    have hgrows' := (hgrows.trans hrelex).trans (hquiet.grows hrelex.live)
    have htakes' := (htakes.trans hrelex.reaches).trans hquiet.reaches
    rw [hfirst]
    exact .ite (fun _ => .modify (hmixed _ (hback _ hgrows' (.inl htakes')))) fun _ =>
      .modify (hmixed _ (hback _ hgrows' (.inl htakes')))

end Grammar

end MarkupSyntax
