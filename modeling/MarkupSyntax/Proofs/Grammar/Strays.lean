import MarkupSyntax.Proofs.Grammar.SimpleDefinition
import MarkupSyntax.Proofs.Parse.Recovering
import MarkupSyntax.Proofs.Parse.Reports

/-!
# `MarkupSyntax.Proofs.Grammar.Strays`: tokens between definitions that belong to none

A `Stray` is a token that no definition starts with and that goes on with
none. A module takes strays that follow each other for one error: it
reports the first of them and puts all of them into one node, and the
keyword of the next definition is where it goes on
(`yields_module_strays`).

The loop over the items of a module is cut into what it does before the
strays, at them, and behind them. Each part says what a run of rounds
does and hands over to whatever rounds come after.
-/

set_option autoImplicit false

namespace MarkupSyntax

open Grammar Parse

/-! ### Strays -/

/-- A token that has no place between definitions. -/
inductive Stray where
  | rParen
  | rBracket
  | comma

namespace Stray

/-- The kind of a stray token. -/
def kind : Stray → TokenKind
  | rParen => .rParen
  | rBracket => .rBracket
  | comma => .comma

/-- The token as it is written. -/
def word : (stray : Stray) → Word stray.kind
  | rParen => Word.rParen
  | rBracket => Word.rBracket
  | comma => Word.comma

/-- The tokens. -/
def words (strays : List Stray) : List Leaf := strays.map (·.word.token)

/-- The node that strays are put into. -/
def errorTree (strays : List Stray) : Tree := .node none .error (strays.map (·.word.leaf))

/-- The words of some strays, with the first one in front. -/
@[simp] theorem words_cons (stray : Stray) (strays : List Stray) :
    words (stray :: strays) = stray.word.token :: words strays := rfl

/-- Strays as leaves have these words. -/
theorem leavesList_map_leaf (strays : List Stray) :
    Tree.leavesList (strays.map (·.word.leaf)) = words strays := by
  induction strays with
  | nil => rfl
  | cons stray strays ih =>
    rw [List.map_cons, Tree.leavesList, ih]
    rfl

/-- The error node around strays has these words. -/
@[simp] theorem leaves_errorTree (strays : List Stray) : (errorTree strays).leaves = words strays :=
  leavesList_map_leaf strays

/-- Each of them is a token by itself. -/
theorem isWord_of_mem_words {strays : List Stray} : ∀ word ∈ words strays, word.IsWord := by
  intro word hmem
  obtain ⟨stray, -, rfl⟩ := List.mem_map.mp hmem
  exact stray.word.spells

/-- No stray is the end of the source, a place to go on at, or a brace. -/
theorem kind_notMem (stray : Stray) :
    stray.kind ∉ [TokenKind.eof, .lBrace, .atLBrace, .rBrace] ++ moduleRecovery.stops := by
  cases stray <;> decide

/-- None of them is the end of the source. -/
theorem kind_ne_eof (stray : Stray) : stray.kind ≠ .eof := stray.word.spells.kind_ne_eof

end Stray

/-- These words start where a module goes on after an error: with a keyword
or a tag, or with the end of the source. -/
structure Leaf.Resumes (rest : List Leaf) : Prop where
  ne_nil : rest ≠ []
  kind : firstKind rest ∈ TokenKind.eof :: moduleRecovery.stops

/-- The end of the source, as a token. -/
def Leaf.endOfSource : Leaf := ⟨.token .eof, [], [], []⟩

/-- The diagnostic of a token that has no place. -/
def Diagnostic.unexpected (kind : TokenKind) (range : TextRange) (file : Text) : Diagnostic :=
  (Diagnostic.ofCode .unexpectedToken range file).withMessage
    (Text.ofString ("Unexpected " ++ kind.display))

/-- The diagnostic about a stray is one of the grammar, not of the lexer. -/
theorem Diagnostic.ofGrammar_unexpected (kind : TokenKind) (range : TextRange) (file : Text) :
    (unexpected kind range file).OfGrammar :=
  ⟨rfl, rfl⟩

namespace Grammar

variable {p q r : Parser} {rest : List Leaf} {strays : List Stray} {descend : Descent}
  {progress : Progress}

/-! ### Skipping -/

/-- A place is safe for a module by its token alone. -/
theorem yields_isSafe_module (p : Parser) :
    Yields moduleRecovery.isSafe p fun answer q =>
      answer = decide (p.kind ∈ moduleRecovery.stops) ∧ q = p := by
  unfold Recovery.isSafe
  refine .seesAny fun answer hanswer => .ite (fun h => ?_) fun h => ?_
  · exact .pure ⟨(decide_eq_true (hanswer.mp h)).symm, rfl⟩
  · refine .ite_false Bool.false_ne_true (.pure ⟨?_, rfl⟩)
    exact (decide_eq_false fun hmem => h (hanswer.mpr hmem)).symm

/-- Strays are skipped one by one, up to where the module goes on. -/
theorem yields_skip_strays (hrest : Leaf.Resumes rest) (h : p.Before (Stray.words strays ++ rest))
    {fuel : Nat} (enough : strays.length < fuel) :
    Yields (rounds moduleRecovery.skip fuel 0) p fun _ q =>
      Writes p (strays.map (·.word.leaf)) q := by
  induction strays generalizing p fuel with
  | nil =>
    obtain ⟨fuel, rfl⟩ : ∃ n, fuel = n + 1 := ⟨fuel - 1, by omega⟩
    have hkind : p.kind ∈ TokenKind.eof :: moduleRecovery.stops := by
      rw [h.kind_of_ne_nil hrest.ne_nil]
      exact hrest.kind
    refine .rounds_done ?_
    unfold Recovery.skip
    rcases List.mem_cons.mp hkind with hend | hsafe
    · exact .sees_true hend (.ite_true rfl (.pure ⟨(), rfl, .nil h⟩))
    · refine .sees_false (fun hend => ?_) (.ite_false Bool.false_ne_true (.ite_true rfl ?_))
      · rw [hend] at hsafe
        exact absurd hsafe (by decide)
      refine (yields_isSafe_module p).bind ?_
      rintro _ q ⟨rfl, hq⟩
      rw [hq]
      exact .ite_true (decide_eq_true hsafe) (.pure ⟨(), rfl, .nil h⟩)
  | cons stray strays ih =>
    obtain ⟨fuel, rfl⟩ : ∃ n, fuel = n + 1 := ⟨fuel - 1, by omega⟩
    have hkind : p.kind = stray.kind := h.kind
    have hother := stray.kind_notMem
    rw [← hkind] at hother
    -- No stray is a bracket that counts, so the depth stays zero.
    refine .rounds_again (fun depth q => depth = 0 ∧ Writes p [stray.word.leaf] q) ?_ ?_
    · unfold Recovery.skip
      refine .sees_false (fun heq => hother (by rw [heq]; decide)) ?_
      refine .ite_false Bool.false_ne_true (.ite_true rfl ?_)
      refine (yields_isSafe_module p).bind ?_
      rintro _ q ⟨rfl, hq⟩
      rw [hq]
      refine .ite_false (fun hsafe => hother (List.mem_append_right _ (of_decide_eq_true hsafe))) ?_
      refine .seesAny_false (fun hmem => hother ?_) (.sees_false (fun heq => hother (by rw [heq]; decide)) ?_)
      · refine List.mem_append_left _ (List.mem_cons_of_mem _ ?_)
        rcases List.mem_pair.mp hmem with heq | heq <;> rw [heq] <;> decide
      refine (yields_bump_word h stray.kind_ne_eof none).bind ?_
      exact fun _ r hr => .pure ⟨0, rfl, rfl, hr⟩
    · rintro _ q ⟨rfl, hq⟩
      refine (ih (h.tail hq.toCovers) (by
        rw [List.length_cons] at enough
        omega)).mono ?_
      exact fun _ r hr => hq.trans hr

/-- Strays are put into one node. -/
theorem yields_recover_strays (hrest : Leaf.Resumes rest) (hne : strays ≠ [])
    (h : p.Before (Stray.words strays ++ rest)) (notSpeculative : p.isSpeculative = false) :
    Yields moduleRecovery.recover p fun result q =>
      result.isOk = true ∧ Writes p [Stray.errorTree strays] q := by
  obtain ⟨stray, others, rfl⟩ := List.exists_cons_of_ne_nil hne
  have hkind : p.kind = stray.kind := h.kind
  have hother := stray.kind_notMem
  rw [← hkind] at hother
  unfold Recovery.recover
  refine .sees_false (fun heq => hother (by rw [heq]; decide)) (.ite_false Bool.false_ne_true ?_)
  refine (yields_isSafe_module p).bind ?_
  rintro _ q ⟨rfl, hq⟩
  rw [hq]
  refine .ite_false (fun hsafe => hother (List.mem_append_right _ (of_decide_eq_true hsafe))) ?_
  refine .get (.ite_false (by rw [notSpeculative]; exact Bool.false_ne_true) ?_)
  refine (yields_start_word h.live h.context).bind ?_
  intro marker q hq
  have h := h.same hq.toCovers
  have hskip : Yields (loop moduleRecovery.skip 0) q fun _ r =>
      Writes q ((stray :: others).map (·.word.leaf)) r := by
    have hfew := h.length_le fun word hmem => Stray.isWord_of_mem_words word hmem
    rw [Stray.words, List.length_map] at hfew
    unfold loop
    exact .get (yields_skip_strays hrest h (by omega))
  refine hskip.bind ?_
  intro _ r hr
  refine ((hq.writes hr).complete rfl (Outline.fits_of_isLoose rfl)).bind ?_
  exact fun node s hs => .pure ⟨rfl, hs.writes⟩

/-! ### Rounds -/

/-- A definition is read in one round. -/
theorem yields_moduleRound_definition (definition : SimpleDefinition) (hrest : Leaf.StartsLine rest)
    (h : p.Before (definition.words ++ rest)) (hbehind : Behind progress p) :
    Yields (moduleRound descend progress) p fun next q =>
      ∃ progress, next = .again progress ∧ Behind progress q ∧ Writes p [definition.tree] q := by
  obtain ⟨word, words, hwords, hkeyword⟩ := definition.exists_words_eq_cons
  have hkind : p.kind = word.lexed.kind := by
    have h := h
    rw [hwords] at h
    exact h.kind
  unfold moduleRound
  refine .sees_false (fun heq => ?_) (.ite_false Bool.false_ne_true ?_)
  · rw [← hkind, heq] at hkeyword
    exact absurd hkeyword (by decide)
  refine .mustProgress h.live hbehind fun next hnext => ?_
  refine (yields_moduleItem_definition definition hrest h).bind ?_
  rintro (_ | node) q hq
  · exact hq.elim
  have htakes : Takes p q := by
    have hcovers := hq.toCovers
    rw [show definition.tree.leaves = word :: words from hwords, List.map_cons] at hcovers
    exact hcovers.takes h.context
  exact .ite_true rfl (.pure ⟨next, rfl, behind_of_takes hnext htakes h.live, hq.writes⟩)

/-- Strays are reported and skipped in one round. -/
theorem yields_moduleRound_strays {stray : Stray} (hrest : Leaf.Resumes rest)
    (h : p.Before (Stray.words (stray :: strays) ++ rest)) (hbehind : Behind progress p)
    (clean : p.diagnostics = #[]) (notSpeculative : p.isSpeculative = false) :
    Yields (moduleRound descend progress) p fun next q =>
      ∃ progress, next = .again progress ∧ Behind progress q ∧
        Reports p ((Stray.words (stray :: strays)).map Leaf.lexed)
          [Stray.errorTree (stray :: strays)] .normal [.unexpected stray.kind p.range p.file] q := by
  have hkind : p.kind = stray.kind := h.kind
  have hitem : Yields (moduleItem descend) p fun answer q => answer = none ∧ q = p := by
    unfold moduleItem
    refine .get ?_
    rw [hkind]
    cases stray <;> exact .pure ⟨rfl, rfl⟩
  -- The report is the first one, so it is not merged with another one of the same place.
  have hreport : Yields reportUnexpected p fun _ q =>
      Reports p [] [] .normal [.unexpected stray.kind p.range p.file] q := by
    rw [← hkind]
    unfold reportUnexpected
    refine .get ?_
    unfold reportWith
    exact .get (yields_report_first h.live h.context clean (Diagnostic.ofGrammar_unexpected ..)
      ((Diagnostic.IsPlaced.ofCode .unexpectedToken h.live.range_isIn).withMessage _))
  unfold moduleRound
  refine .sees_false (hkind ▸ stray.kind_ne_eof) (.ite_false Bool.false_ne_true ?_)
  refine .mustProgress h.live hbehind fun next hnext => ?_
  refine hitem.bind ?_
  rintro _ q ⟨rfl, hq⟩
  rw [hq]
  refine .ite_false Bool.false_ne_true ?_
  -- All strays up to the next safe token end up in one error node.
  have hskip : Yields moduleRecovery.skipUnexpected p fun skipped r => skipped = true ∧
      Reports p ((Stray.words (stray :: strays)).map Leaf.lexed)
        [Stray.errorTree (stray :: strays)] .normal [.unexpected stray.kind p.range p.file] r := by
    unfold Recovery.skipUnexpected
    refine hreport.bind ?_
    intro _ r hr
    obtain ⟨behind, hfaces⟩ := h.faces
    have h : r.Before (Stray.words (stray :: strays) ++ rest) := ⟨⟨behind, hfaces.later hr⟩, hr.context⟩
    refine (yields_recover_strays hrest (List.cons_ne_nil _ _) h
      (hr.isSpeculative.trans notSpeculative)).bind ?_
    rintro result s ⟨hresult, hs⟩
    refine .pure ⟨hresult, ?_⟩
    have hall := hr.trans hs.reports
    rwa [Tree.leavesList, Tree.leavesList, List.append_nil, Stray.leaves_errorTree] at hall
  refine hskip.bind ?_
  rintro _ r ⟨rfl, hr⟩
  refine .ite_false Bool.false_ne_true ?_
  exact .pure ⟨next, rfl, behind_of_takes hnext (hr.takes h.context) h.live, hr⟩

/-- Behind the last token a module ends. -/
theorem yields_moduleRound_end (h : p.Before (Leaf.endOfSource :: rest)) :
    Yields (moduleRound descend progress) p fun next q => next = .done () ∧ q = p := by
  unfold moduleRound
  exact .sees_true h.kind (.ite_true rfl (.pure ⟨rfl, rfl⟩))

/-- Where definitions are followed by a new line, so is each of them. -/
theorem startsLine_definitions (definitions : List SimpleDefinition) (hrest : Leaf.StartsLine rest) :
    Leaf.StartsLine (SimpleDefinition.wordsList definitions ++ rest) := by
  cases definitions with
  | nil => exact hrest
  | cons definition definitions =>
    obtain ⟨word, words, hwords, hkeyword⟩ := definition.exists_words_eq_cons
    rw [SimpleDefinition.wordsList_cons, hwords]
    refine ⟨List.cons_ne_nil _ _, fun hmem => ?_⟩
    have hall : ∀ kind ∈ definitionKeywords, kind ∉ [TokenKind.dot, .question, .lBracket] := by
      decide
    exact hall _ hkeyword hmem

/-- Definitions are read one by one. What happens behind them is left to
the rounds that follow. -/
theorem yields_rounds_definitions (definitions : List SimpleDefinition)
    (hrest : Leaf.StartsLine rest) (h : p.Before (SimpleDefinition.wordsList definitions ++ rest))
    (hbehind : Behind progress p) {fuel : Nat} {post : Unit → Parser → Prop}
    (later : ∀ progress q, Behind progress q → Writes p (definitions.map (·.tree)) q →
      Yields (rounds (moduleRound descend) fuel progress) q post) :
    Yields (rounds (moduleRound descend) (definitions.length + fuel) progress) p post := by
  induction definitions generalizing p progress with
  | nil =>
    rw [List.length_nil, Nat.zero_add]
    exact later progress p hbehind (.nil h)
  | cons definition definitions ih =>
    rw [SimpleDefinition.wordsList_cons, List.append_assoc] at h
    rw [List.length_cons, Nat.succ_add]
    refine .rounds_again (fun progress q => Behind progress q ∧ Writes p [definition.tree] q)
      (yields_moduleRound_definition definition (startsLine_definitions definitions hrest) h hbehind)
      ?_
    rintro progress q ⟨hbehind, hq⟩
    have hconsumes := hq.toCovers
    rw [Tree.leavesList, Tree.leavesList, List.append_nil] at hconsumes
    refine ih (h.after hconsumes) hbehind fun progress r hbehind hr => ?_
    exact later progress r hbehind (hq.trans hr)

/-- The trees of definitions have their words. -/
theorem leavesList_definitions (definitions : List SimpleDefinition) :
    Tree.leavesList (definitions.map (·.tree)) = SimpleDefinition.wordsList definitions := by
  induction definitions with
  | nil => rfl
  | cons definition definitions ih =>
    rw [List.map_cons, Tree.leavesList, ih]
    rfl

/-- What definitions, strays and further definitions are read as. -/
def strayTrees (before : List SimpleDefinition) (strays : List Stray)
    (after : List SimpleDefinition) : List Tree :=
  before.map (·.tree) ++ Stray.errorTree strays :: after.map (·.tree)

/-- Their words. -/
def strayWords (before : List SimpleDefinition) (strays : List Stray)
    (after : List SimpleDefinition) : List Leaf :=
  SimpleDefinition.wordsList before ++ (Stray.words strays ++ SimpleDefinition.wordsList after)

/-- Each word of definitions with strays among them is a token by itself. -/
theorem isWord_of_mem_strayWords {before after : List SimpleDefinition} :
    ∀ word ∈ strayWords before strays after, word.IsWord := by
  intro word hmem
  simp only [strayWords, List.mem_append] at hmem
  rcases hmem with hmem | hmem | hmem
  · exact SimpleDefinition.isWord_of_mem_wordsList word hmem
  · exact Stray.isWord_of_mem_words word hmem
  · exact SimpleDefinition.isWord_of_mem_wordsList word hmem

/-- A stray starts a line of its own. -/
theorem startsLine_strays (stray : Stray) (strays : List Stray) (rest : List Leaf) :
    Leaf.StartsLine (Stray.words (stray :: strays) ++ rest) := by
  refine ⟨List.cons_ne_nil _ _, ?_⟩
  show stray.kind ∉ _
  cases stray <;> decide

/-- At the end of the source no definition goes on. -/
theorem startsLine_endOfSource : Leaf.StartsLine [Leaf.endOfSource] :=
  ⟨List.cons_ne_nil _ _, by decide⟩

/-- A module goes on at definitions, and at the end of the source. -/
theorem resumes_definitions (definitions : List SimpleDefinition) :
    Leaf.Resumes (SimpleDefinition.wordsList definitions ++ [Leaf.endOfSource]) := by
  cases definitions with
  | nil => exact ⟨List.cons_ne_nil _ _, List.mem_cons_self⟩
  | cons definition definitions =>
    obtain ⟨word, words, hwords, hkeyword⟩ := definition.exists_words_eq_cons
    rw [SimpleDefinition.wordsList_cons, hwords]
    refine ⟨List.cons_ne_nil _ _, List.mem_cons_of_mem _ (List.mem_append_left _ ?_)⟩
    exact hkeyword

/-- A module of definitions with strays between them: the first stray is
reported, and the strays are one node. -/
theorem yields_module_strays {before after : List SimpleDefinition} {stray : Stray}
    {range : TextRange}
    (h : p.Before (strayWords before (stray :: strays) after ++ [Leaf.endOfSource]))
    (clean : p.diagnostics = #[]) (notSpeculative : p.isSpeculative = false)
    (hrange : ∀ q, Consumes p (SimpleDefinition.wordsList before) q → q.range = range) :
    Yields (module descend) p fun _ q =>
      Reports p ((strayWords before (stray :: strays) after).map Leaf.lexed)
        [.node none .moduleDefinition (strayTrees before (stray :: strays) after)] .normal
        [.unexpected stray.kind range p.file] q := by
  unfold module
  refine (yields_start_word h.live h.context).bind ?_
  intro marker q hq
  have h := h.same hq.toCovers
  -- Each item takes a token at least, so there are rounds enough for all of them.
  have hfew : ∃ fuel, q.text.length + 3
      = before.length + ((after.length + (fuel + 1)) + 1) := by
    have hwords := h.length_le fun word hmem => isWord_of_mem_strayWords word hmem
    have hbefore := SimpleDefinition.length_le_wordsList before
    have hafter := SimpleDefinition.length_le_wordsList after
    simp only [strayWords, List.length_append] at hwords
    exact ⟨q.text.length + 3 - (before.length + (after.length + 1 + 1)), by omega⟩
  have hloop : Yields (loop (moduleRound descend) {}) q fun _ r =>
      Reports q ((strayWords before (stray :: strays) after).map Leaf.lexed)
        (strayTrees before (stray :: strays) after) .normal
        [.unexpected stray.kind range p.file] r := by
    obtain ⟨fuel, hfuel⟩ := hfew
    unfold loop
    refine .get ?_
    rw [hfuel]
    rw [strayWords, List.append_assoc, List.append_assoc] at h
    refine yields_rounds_definitions before (startsLine_strays stray strays _) h (behind_first q) ?_
    intro progress r hbehind hr
    have hcalm := hq.calm.trans hr.calm
    have hconsumes := hr.toCovers
    rw [leavesList_definitions] at hconsumes
    have h := h.after hconsumes
    have hplace : r.range = range := hrange r (Covers.trans hq.toCovers hconsumes)
    have hplain : r.isSpeculative = false := by
      obtain ⟨_, _, hopened, -⟩ := hq.opened
      rw [hr.toRecords.reports.isSpeculative, hopened.notes.isSpeculative, notSpeculative]
    refine .rounds_again _ (yields_moduleRound_strays (resumes_definitions after) h hbehind
      (by rw [hcalm.diagnostics, clean]) hplain) ?_
    rintro progress s ⟨hbehind, hs⟩
    rw [hplace, hcalm.file] at hs
    have h : s.Before (SimpleDefinition.wordsList after ++ [Leaf.endOfSource]) := by
      obtain ⟨behind, hfaces⟩ := h.faces
      rw [List.map_append] at hfaces
      exact ⟨⟨behind, hfaces.later hs⟩, hs.context⟩
    refine yields_rounds_definitions after startsLine_endOfSource h hbehind ?_
    intro progress t hbehind ht
    have hconsumes := ht.toCovers
    rw [leavesList_definitions] at hconsumes
    refine .rounds_done ((yields_moduleRound_end (h.after hconsumes)).mono ?_)
    rintro _ _ ⟨rfl, hu⟩
    rw [hu]
    have hall := (hr.toRecords.reports.trans hs).trans ht.toRecords.reports
    simp only [leavesList_definitions, ← List.map_append, List.append_assoc, List.nil_append,
      List.append_nil, List.cons_append] at hall
    exact ⟨(), rfl, hall⟩
  refine hloop.bind ?_
  intro _ r hr
  exact hq.toHolds.completeReports hr rfl (Outline.fits_of_isLoose rfl)

end Grammar

end MarkupSyntax
