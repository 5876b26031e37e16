import MarkupSyntax.Proofs.Diagnostic.Merge
import MarkupSyntax.Proofs.Document.Checks
import MarkupSyntax.Proofs.Document.Precedence
import MarkupSyntax.Proofs.Grammar.SimpleDefinition
import MarkupSyntax.Proofs.Grammar.Tagged
import MarkupSyntax.Proofs.Parse.Reports

/-!
# `MarkupSyntax.Proofs.Document.Roundtrip`: documents that are read as they are written

The source `let v = { … }` around a well-formed expression has the tree
that the expression stands for, and nothing is wrong with it
(`parse_definitionText`).

A run of the parser whose tokens and outline are known has a known tree
too (`exists_parse_of_shapes`): its tokens have the texts that the
lexer reads, and a tree without trivia is determined by both.
-/

set_option autoImplicit false

namespace MarkupSyntax

open Grammar Parse

variable {p q r : Parser} {rest : List Leaf} {source file : Text} {options : Options}

namespace Term

/-- The name that is given to the value. -/
def definedName : Word .identifier := ⟨"v", ⟨⟨rfl, rfl, rfl⟩, rfl⟩⟩

/-- The expression in braces. -/
def interpolationTree (expression : Term) (field : Option String) : Tree :=
  .node field .interpolationExpression
    [Word.lBrace.leaf, expression.tree.withField (some "value"), Word.rBrace.leaf]

/-- `let v = { expression }` -/
def definitionTree (expression : Term) : Tree :=
  .node none .valueDefinition
    [Word.letKeyword.leaf, definedName.leaf (some "name"), Word.equal.leaf,
      expression.interpolationTree (some "value")]

/-- A source with nothing else in it. -/
def moduleTree (expression : Term) : Tree :=
  .node none .moduleDefinition [expression.definitionTree]

/-- The same as a text: the tokens of the expression with single spaces
between them. -/
def definitionText (expression : Term) : Text :=
  Text.ofString "let v = \x7b " ++ Text.spaced (expression.words.map (·.text)) ++
    Text.ofString " \x7d"

/-- The words behind the name. -/
def valueWords (expression : Term) : List Leaf :=
  Word.lBrace.token :: (expression.words ++ [Word.rBrace.token])

/-- The words of the source, from the keyword to the closing brace. -/
theorem leaves_moduleTree (expression : Term) :
    expression.moduleTree.leaves
      = Word.letKeyword.token :: definedName.token :: Word.equal.token :: expression.valueWords := by
  simp [moduleTree, definitionTree, interpolationTree, valueWords, words, Tree.leaves,
    Tree.leavesList, Tree.leaves_withField, Word.leaf]

/-- A definition is its words with spaces between them. -/
theorem definitionText_eq (expression : Term) :
    expression.definitionText = Text.spaced (expression.moduleTree.leaves.map (·.text)) := by
  obtain ⟨first, rest, hwords⟩ := List.exists_cons_of_ne_nil (words_ne_nil expression)
  rw [leaves_moduleTree, valueWords, definitionText, hwords]
  simp only [List.map_cons, List.map_append, List.cons_append, Text.spaced_cons]
  simp [Text.ofString, CodePoint.ofChar, Word.letKeyword, Word.token, definedName, Word.equal,
    Word.lBrace, Word.rBrace]

/-- The tree of a definition has no trivia in it. -/
@[simp] theorem bare_definitionTree (expression : Term) :
    expression.definitionTree.bare = expression.definitionTree := by
  simp [definitionTree, interpolationTree, Tree.bare, Tree.bareList, bare_tree]

/-- There is no element in an expression, so no tag can be left open. -/
theorem element_notMem_definitionTree (expression : Term) :
    SyntaxKind.element ∉ expression.definitionTree.kinds := by
  simp [definitionTree, interpolationTree, element_notMem_kinds]

/-- Each of the words is read as one token, whatever is behind it. -/
theorem isWord_of_mem_valueWords (expression : Term) :
    ∀ word ∈ expression.valueWords, word.IsWord := by
  intro word h
  rw [valueWords, List.mem_cons, List.mem_append, List.mem_singleton] at h
  rcases h with rfl | h | rfl
  · exact Word.lBrace.spells
  · exact isWord_of_mem_words expression h
  · exact Word.rBrace.spells

/-- So are the words of the whole source. -/
theorem isWord_of_mem_moduleTree (expression : Term) :
    ∀ word ∈ expression.moduleTree.leaves, word.IsWord := by
  intro word h
  simp only [leaves_moduleTree, List.mem_cons] at h
  rcases h with rfl | rfl | rfl | h
  · exact Word.letKeyword.spells
  · exact definedName.spells
  · exact Word.equal.spells
  · exact expression.isWord_of_mem_valueWords word h

end Term

namespace Grammar

/-- An expression in braces. -/
theorem yields_interpolation_words {expression : Term} (hwell : expression.WellFormed)
    (h : p.Before (Word.lBrace.token :: (expression.words ++ Word.rBrace.token :: rest)))
    (hdepth : p.depth + expression.words.length < p.options.maxNestingDepth)
    (field : Option String) :
    Yields (interpolation descent field) p fun node q =>
      Draws p (expression.interpolationTree field) node q := by
  have hparses := parses_descent (2 * expression.words.length + 2)
  obtain ⟨behind, hfaces⟩ := h.faces
  rw [List.map_cons, List.map_append, List.map_cons] at hfaces
  have hwords : (expression.tree.withField (some "value")).leaves = expression.words :=
    Tree.leaves_withField ..
  have hvalue : ∀ q, Covers p [.lBrace .normal] .normal q → q.memo = p.memo →
      Yields (expectValue descent "value") q fun _ r =>
        Records q (expression.words.map Leaf.lexed) [expression.tree.withField (some "value")]
          .normal r ∧ r.memo = q.memo := by
    intro q hq _
    -- A level and a step of the descent for each word, and one more for the braces.
    have hroom : Room q (2 * expression.words.length + 2) (expression.words.length + 1) := by
      constructor
      · rw [hq.calm.depth, hq.calm.options]
        push_cast
        omega
      · omega
    refine (yields_expectValue_words hparses hwell (h.tail hq) (.of_closer (by decide)) hroom
      (by omega) "value").mono ?_
    intro node r hr
    have hrecords := hr.toShapes.records
    rw [hwords] at hrecords
    exact ⟨hrecords, hr.memo⟩
  refine (yields_interpolation_tokens hfaces h.context hvalue field).mono ?_
  rintro node q ⟨hq, hmemo⟩
  refine ⟨?_, hmemo⟩
  have hleaves : (expression.interpolationTree field).leaves
      = Word.lBrace.token :: (expression.words ++ [Word.rBrace.token]) := by
    simp [Term.interpolationTree, Tree.leaves, Tree.leavesList, hwords, Word.leaf]
  rw [hleaves, List.map_cons, List.map_append]
  exact hq

/-- The definition of a value. -/
theorem yields_valueDefinition_words {expression : Term} (hwell : expression.WellFormed)
    (h : p.Before (Word.letKeyword.token :: Term.definedName.token :: Word.equal.token ::
      expression.valueWords))
    (hdepth : p.depth + expression.words.length < p.options.maxNestingDepth) :
    Yields (valueDefinition descent) p fun node q => Draws p expression.definitionTree node q := by
  refine yields_valueDefinition_of_rightSide h fun q hcalm h => ?_
  unfold rightSide
  refine .modify ?_
  rw [Parser.relex_of_context h.context]
  refine .get ?_
  have hkind : q.kind = .lBrace := h.kind
  rw [hkind]
  refine (yields_interpolation_words hwell h (by rw [hcalm.depth, hcalm.options]; exact hdepth)
    (some "value")).bind ?_
  exact fun node r hr => .pure hr.writes

/-- Where one item is all of a source, it is all of the module. What the
item leaves in the memo is open. -/
theorem yields_module_single (memory : List ((String × Nat) × Outcome) → Prop)
    (written : List Lexed → Tree → Prop) (h : p.Faces [] source) (hcontext : p.context = .normal)
    (notEnd : p.kind ≠ .eof)
    (hitem : ∀ q, Covers p [] .normal q → q.kind = p.kind → q.memo = p.memo →
      Yields (moduleItem descent) q fun answer r => answer.isSome = true ∧ memory r.memo ∧
        ∃ tokens tree, written tokens tree ∧ Lexes source tokens [] ∧
          Records q tokens [tree] .normal r) :
    Yields (module descent) p fun node q => memory q.memo ∧ ∃ tokens tree, written tokens tree ∧
      Lexes source tokens [] ∧ Shapes p tokens (.node none .moduleDefinition [tree]) node .normal q := by
  unfold module
  refine (yields_start_node h.live hcontext).bind ?_
  rintro marker q ⟨hq, hmarks⟩
  have hfaces := h.same hq.toCovers
  have hkind : q.kind = p.kind := (hq.still h.live hcontext).kind
  have hround : Yields (moduleRound descent {}) q fun next r => ∃ progress, next = .again progress ∧
      memory r.memo ∧ ∃ tokens tree, written tokens tree ∧ Lexes source tokens [] ∧
        Records q tokens [tree] .normal r := by
    unfold moduleRound
    refine .sees_false (hkind ▸ notEnd) (.ite_false Bool.false_ne_true ?_)
    refine .mustProgress hfaces.live (fun _ hlast => nomatch hlast) fun progress _ => ?_
    refine (hitem q hq.toCovers hkind hmarks.memo).bind ?_
    rintro _ r ⟨hanswer, hr⟩
    exact .ite_true hanswer (.pure ⟨progress, rfl, hr⟩)
  have hloop : Yields (loop (moduleRound descent) {}) q fun _ r => memory r.memo ∧
      ∃ tokens tree, written tokens tree ∧ Lexes source tokens [] ∧
        Records q tokens [tree] .normal r := by
    unfold loop
    refine .get (.rounds_again (fun _ r => memory r.memo ∧ ∃ tokens tree, written tokens tree ∧
      Lexes source tokens [] ∧ Records q tokens [tree] .normal r) hround ?_)
    rintro progress r ⟨hmemory, tokens, tree, hwritten, hlexes, hr⟩
    -- Behind the item the source ends.
    have hend : r.Faces [] [] := (hfaces.append hlexes).all hr.toCovers
    refine .rounds_done ?_
    unfold moduleRound
    exact .sees_true hend.kind_nil
      (.ite_true rfl (.pure ⟨(), rfl, hmemory, tokens, tree, hwritten, hlexes, hr⟩))
  refine hloop.bind ?_
  rintro _ r ⟨hmemory, tokens, tree, hwritten, hlexes, hr⟩
  refine ((hq.records hr).complete (by decide) (Outline.fits_of_isLoose rfl)).mono ?_
  rintro node s ⟨hs, hmarks'⟩
  exact ⟨hmarks'.memo ▸ hmemory, tokens, tree, hwritten, hlexes, hs⟩

/-- A definition is all of a source. -/
theorem yields_module_words {expression : Term} (hwell : expression.WellFormed)
    (hfaces : p.Faces (expression.moduleTree.leaves.map Leaf.lexed) []) (hcontext : p.context = .normal)
    (hdepth : p.depth + expression.words.length < p.options.maxNestingDepth) :
    Yields (module descent) p fun node q => Draws p expression.moduleTree node q := by
  obtain ⟨seam, hp, hlexes⟩ := hfaces
  have hbefore : p.Before expression.moduleTree.leaves := ⟨⟨_, seam, hp, hlexes⟩, hcontext⟩
  have hkind : p.kind = .letKeyword := by
    have h := hbefore
    rw [expression.leaves_moduleTree] at h
    exact h.kind
  refine (yields_module_single (· = p.memo)
    (fun tokens tree => tokens = expression.moduleTree.leaves.map Leaf.lexed ∧
      tree = expression.definitionTree) ⟨seam, hp, .nil _⟩ hcontext (by rw [hkind]; decide)
    fun q hq hsame hmemo => ?_).mono ?_
  · have h := hbefore.same hq
    rw [expression.leaves_moduleTree] at h
    unfold moduleItem
    refine .get ?_
    rw [hsame.trans hkind]
    refine (yields_seesFunctionHead_words h).bind ?_
    rintro _ r ⟨rfl, hr⟩
    have hcalm := hq.calm.trans hr.calm
    refine .ite_false Bool.false_ne_true ?_
    refine (yields_valueDefinition_words hwell (h.same hr.toCovers)
      (by rw [hcalm.depth, hcalm.options]; exact hdepth)).bind ?_
    intro node s hs
    have hwrites := (hs.after hr).writes
    exact .pure ⟨rfl, hwrites.memo.trans hmemo, _, _, ⟨rfl, rfl⟩, hlexes, hwrites.toRecords⟩
  · rintro node q ⟨hmemo, _, _, ⟨rfl, rfl⟩, -, hq⟩
    exact ⟨hq, hmemo⟩

end Grammar

/-! ### Documents of known sources -/

namespace Document

open Sprout hiding node token

variable {final : Parser} {sprout : Sprout}

/-- The token for the end of a source, without trivia. -/
def endLeaf : Tree := .leaf none ⟨.token .eof, [], [], []⟩

/-- A module with these children, from the root of its tree on. -/
def wholeTree (children : List Tree) : Tree :=
  .node none .root [.node none .moduleDefinition (children ++ [endLeaf])]

/-- The document of a source whose tokens are known, and the tree that the
parse makes of them: besides what the parse reports, only the checks on
the tree may report something. -/
theorem exists_parse_of_reports {tokens : List Lexed} {children : List Tree}
    {context : LexContext} {fresh : List Diagnostic}
    (hlexes : Lexes source (tokens ++ [⟨context, .eof, []⟩]) [])
    (htexts : (Tree.leavesList children).map (·.text) = tokens.map (·.text))
    (hrun : Yields (module descent) (parser source options file) fun _ q =>
      Reports (parser source options file) tokens [.node none .moduleDefinition children] context
        fresh q) :
    ∃ document, parse (.ofText source) options file = .ok document ∧
      document.tree.bare = (wholeTree children).bare ∧
      (Seam.ofSource source file).Shows (tokens.map (·.context) ++ [context])
        document.root.tokens ∧
      document.diagnostics = Diagnostic.merge [[], [], fresh, document.root.check options file] := by
  obtain ⟨q, sprout, h⟩ := exists_finished source options file
  obtain ⟨-, way, hcontext, ⟨sprouts, hgrows, houtlines⟩, hdiagnostics⟩ := h.exists_of_yields hrun
  subst hcontext
  obtain ⟨sprout', rfl, houtline⟩ := exists_of_outlines_singleton houtlines
  -- As many tokens were taken as were spelled, so the two lists can be compared one by one.
  have hlength : (sprout.tokens.map (·.1) ++ [SyntaxKind.token .eof]).length
      = (tokens ++ [(⟨q.context, .eof, []⟩ : Lexed)]).length := by
    have htakes := congrArg List.length (h.tokens way)
    rw [Seam.length_takes, List.length_map, List.length_map] at htakes
    simp [htakes]
  have inside : (Seam.ofSource source file).lexer.IsInside := Nat.zero_le _
  obtain ⟨hleaves, hlexical⟩ := Seam.leaves_of_lexes inside hlexes rfl hlength
  rw [List.map_append] at hleaves hlexical
  -- A tree without trivia is known from its outline and the texts of its leaves. The parse gives
  -- the one and the lexer the other.
  have hbare : (treeOf q sprout).bare = (wholeTree children).bare := by
    refine Tree.bare_eq_of_outline ?_ ?_
    · rw [h.outline_treeOf hgrows houtline (by decide), wholeTree, Tree.outline, Tree.outlines,
        Tree.outline, Tree.outlines, Tree.outlines_append]
      rfl
    · rw [h.leaves way, wholeTree, Tree.leaves, Tree.leavesList, Tree.leaves, Tree.leavesList,
        Tree.leavesList_append, List.append_nil, List.map_append, htexts]
      exact hleaves.trans List.map_append
  have hroot : (ofTree q [] (treeOf q sprout)).root = .ofTree (treeOf q sprout) source :=
    congrArg (Located.ofTree _) h.text
  refine ⟨_, @Finished.parse_eq file options q sprout (.ofText source) h, hbare, ?_, ?_⟩
  · have hshows := h.shows way
    rwa [← hroot] at hshows
  · -- The lexer reports nothing, since nothing was wrong with any token.
    have hlexer : q.source.finish.2.1.toList = [] := by
      have hdrop := (way.at_ (at_ofSource source options file)).1.stands.buffer.drop
      show q.source.buffer.drop.lexer.diagnostics.toList = []
      rw [hdrop]
      rw [List.map_singleton, Seam.along_concat] at hlexical
      exact congrArg Array.toList hlexical
    show Diagnostic.merge [[], q.source.finish.2.1.toList, q.diagnostics.toList,
      (ofTree q [] (treeOf q sprout)).root.check q.options q.file] = _
    rw [hlexer, hdiagnostics, h.moves.options, h.moves.file]
    rfl

/-- The same of a source that is read without a report. -/
theorem exists_parse_of_shapes {tokens : List Lexed} {children : List Tree}
    (hlexes : Lexes source tokens [])
    (htexts : (Tree.leavesList children).map (·.text) = tokens.map (·.text))
    (hrun : Yields (module descent) (parser source options file) fun node q => ∃ context,
      Shapes (parser source options file) tokens (.node none .moduleDefinition children) node
        context q) :
    ∃ document, parse (.ofText source) options file = .ok document ∧
      document.tree.bare = (wholeTree children).bare ∧
      (∃ last, (Seam.ofSource source file).Shows (tokens.map (·.context) ++ [last])
        document.root.tokens) ∧
      (document.root.check options file = [] → document.diagnostics = []) := by
  obtain ⟨node, q, hok, context, hshapes⟩ := hrun.exists_ok
  obtain ⟨document, hparse, hbare, hshows, hdiagnostics⟩ :=
    exists_parse_of_reports (hlexes.append (.cons .eof (.nil []))) htexts
      (.of_ok hok hshapes.records.reports)
  refine ⟨document, hparse, hbare, ⟨context, hshows⟩, fun hchecks => ?_⟩
  rw [hdiagnostics, hchecks]
  rfl

/-- The checks have nothing to report on a module where the tags agree and
one of the items defines `root` at most. -/
theorem check_eq_nil_of_items {document : Document} {items : List Tree}
    (hbare : document.tree.bare = (wholeTree items).bare) (hclosed : ∀ item ∈ items, item.Closed)
    (single : options.reportDuplicateRoot = true → items.countP Tree.definesRoot ≤ 1) :
    document.root.check options file = [] := by
  have hroot : document.root.bare = (wholeTree items).bare := by
    show (document.tree.withField none).bare = _
    rw [Tree.bare_withField, hbare]
    rfl
  have hwhole : (wholeTree items).Closed := by
    refine Tree.closed_node (fun h => nomatch h) (List.forall_mem_singleton.mpr ?_)
    refine Tree.closed_node (fun h => nomatch h) (List.forall_mem_append.mpr ⟨hclosed, ?_⟩)
    exact List.forall_mem_singleton.mpr (Tree.closed_leaf _ _)
  refine Located.check_eq_nil (hroot ▸ hwhole.bare) fun hreport module hmodule => ?_
  have hmem := Located.bare_mem_children (List.mem_filter.mp (List.mem_of_find?_eq_some hmodule)).1
  rw [hroot] at hmem
  rw [List.mem_singleton.mp hmem, Tree.children_bare, List.countP_map, Tree.children,
    List.countP_append]
  simp only [Function.comp_def, Tree.definesRoot_bare]
  exact single hreport

/-- A parse stands in front of the tokens of its source. -/
theorem faces_ofText {tokens : List Lexed} {behind : Text} (h : Lexes source tokens behind) :
    (parser source options file).Faces tokens behind :=
  ⟨_, at_ofSource source options file, h⟩

/-- A well-formed expression is read as it is written. The source is `let v = {
… }` with the tokens of the expression and single spaces between them. It parses
to the tree of the expression, without any diagnostic. The expression is any
that `WellFormed` accepts, which asks for parentheses where an operand binds
less tightly than its operator: then precedence alone gives the tree back.

A level of nesting for each character is more than enough. -/
theorem parse_definitionText (expression : Term) (wellFormed : expression.WellFormed)
    (options : Options) (file : Text)
    (deepEnough : (expression.definitionText.length : Int) ≤ options.maxNestingDepth) :
    ∃ document, parse (.ofText expression.definitionText) options file = .ok document ∧
      document.diagnostics = [] ∧ document.tree.bare = wholeTree [expression.definitionTree] := by
  have hwords := expression.isWord_of_mem_moduleTree
  have hlexes : Lexes expression.definitionText (expression.moduleTree.leaves.map Leaf.lexed)
      [] := by
    rw [expression.definitionText_eq]
    exact lexes_spaced hwords
  -- What the text looks like does not matter from here on.
  generalize expression.definitionText = source at hlexes deepEnough
  have hdepth : (parser source options file).depth + expression.words.length
      < (parser source options file).options.maxNestingDepth := by
    have hfew := Lexes.length_le hlexes fun token hmem => by
      obtain ⟨word, hword, rfl⟩ := List.mem_map.mp hmem
      exact (hwords word hword).kind_ne_eof
    rw [List.length_map, expression.leaves_moduleTree, Term.valueWords] at hfew
    simp only [List.length_cons, List.length_append] at hfew
    show (0 : Int) + _ < options.maxNestingDepth
    omega
  have hrun := (yields_module_words wellFormed (faces_ofText hlexes) rfl hdepth).mono fun node q hq =>
    (⟨.normal, hq.toShapes⟩ : ∃ context, Shapes (parser source options file) _ expression.moduleTree node
      context q)
  obtain ⟨document, hparse, hbare, -, hchecked⟩ :=
    exists_parse_of_shapes hlexes (by rw [List.map_map]; rfl) hrun
  have hwhole : (wholeTree [expression.definitionTree]).bare
      = wholeTree [expression.definitionTree] := by
    simp [wholeTree, endLeaf, Tree.bare, Tree.bareList, Leaf.bare]
  refine ⟨document, hparse, hchecked ?_, hbare.trans hwhole⟩
  refine check_eq_nil_of_items hbare (List.forall_mem_singleton.mpr ?_) fun _ => List.countP_le_length
  exact Tree.closed_of_notMem_kinds expression.element_notMem_definitionTree

/-- A difference is taken from the left, and a negation binds tighter. -/
theorem parse_definitionText_differences :
    let minus : Operator := ⟨.minus, 110, rfl, .minus⟩
    let v : Term := .identifier Term.definedName
    let expression : Term := .binary minus (.binary minus v v) (.negation v)
    expression.WellFormed ∧ expression.definitionText = Text.ofString "let v = \x7b v - v - - v \x7d" ∧
      ∃ document, parse (.ofText "let v = \x7b v - v - - v \x7d") {} "f" = .ok document ∧
        document.diagnostics = [] ∧ document.tree.bare = wholeTree [expression.definitionTree] := by
  intro minus v expression
  have hwell : expression.WellFormed := by
    simp [expression, minus, v, Term.WellFormed, Term.strength, unaryPrecedence]
  have htext : expression.definitionText = Text.ofString "let v = \x7b v - v - - v \x7d" := by
    decide
  refine ⟨hwell, htext, ?_⟩
  have hparse := parse_definitionText expression hwell {} "f" (by rw [htext]; decide)
  rw [htext] at hparse
  exact hparse

end Document

end MarkupSyntax
