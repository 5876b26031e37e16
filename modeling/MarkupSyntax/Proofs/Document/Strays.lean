import MarkupSyntax.Proofs.Document.Roundtrip
import MarkupSyntax.Proofs.Grammar.Strays

/-!
# `MarkupSyntax.Proofs.Document.Strays`: strays are kept apart from definitions

A source has definitions on lines of their own, then a line of strays, and
further definitions (`straySource`). Its document has one diagnostic, at
the first stray, and one error node with the strays, and all definitions
before and after are as they would be without (`parse_straySource`).
-/

set_option autoImplicit false

namespace MarkupSyntax

open Grammar Parse

/-- Texts on lines of their own. -/
def Text.unlines (lines : List Text) : Text := lines.flatMap (· ++ [CodePoint.ofChar '\n'])

/-- A source of three parts: definitions, each on a line of its own, one line of
strays with single spaces between them, and further definitions. Each part may
be empty here; the theorem asks for at least one stray. -/
def straySource (before : List SimpleDefinition) (strays : List Stray)
    (after : List SimpleDefinition) : Text :=
  Text.unlines (before.map (·.text) ++ Text.spaced (strays.map (·.word.text)) :: after.map (·.text))

variable {rest behind : Text} {leaves : List Leaf}

/-! ### Reading the source -/

/-- Nothing but a line break may stand before the rest. A definition is read up
to its last token, and the line break behind it is trivia of the next one. -/
def Breaks (behind rest : Text) : Prop := behind = rest ∨ behind = CodePoint.ofChar '\n' :: rest

/-- A line break in front makes no difference to the tokens, as long as there is
one: it becomes trivia of the first of them. -/
theorem Breaks.lexes {last : Text} (h : Breaks behind rest) (hne : leaves ≠ [])
    (hrest : Lexes rest (leaves.map Leaf.lexed) last) : Lexes behind (leaves.map Leaf.lexed) last := by
  rcases h with rfl | rfl
  · exact hrest
  · exact hrest.newline hne

/-- Definitions are read line by line. What is left is the text behind the last
of them, but for the line break that ends its line. -/
theorem exists_lexes_definitions (definitions : List SimpleDefinition) (rest : Text) :
    ∃ behind, Breaks behind rest ∧ Lexes (Text.unlines (definitions.map (·.text)) ++ rest)
      ((SimpleDefinition.wordsList definitions).map Leaf.lexed) behind := by
  induction definitions with
  | nil => exact ⟨rest, .inl rfl, .nil rest⟩
  | cons definition definitions ih =>
    have hsource : Text.unlines ((definition :: definitions).map (·.text)) ++ rest
        = definition.text ++ CodePoint.ofChar '\n' ::
          (Text.unlines (definitions.map (·.text)) ++ rest) := by
      simp [Text.unlines]
    rw [hsource, SimpleDefinition.wordsList_cons, List.map_append]
    cases definitions with
    | nil => exact ⟨_, .inr rfl, definition.lexes (by rintro c ⟨⟩; rfl) (.nil _)⟩
    | cons next definitions =>
      obtain ⟨behind, hbreaks, hlexes⟩ := ih
      obtain ⟨word, words, hwords, -⟩ := next.exists_words_eq_cons
      have hne : SimpleDefinition.wordsList (next :: definitions) ≠ [] := by
        rw [SimpleDefinition.wordsList_cons, hwords]
        exact List.cons_ne_nil _ _
      exact ⟨behind, hbreaks, definition.lexes (by rintro c ⟨⟩; rfl) (hlexes.newline hne)⟩

variable {before after : List SimpleDefinition} {stray : Stray} {strays : List Stray}

/-- The text behind the first stray. -/
def strayTail (strays : List Stray) (after : List SimpleDefinition) : Text :=
  (Stray.words strays).flatMap (fun leaf => CodePoint.ofChar ' ' :: leaf.text) ++
    CodePoint.ofChar '\n' :: Text.unlines (after.map (·.text))

/-- The source is split in front of the first stray, where the diagnostic is. -/
theorem straySource_eq : straySource before (stray :: strays) after
    = Text.unlines (before.map (·.text)) ++ (stray.word.text ++ strayTail strays after) := by
  simp [straySource, strayTail, Text.unlines, Text.spaced_cons, Stray.words, List.flatMap_map]

/-- Behind the first stray there is white space. -/
theorem isWhitespace_head?_strayTail (strays : List Stray) (after : List SimpleDefinition) :
    ∀ c ∈ (strayTail strays after).head?, c.isWhitespace = true :=
  isWhitespace_head?_flatMap (by rintro c ⟨⟩; rfl)

/-- From the first stray on the words are read up to the end: the strays, and
then the definitions behind them. -/
theorem lexes_strays : Lexes (stray.word.text ++ strayTail strays after)
    ((Stray.words (stray :: strays) ++ (SimpleDefinition.wordsList after ++ [Leaf.endOfSource])).map
      Leaf.lexed) [] := by
  obtain ⟨behind, hbreaks, hafter⟩ := exists_lexes_definitions after []
  have hend : Lexes behind ([Leaf.endOfSource].map Leaf.lexed) [] :=
    hbreaks.lexes (List.cons_ne_nil _ _) (.cons .eof (.nil []))
  rw [List.append_nil] at hafter
  have hlater := hafter.append hend
  rw [← List.map_append] at hlater
  have hline : Lexes (CodePoint.ofChar '\n' :: Text.unlines (after.map (·.text))) _ _ :=
    hlater.newline (List.append_ne_nil_of_right_ne_nil _ (List.cons_ne_nil _ _))
  have hstrays := lexes_flatMap (@Stray.isWord_of_mem_words strays)
    (by rintro c ⟨⟩; rfl) hline
  have hfirst := stray.word.spells.splits_behind (isWhitespace_head?_strayTail strays after)
  rw [← List.map_append] at hstrays
  exact .word hfirst stray.word.spells.solid hstrays

/-- The first stray is scanned behind a line break, too. -/
theorem Breaks.exists_scans (h : Breaks behind (stray.word.text ++ strayTail strays after)) :
    ∃ gap, Scans .normal behind gap stray.kind stray.word.text (strayTail strays after) := by
  have hfirst := stray.word.spells.splits_behind (isWhitespace_head?_strayTail strays after)
  have hscan := Scans.token hfirst stray.word.spells.solid
  rcases h with rfl | rfl
  · exact ⟨[], hscan⟩
  · have hbreak : Lexeme.Splits .normal .newline [CodePoint.ofChar '\n']
        (stray.word.text ++ strayTail strays after) := ⟨rfl, rfl, rfl⟩
    exact ⟨_, .trivia hbreak rfl hscan⟩

/-! ### Checking the tree -/

/-- Segments of a name have no trivia. -/
theorem bareList_segmentTrees (names : List (Word .identifier)) :
    Tree.bareList (segmentTrees names) = segmentTrees names := by
  induction names with
  | nil => rfl
  | cons name names ih =>
    show _ :: _ :: Tree.bareList (segmentTrees names) = _
    rw [ih]
    rfl

namespace SimpleDefinition

/-- The definition is one of `root`. Of the definitions written here only those
of a value count. -/
def definesRoot : SimpleDefinition → Bool
  | value name _ => name.text = Checks.rootName
  | _ => false

/-- What the check finds on the tree of a definition is what was written. -/
theorem definesRoot_tree (definition : SimpleDefinition) :
    definition.tree.definesRoot = definition.definesRoot := by
  cases definition with
  | importing name => rfl
  | type name base suffix => rfl
  | value name literal =>
    show decide ((name.leaf (some "name")).name = Checks.rootName) = _
    have hname : (name.leaf (some "name")).name = name.text := List.append_nil _
    rw [hname, definesRoot]

/-- The tree of a definition has no trivia in it. -/
@[simp] theorem bare_tree (definition : SimpleDefinition) :
    definition.tree.bare = definition.tree := by
  have hname : ∀ (name : DottedName) (field : Option String),
      (name.tree field).bare = name.tree field := by
    intro name field
    simp [DottedName.tree, Tree.bare, Tree.bareList, bareList_segmentTrees]
  cases definition with
  | importing name => simp [tree, Tree.bare, Tree.bareList, hname]
  | type name base suffix =>
    have hbase : base.typeTree.bare = base.typeTree := by
      unfold DottedName.typeTree
      split <;> simp [Tree.bare, Tree.bareList, hname]
    have hsuffix : Tree.bareList suffix.trees = suffix.trees := by cases suffix <;> rfl
    simp [tree, Tree.bare, Tree.bareList, hbase, hsuffix]
  | value name literal => simp [tree, Tree.bare, Tree.bareList, Term.bare_tree]

/-- There is no element in a definition, so there is no tag that could be left
open. -/
theorem element_notMem_kinds (definition : SimpleDefinition) :
    SyntaxKind.element ∉ definition.tree.kinds := by
  have hname : ∀ (name : DottedName) (field : Option String),
      SyntaxKind.element ∉ (name.tree field).kinds := by
    intro name field
    have hothers : ∀ tree ∈ segmentTrees name.others, SyntaxKind.element ∉ tree.kinds := by
      intro tree hmem
      obtain ⟨segment, -, hmem⟩ := List.mem_flatMap.mp hmem
      rcases List.mem_pair.mp hmem with rfl | rfl <;> simp
    simpa [DottedName.tree] using hothers
  cases definition with
  | importing name => simp [tree, hname]
  | type name base suffix =>
    have hbase : SyntaxKind.element ∉ base.typeTree.kinds := by
      unfold DottedName.typeTree
      split <;> simp [hname]
    cases suffix <;> simp [tree, hbase, TypeSuffix.trees]
  | value name literal => simp [tree, Term.element_notMem_kinds]

end SimpleDefinition

section Trees

variable (before after : List SimpleDefinition) (strays : List Stray)

/-- The trees of the three parts have the words of the source as their leaves,
in order. -/
theorem leavesList_strayTrees :
    Tree.leavesList (strayTrees before strays after) = strayWords before strays after := by
  rw [strayTrees, Tree.leavesList_append, leavesList_definitions, Tree.leavesList,
    leavesList_definitions, Stray.leaves_errorTree, strayWords]

/-- None of the trees of the three parts has trivia in it. -/
theorem map_bare_strayTrees :
    (strayTrees before strays after).map Tree.bare = strayTrees before strays after := by
  have hdefinitions : ∀ definitions : List SimpleDefinition,
      (definitions.map (·.tree)).map Tree.bare = definitions.map (·.tree) := by
    intro definitions
    simp
  have hstrays : (Stray.errorTree strays).bare = Stray.errorTree strays := by
    simp [Stray.errorTree, Tree.bare, Tree.bareList_eq_map]
  rw [strayTrees, List.map_append, List.map_cons, hdefinitions, hdefinitions, hstrays]

/-- Definitions of `root` are counted before and behind the strays. The error
node in between defines nothing. -/
theorem countP_definesRoot_strayTrees :
    (strayTrees before strays after).countP Tree.definesRoot
      = (before ++ after).countP SimpleDefinition.definesRoot := by
  have hdefinitions : ∀ definitions : List SimpleDefinition,
      (definitions.map (·.tree)).countP Tree.definesRoot
        = definitions.countP SimpleDefinition.definesRoot := by
    intro definitions
    rw [List.countP_map]
    exact List.countP_congr fun definition _ => by
      rw [Function.comp_apply, definition.definesRoot_tree]
  have hstrays : (Stray.errorTree strays).definesRoot = false := rfl
  rw [strayTrees, List.countP_append, List.countP_cons_of_neg (Bool.eq_false_iff.mp hstrays),
    hdefinitions, hdefinitions, List.countP_append]

/-- No part of the source has an element in it, so no closing tag can be wrong. -/
theorem closed_of_mem_strayTrees : ∀ tree ∈ strayTrees before strays after, tree.Closed := by
  have hdefinitions : ∀ definitions : List SimpleDefinition,
      ∀ tree ∈ definitions.map (·.tree), tree.Closed := by
    intro definitions tree hmem
    obtain ⟨definition, -, rfl⟩ := List.mem_map.mp hmem
    exact Tree.closed_of_notMem_kinds definition.element_notMem_kinds
  refine List.forall_mem_append.mpr ⟨hdefinitions before,
    List.forall_mem_cons.mpr ⟨Tree.closed_node (fun h => nomatch h) ?_, hdefinitions after⟩⟩
  intro tree hmem
  obtain ⟨stray, -, rfl⟩ := List.mem_map.mp hmem
  exact Tree.closed_leaf _ _

end Trees

/-! ### Documents -/

namespace Document

variable {options : Options} {file : Text}

/-- Strays between definitions are kept apart from them. Before and behind the
line of strays there may be any number of definitions, and the line holds one
stray or more. The document has one diagnostic, at the first stray, and in its
tree the strays are one error node between the definitions, which are as they
would be without it.

The hypothesis leaves the check on `root` nothing to report: either it is off,
or at most one of the definitions is one of `root`. `parse_straySource_roots`
shows that it is needed. -/
theorem parse_straySource (before after : List SimpleDefinition) (stray : Stray)
    (strays : List Stray) (options : Options) (file : Text)
    (single : options.reportDuplicateRoot = true →
      (before ++ after).countP SimpleDefinition.definesRoot ≤ 1) :
    ∃ document,
      parse (.ofText (straySource before (stray :: strays) after)) options file = .ok document ∧
      document.diagnostics = [.unexpected stray.kind
        (.ofLength (Text.unlines (before.map (·.text))).length 1) file] ∧
      document.tree.bare = wholeTree (strayTrees before (stray :: strays) after) := by
  obtain ⟨behind, hbreaks, hbefore⟩ := exists_lexes_definitions before
    (stray.word.text ++ strayTail strays after)
  rw [straySource_eq]
  generalize hsource : Text.unlines (before.map (·.text)) ++
    (stray.word.text ++ strayTail strays after) = source at hbefore ⊢
  have hlexes : Lexes source ((strayWords before (stray :: strays) after ++
      [Leaf.endOfSource]).map Leaf.lexed) [] := by
    have hstrays : Lexes behind ((Stray.words (stray :: strays) ++
        (SimpleDefinition.wordsList after ++ [Leaf.endOfSource])).map Leaf.lexed) [] :=
      hbreaks.lexes (List.cons_ne_nil _ _) lexes_strays
    have hall := hbefore.append hstrays
    simpa only [strayWords, List.append_assoc, ← List.map_append] using hall
  have hplace : ∀ q, Consumes (parser source options file) (SimpleDefinition.wordsList before) q →
      q.range = .ofLength (Text.unlines (before.map (·.text))).length 1 := by
    intro q hq
    obtain ⟨gap, hscan⟩ := hbreaks.exists_scans
    have hfaces : q.Faces [] behind := (faces_ofText hbefore).all hq
    have htext : q.text = source :=
      (hq.text (faces_ofText hbefore).live).trans (at_ofSource source options file).text
    have hlength : stray.word.text.length = 1 := by cases stray <;> rfl
    rw [← hlength]
    exact Parser.range_of_scans hfaces hq.context hscan (htext.trans hsource.symm)
  have hrun := @yields_module_strays _ _ descent _ _ _ _ ⟨⟨_, faces_ofText hlexes⟩, rfl⟩ rfl rfl
    hplace
  rw [List.map_append] at hlexes
  obtain ⟨document, hparse, hbare, -, hdiagnostics⟩ := exists_parse_of_reports hlexes
    (by rw [leavesList_strayTrees, List.map_map]; rfl) hrun
  have hchecks : document.root.check options file = [] := by
    -- The tree of the parse is known up to trivia, and the checks need no more.
    refine check_eq_nil_of_items hbare (closed_of_mem_strayTrees _ _ _) fun hreport => ?_
    rw [countP_definesRoot_strayTrees]
    exact single hreport
  have hwhole : (wholeTree (strayTrees before (stray :: strays) after)).bare
      = wholeTree (strayTrees before (stray :: strays) after) := by
    simp [wholeTree, endLeaf, Tree.bare, Tree.bareList, Tree.bareList_eq_map, map_bare_strayTrees,
      Leaf.bare]
  refine ⟨document, hparse, ?_, hbare.trans hwhole⟩
  rw [hdiagnostics, hchecks]
  rfl

/-- `let name = 1` -/
def oneNamed (name : Word .identifier) : SimpleDefinition :=
  .value name ⟨.int, .intLiteral, rfl, ⟨"1", ⟨⟨rfl, rfl, rfl⟩, rfl⟩⟩⟩

/-- Three strays between two definitions. -/
theorem parse_straySource_three :
    let before := [oneNamed ⟨"a", ⟨⟨rfl, rfl, rfl⟩, rfl⟩⟩]
    let after := [oneNamed ⟨"root", ⟨⟨rfl, rfl, rfl⟩, rfl⟩⟩]
    let strays : List Stray := [.rParen, .rParen, .rBracket]
    (before ++ after).countP SimpleDefinition.definesRoot ≤ 1 ∧
      straySource before strays after = Text.ofString "let a = 1\n) ) ]\nlet root = 1\n" ∧
      ∃ document, parse (.ofText "let a = 1\n) ) ]\nlet root = 1\n") {} "f" = .ok document ∧
        document.diagnostics = [.unexpected .rParen (.ofLength 10 1) "f"] ∧
        document.tree.bare = wholeTree (strayTrees before strays after) := by
  intro before after strays
  have hsingle : (before ++ after).countP SimpleDefinition.definesRoot ≤ 1 := by decide
  have htext : straySource before strays after
      = Text.ofString "let a = 1\n) ) ]\nlet root = 1\n" := by decide
  refine ⟨hsingle, htext, ?_⟩
  have hparse := parse_straySource before after .rParen [.rParen, .rBracket] {} "f" fun _ => hsingle
  rw [htext] at hparse
  exact hparse

/-- A second definition of `root` is reported, too. -/
theorem parse_straySource_roots :
    let root := oneNamed ⟨"root", ⟨⟨rfl, rfl, rfl⟩, rfl⟩⟩
    straySource [root] [.rParen] [root] = Text.ofString "let root = 1\n)\nlet root = 1\n" ∧
      ∃ document, parse (.ofText "let root = 1\n)\nlet root = 1\n") {} "f" = .ok document ∧
        document.diagnostics.map (·.code) = [.unexpectedToken, .duplicateRoot] := by
  refine ⟨by decide, ?_⟩
  have hparse : (parse (.ofText "let root = 1\n)\nlet root = 1\n") {} "f").toOption.any
      (fun document => document.diagnostics.map (·.code) = [.unexpectedToken, .duplicateRoot])
      = true := by
    decide +kernel
  -- Nothing else is to be computed of the parse.
  generalize parse (.ofText "let root = 1\n)\nlet root = 1\n") {} "f" = result at hparse ⊢
  cases result with
  | error => cases hparse
  | ok document => exact ⟨document, rfl, of_decide_eq_true hparse⟩

end Document

end MarkupSyntax
