import MarkupSyntax.Proofs.Document.Construct
import MarkupSyntax.Proofs.Grammar.ArmBody

/-!
# `MarkupSyntax.Proofs.Document.ArmBody`: values by themselves and in arms

A closed value has the same tree in the braces of a definition and as the
body of an arm, whose `else` is read as that of the match
(`Document.parse_arm_body`). A simple `if` without `else` is no closed
value, and the `else` behind it is taken for its own
(`Document.exists_body_takes_else`).
-/

set_option autoImplicit false

namespace MarkupSyntax

open Grammar Parse

namespace Tree.Tidy

/-- The tree of a closed value has no trivia, and its elements close
themselves. -/
theorem closedValue (value : ClosedValue) : value.tree.Tidy := by
  cases value with
  | expression proper => exact Tidy.expression proper.term
  | element element => exact Tidy.empty element
  | construct control => exact Tidy.construct control none

/-- The match around a body is tidy if the body is. -/
theorem around (around : MatchAround) {body : Tree} (h : body.Tidy) (field : Option String) :
    (around.tree body field).Tidy := by
  have harm : (around.head.around .value around.separator (body.withField (some "body"))).Tidy :=
    .node SyntaxKind.noConfusion
      (List.forall_mem_append.mpr ⟨head around.head, by simp [h.withField]⟩)
  have harms : ∀ tree ∈ bracedTrees (around.arms body), tree.Tidy :=
    List.forall_mem_cons.mpr ⟨word _ _, List.forall_mem_append.mpr
      ⟨List.forall_mem_cons.mpr ⟨harm, elseArm around.otherwise⟩, by simp⟩⟩
  refine .node SyntaxKind.noConfusion (List.forall_mem_cons.mpr ⟨word _ _, ?_⟩)
  exact List.forall_mem_cons.mpr ⟨proper _ _, List.forall_mem_cons.mpr ⟨word _ _, harms⟩⟩

end Tree.Tidy

/-- A match is longer than the body of its arm. -/
theorem MatchAround.length_spread_le (around : MatchAround) (body : Tree) (field : Option String) :
    body.spread.length ≤ (around.tree body field).spread.length := by
  simp only [tree, parts, arms, bracedTrees, Head.around, Tree.spread_node, Tree.spreadList_cons,
    Tree.spreadList_append, Tree.spreadList_nil, Tree.spread_withField, List.length_append,
    List.cons_append]
  omega

namespace Document

/-- A closed value can be the body of an arm. By itself in the braces of a
definition it parses without any diagnostic. So does the match around it, in
which the arm has the same tree in its field, and what is for everything else is
there as it is written.

Closed values are expressions, elements that close themselves and control
constructs, written with single spaces between their tokens, and a simple `if`
has its own `else`. Values with other elements in them are not covered here. A
level of nesting for each character is more than enough. -/
theorem parse_arm_body (value : ClosedValue) (around : MatchAround) (options : Options) (file : Text)
    (colons : options.allowColonArms = true) (arrows : options.allowArrowArms = true)
    (deepEnough : ((around.tree value.tree (some "value")).definitionText.length : Int) ≤
      options.maxNestingDepth) :
    (∃ document,
      parse (.ofText (value.tree.withField (some "value")).definitionText) options file
          = .ok document ∧
        document.diagnostics = [] ∧
        document.tree.bare = wholeTree [(value.tree.withField (some "value")).definition]) ∧
      ∃ document,
        parse (.ofText (around.tree value.tree (some "value")).definitionText) options file
            = .ok document ∧
          document.diagnostics = [] ∧
          document.tree.bare = wholeTree [(around.tree value.tree (some "value")).definition] := by
  have htidy := Tree.Tidy.closedValue value
  constructor
  · have hshorter : (value.tree.withField (some "value")).definitionText.length ≤
        (around.tree value.tree (some "value")).definitionText.length :=
      Tree.length_definitionText_le (by
        rw [Tree.spread_withField]
        exact around.length_spread_le value.tree _)
    exact exists_parse_of_item colons arrows (by omega) (htidy.withField _).definition
      fun _ h hmemo => yields_moduleItem_definitionText h (readsInBraces_closed value hmemo)
  · exact exists_parse_of_item colons arrows deepEnough (Tree.Tidy.around around htidy _).definition
      fun _ h hmemo => yields_moduleItem_definitionText h (readsInBraces_around hmemo)

/-- An `if` with its own `else`, in front of the `else` of a match. -/
theorem parse_arm_body_if :
    let a : ProperTerm := ⟨.identifier ⟨"a", ⟨⟨rfl, rfl, rfl⟩, rfl⟩⟩, trivial⟩
    let b : ProperTerm := ⟨.identifier ⟨"b", ⟨⟨rfl, rfl, rfl⟩, rfl⟩⟩, trivial⟩
    let c : ProperTerm := ⟨.identifier ⟨"c", ⟨⟨rfl, rfl, rfl⟩, rfl⟩⟩, trivial⟩
    let zero : Constant := ⟨.int, .intLiteral, rfl, ⟨"0", ⟨⟨rfl, rfl, rfl⟩, rfl⟩⟩⟩
    let value : ClosedValue := .construct (.ifSimple a (.value b) (some (.value c))) id
    let around : MatchAround :=
      ⟨⟨.identifier ⟨"s", ⟨⟨rfl, rfl, rfl⟩, rfl⟩⟩, trivial⟩,
        .patterns (.name ⟨"A", ⟨⟨rfl, rfl, rfl⟩, rfl⟩⟩ []) [], .colon,
        some ⟨.colon, .value ⟨.literal zero, trivial⟩⟩⟩
    (value.tree.withField (some "value")).definitionText
        = Text.ofString "let v = \x7b if a \x7b b \x7d else \x7b c \x7d \x7d" ∧
      (around.tree value.tree (some "value")).definitionText = Text.ofString
        "let v = \x7b if s is \x7b A : if a \x7b b \x7d else \x7b c \x7d else : 0 \x7d \x7d" ∧
      (∃ document,
        parse (.ofText "let v = \x7b if a \x7b b \x7d else \x7b c \x7d \x7d") {} "f"
            = .ok document ∧
          document.diagnostics = [] ∧
          document.tree.bare = wholeTree [(value.tree.withField (some "value")).definition]) ∧
      ∃ document,
        parse (.ofText
            "let v = \x7b if s is \x7b A : if a \x7b b \x7d else \x7b c \x7d else : 0 \x7d \x7d")
            {} "f" = .ok document ∧
          document.diagnostics = [] ∧
          document.tree.bare = wholeTree [(around.tree value.tree (some "value")).definition] := by
  intro a b c zero value around
  have halone : (value.tree.withField (some "value")).definitionText
      = Text.ofString "let v = \x7b if a \x7b b \x7d else \x7b c \x7d \x7d" := by decide
  have hinside : (around.tree value.tree (some "value")).definitionText = Text.ofString
      "let v = \x7b if s is \x7b A : if a \x7b b \x7d else \x7b c \x7d else : 0 \x7d \x7d" := by decide
  refine ⟨halone, hinside, ?_⟩
  have hparse := parse_arm_body value around {} "f" rfl rfl (by rw [hinside]; decide)
  rw [halone, hinside] at hparse
  exact hparse

/-- A body of an arm ends where its expression does, and that is not
always where the arm should end: a simple `if` takes the `else` behind it
without a look at what follows. So an `if` that is a value by itself,
without an `else`, is not read back as the last arm of a match. -/
theorem exists_body_takes_else :
    ∃ alone arms,
      parse (.ofText "let v = \x7bif a \x7b b \x7d\n\x7d") {} "f" = .ok alone ∧
      parse (.ofText "let v = \x7b if s is \x7b A: if a \x7b b \x7d\nelse: 0 \x7d \x7d") {} "f"
        = .ok arms ∧
      alone.diagnostics = [] ∧
      alone.root.childNodes.flatMap (fun module => module.childNodes.map (·.kind))
        = [.valueDefinition] ∧
      (∃ value ∈ alone.root.nodes, value.field? = some "value" ∧
        value.kind = .control .value .ifSimple ∧
        value.tokens.map (·.text) = ["if", "a", "\x7b", "b", "\x7d"]) ∧
      arms.diagnostics.map (·.code) = [.expectedToken] ∧
      ∃ body ∈ arms.root.nodes, body.field? = some "body" ∧
        body.kind = .control .value .ifSimple ∧
        body.tokens.map (·.text) = ["if", "a", "\x7b", "b", "\x7d", "else"] := by
  -- The two parses are run, and what is to be said of them is read off.
  have halone : (parse (.ofText "let v = \x7bif a \x7b b \x7d\n\x7d") {} "f").toOption.any
      (fun document => document.diagnostics.isEmpty &&
        (document.root.childNodes.flatMap (fun module => module.childNodes.map (·.kind))
          = [.valueDefinition]) &&
        document.root.nodes.any fun value => value.field? = some "value" ∧
          value.kind = .control .value .ifSimple ∧
          value.tokens.map (·.text) = ["if", "a", "\x7b", "b", "\x7d"]) = true := by
    decide +kernel
  have harms : (parse
      (.ofText "let v = \x7b if s is \x7b A: if a \x7b b \x7d\nelse: 0 \x7d \x7d") {} "f").toOption.any
      (fun document => (document.diagnostics.map (·.code) = [.expectedToken]) &&
        document.root.nodes.any fun body => body.field? = some "body" ∧
          body.kind = .control .value .ifSimple ∧
          body.tokens.map (·.text) = ["if", "a", "\x7b", "b", "\x7d", "else"]) = true := by
    decide +kernel
  obtain ⟨alone, hparse, hchecked⟩ := exists_ok_of_any halone
  obtain ⟨arms, hparse', hchecked'⟩ := exists_ok_of_any harms
  simp only [Bool.and_eq_true, List.any_eq_true, decide_eq_true_eq, List.isEmpty_iff]
    at hchecked hchecked'
  exact ⟨alone, arms, hparse, hparse', hchecked.1.1, hchecked.1.2, hchecked.2, hchecked'.1,
    hchecked'.2⟩

end Document

end MarkupSyntax
