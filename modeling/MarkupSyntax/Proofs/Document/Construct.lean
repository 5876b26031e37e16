import MarkupSyntax.Proofs.Document.Element
import MarkupSyntax.Proofs.Grammar.Placed

/-!
# `MarkupSyntax.Proofs.Document.Construct`: documents that are one control construct

A control construct is written with single spaces between its tokens, in
the braces of a definition, between the tags of an element or in a tag.
In each of these places the document has the tree of the construct, and
nothing is wrong with it (`Document.parse_construct`).

The trees of constructs have no trivia, and their elements close
themselves (`Tree.Tidy`). So the checks on the tree have nothing to
report.
-/

set_option autoImplicit false

namespace MarkupSyntax

open Grammar Parse

/-! ### Trees without trivia and with closed elements -/

/-- The tree has no trivia, and its elements are closed by their names. The
first makes it equal to the tree of a parse, which is known up to trivia, and
the second leaves the check on tags nothing to report. The lemmas below say it
of each construct, part by part. -/
structure Tree.Tidy (tree : Tree) : Prop where
  bare : tree.bare = tree
  closed : tree.Closed

namespace Tree.Tidy

variable {field : Option String} {kind : SyntaxKind} {trees : List Tree} {tree : Tree}

/-- Trees that are tidy stay as they are without trivia. -/
theorem bareList_eq (h : ∀ tree ∈ trees, tree.Tidy) : Tree.bareList trees = trees := by
  rw [Tree.bareList_eq_map]
  exact (List.map_congr_left fun tree hmem => (h tree hmem).bare).trans (List.map_id' trees)

/-- A node whose parts are tidy is tidy, if it is no element. -/
theorem node (hkind : kind ≠ .element) (h : ∀ tree ∈ trees, tree.Tidy) :
    (Tree.node field kind trees).Tidy where
  bare := by rw [Tree.bare, bareList_eq h]
  closed := Tree.closed_node (fun helement => absurd helement hkind) fun tree hmem =>
    (h tree hmem).closed

/-- An element all of whose names are one. -/
theorem element (text : Text) (h : ∀ tree ∈ trees, tree.Tidy)
    (hnames : ∀ tree ∈ trees, tree.field? = some "name" ∨ tree.field? = some "close_name" →
      tree.name = text) : (Tree.node field .element trees).Tidy where
  bare := by rw [Tree.bare, bareList_eq h]
  closed := Tree.closed_element text (fun tree hmem => (h tree hmem).closed) hnames

/-- The field that the tree is in does not matter. -/
theorem withField (h : tree.Tidy) (field : Option String) : (tree.withField field).Tidy where
  bare := by rw [Tree.bare_withField, h.bare]
  closed := by
    cases tree with
    | leaf => exact Tree.closed_leaf _ _
    | node field' kind trees =>
      refine Tree.closed_node (h.closed _ List.mem_cons_self) fun tree hmem part hpart =>
        h.closed part (List.mem_cons_of_mem _ ?_)
      rw [Tree.subtreesList_eq_flatMap]
      exact List.mem_flatMap.mpr ⟨tree, hmem, hpart⟩

/-- A token is tidy. -/
@[simp] theorem token (token : Lexed) (field : Option String) : (token.leaf field).Tidy :=
  ⟨rfl, Tree.closed_leaf _ _⟩

/-- A word is tidy. -/
@[simp] theorem word {token : TokenKind} (word : Word token) (field : Option String) : (word.leaf field).Tidy :=
  Tidy.token word.lexed field

/-- A name with dots is tidy. -/
@[simp] theorem name (name : MarkupName) (field : String) : (name.tree field).Tidy := by
  refine .node SyntaxKind.noConfusion fun tree hmem => ?_
  obtain ⟨lexed, -, rfl⟩ := List.mem_map.mp hmem
  exact token lexed none

/-- A name in a tag is tidy. -/
@[simp] theorem tagName (name : TagName) (field : String) : (name.tree field).Tidy :=
  Tidy.name name.dotted field

/-- An expression has no elements at all. -/
theorem expression (expression : Term) : expression.tree.Tidy where
  bare := expression.bare_tree
  closed := Tree.closed_of_notMem_kinds expression.element_notMem_kinds

/-- A value expression is tidy. -/
@[simp] theorem term (term : Term) (field : Option String) : (term.tree.withField field).Tidy :=
  (expression term).withField field

/-- So is one that needs no more parentheses. -/
@[simp] theorem proper (expression : ProperTerm) (field : String) : (expression.tree field).Tidy :=
  term expression.term (some field)

/-- A property is tidy. -/
@[simp] theorem assignment (assignment : Assignment) : assignment.tree.Tidy :=
  .node SyntaxKind.noConfusion (by simp)

/-- What each item adds is tidy, so all of it is. -/
theorem flatMap {α : Type} {f : α → List Tree} (h : ∀ a, ∀ tree ∈ f a, tree.Tidy)
    (items : List α) : ∀ tree ∈ items.flatMap f, tree.Tidy := by
  intro tree hmem
  obtain ⟨a, -, hmem⟩ := List.mem_flatMap.mp hmem
  exact h a tree hmem

/-- What each item becomes is tidy, so all of it is. -/
theorem map {α : Type} {f : α → Tree} (h : ∀ a, (f a).Tidy) (items : List α) :
    ∀ tree ∈ items.map f, tree.Tidy := by
  rw [List.map_eq_flatMap]
  exact flatMap (fun a => List.forall_mem_singleton.mpr (h a)) items

/-- An element that closes itself has one name only. -/
theorem closesItself (name : MarkupName) {properties : List Tree}
    (h : ∀ tree ∈ properties, tree.Tidy ∧ tree.field? = some "properties") (field : Option String) :
    (Tree.node field .element
      (Word.lessThan.leaf :: name.tree "name" :: (properties ++ emptyEnd))).Tidy := by
  refine .element name.text ?_ ?_
  · simp only [List.forall_mem_cons, List.forall_mem_append]
    exact ⟨word _ _, Tidy.name name _, fun tree hmem => (h tree hmem).1, by simp [emptyEnd]⟩
  · intro tree hmem hfield
    simp only [emptyEnd, List.mem_cons, List.mem_append, List.not_mem_nil, or_false] at hmem
    rcases hmem with rfl | rfl | hmem | rfl | rfl
    · exact absurd hfield (by decide)
    · exact name.name_tree "name"
    · rw [(h tree hmem).2] at hfield
      exact absurd hfield (by decide)
    · exact absurd hfield (by decide)
    · exact absurd hfield (by decide)

/-- An empty element is tidy: it is the one element that the trees of constructs
hold. -/
@[simp] theorem empty (empty : EmptyElement) : empty.tree.Tidy := by
  refine closesItself empty.name ?_ none
  cases empty.properties with
  | nil => exact nofun
  | cons => exact List.forall_mem_singleton.mpr ⟨.node SyntaxKind.noConfusion (map assignment _), rfl⟩

variable {domain : Domain}

/-- A body of each domain is tidy. -/
@[simp] theorem body (body : Body domain) (field : String) : (body.tree field).Tidy := by
  cases body with
  | value expression => exact proper expression field
  | elements => exact .node SyntaxKind.noConfusion (map empty _)
  | properties => exact .node SyntaxKind.noConfusion (map assignment _)

/-- A pattern is tidy. -/
@[simp] theorem pattern (pattern : Pattern) : pattern.tree.Tidy := by
  cases pattern with
  | literal value => exact .node SyntaxKind.noConfusion (List.forall_mem_singleton.mpr (term (.literal value) none))
  | name first others =>
    refine .node SyntaxKind.noConfusion (List.forall_mem_singleton.mpr (.node SyntaxKind.noConfusion ?_))
    exact List.forall_mem_cons.mpr ⟨word _ _, flatMap (fun name => by simp [Word.segment]) _⟩

/-- The head of an arm is tidy. -/
theorem head {form : ControlForm} (head : Head form) : ∀ tree ∈ head.trees, tree.Tidy := by
  cases head with
  | patterns first others =>
    refine List.forall_mem_cons.mpr ⟨pattern first, flatMap (fun further => ?_) _⟩
    simp [Pattern.further]
  | condition expression => simp [Head.trees]

/-- A separator is tidy. -/
@[simp] theorem separator (separator : Separator) : separator.leaf.Tidy := by
  cases separator <;> exact word _ _

/-- An arm is tidy. -/
@[simp] theorem arm {form : ControlForm} (arm : Arm form domain) : arm.tree.Tidy :=
  .node SyntaxKind.noConfusion (List.forall_mem_append.mpr ⟨head arm.head, by simp⟩)

/-- The arm for all other cases is tidy. -/
theorem elseArm (otherwise : Option (ElseArm domain)) :
    ∀ tree ∈ elseArmTrees otherwise, tree.Tidy := by
  cases otherwise <;> simp [elseArmTrees, ElseArm.trees]

/-- Arms in braces are tidy. -/
theorem arms {form : ControlForm} (arms : Arms form domain) : ∀ tree ∈ arms.braced, tree.Tidy := by
  refine List.forall_mem_cons.mpr ⟨word _ _, List.forall_mem_append.mpr ⟨?_, by simp⟩⟩
  exact List.forall_mem_append.mpr ⟨map arm _, elseArm arms.otherwise⟩

/-- A scrutinee is tidy, if there is one. -/
theorem scrutinee (scrutinee : Option ProperTerm) :
    ∀ tree ∈ Construct.scrutineeTrees scrutinee, tree.Tidy :=
  map (fun scrutinee => proper scrutinee "scrutinee") scrutinee.toList

/-- All parts of a construct are tidy, form by form. -/
theorem parts (construct : Construct domain) : ∀ tree ∈ construct.parts, tree.Tidy := by
  cases construct with
  | ifSimple condition body otherwise =>
    cases otherwise <;> simp [Construct.parts, Construct.elseTrees, Body.braced]
  | ifMatch subject cases =>
    exact List.forall_mem_append.mpr
      ⟨scrutinee subject, List.forall_mem_cons.mpr ⟨word _ _, arms cases⟩⟩
  | ifConditionList subject cases =>
    exact List.forall_mem_append.mpr ⟨scrutinee subject, arms cases⟩
  | forLoop item index iterable body =>
    cases index <;> simp [Construct.parts, Construct.indexTrees, Body.braced]

/-- A construct of each domain is tidy. -/
@[simp] theorem construct (construct : Construct domain) (field : Option String) :
    (construct.tree field).Tidy := by
  refine .node SyntaxKind.noConfusion (List.forall_mem_cons.mpr ⟨?_, parts construct⟩)
  cases construct <;> exact word _ _

end Tree.Tidy

/-! ### Definitions with a value in braces -/

namespace Tree

/-- `let v = {value}` -/
def definition (value : Tree) : Tree :=
  .node none .valueDefinition
    [Word.letKeyword.leaf, Term.definedName.leaf (some "name"), Word.equal.leaf, value.inBraces]

/-- The tokens of the definition with single spaces between them. -/
def definitionText (value : Tree) : Text := Text.spaced (value.definition.leaves.map (·.text))

variable (value : Tree)

/-- Each word of the definition has a space in front of it. -/
theorem definitionText_eq : value.definitionText =
    Word.letKeyword.text ++ ((Term.definedName.leaf (some "name")).spread ++
      (Word.equal.leaf.spread ++ (value.inBraces.spread ++ []))) := by
  rw [definitionText, definition, leaves, leavesList]
  refine (Leaf.spaced_map_cons Word.letKeyword.token _).trans ?_
  simp [leavesList, spread]

/-- The words of the definition are read as they stand. -/
theorem lexes_definitionText {tokens : List Lexed}
    (h : Lexed.Spell tokens (leavesList [value.definition])) :
    Lexes value.definitionText tokens [] := by
  have hleaves : leavesList [value.definition] = Word.letKeyword.token ::
      (Term.definedName.token :: Word.equal.token :: Word.lBrace.token ::
        value.leaves ++ [Word.rBrace.token]) := by
    simp [definition, inBraces, leaves, leavesList, Word.leaf]
  have hsource : value.definitionText = Word.letKeyword.token.text ++
      (Leaf.spread (Term.definedName.token :: Word.equal.token :: Word.lBrace.token ::
        value.leaves ++ [Word.rBrace.token]) ++ []) := by
    rw [value.definitionText_eq, List.append_nil, List.append_nil]
    simp [inBraces, spread, leaves, leavesList, Word.leaf]
  rw [hleaves] at h
  rw [hsource]
  exact h.lexes_spaced rfl []

/-- A longer value makes a longer definition. -/
theorem length_definitionText_le {value value' : Tree}
    (h : value.spread.length ≤ value'.spread.length) :
    value.definitionText.length ≤ value'.definitionText.length := by
  simp only [definitionText_eq, inBraces, spread_node, spreadList_cons, List.length_append]
  omega

/-- The definition of a tidy value is tidy. -/
theorem Tidy.definition {value : Tree} (h : value.Tidy) : value.definition.Tidy := by
  have hvalue : value.inBraces.Tidy := .node SyntaxKind.noConfusion (by simp [h])
  exact .node SyntaxKind.noConfusion (by simp [hvalue])

end Tree

/-! ### Constructs in their places -/

/-- The name of the elements around constructs. -/
def TagName.outer : TagName := ⟨"a", .identifier, ⟨rfl, rfl, rfl⟩, Lexeme.identifier_isName⟩

/-- What stands in front of a construct. -/
def Domain.front : Domain → String
  | .value => "let v = \x7b "
  | .elements => "<a>"
  | .properties => "<a "

/-- What stands behind a construct. -/
def Domain.back : Domain → String
  | .value => " \x7d"
  | .elements => "</a>"
  | .properties => " />"

namespace Construct

variable {domain : Domain} (construct : Construct domain)

/-- A source with nothing but the construct, in a place for its domain. -/
def sourceText : Text := Text.ofString domain.front ++ construct.text ++ Text.ofString domain.back

/-- The item of the module that the source is. -/
def itemTree : {domain : Domain} → Construct domain → Tree
  | .value, construct =>
    .node none .valueDefinition
      [Word.letKeyword.leaf, Term.definedName.leaf (some "name"), Word.equal.leaf,
        construct.interpolationTree]
  | .elements, construct =>
    .node (some "element") .element
      (TagName.outer.openingTrees ++ construct.contentTree :: TagName.outer.closingTrees)
  | .properties, construct => .node (some "element") .element (tagTrees .outer construct)

/-- A construct of values is what a definition has in braces. -/
theorem sourceText_value (construct : Construct .value) :
    construct.sourceText = (construct.tree (some "value")).definitionText := by
  have hfront : Text.ofString Domain.value.front = Word.letKeyword.text ++
      ((Term.definedName.leaf (some "name")).spread ++ (Word.equal.leaf.spread ++
        (Word.lBrace.leaf.spread ++ [CodePoint.ofChar ' ']))) := by decide
  have hback : Text.ofString Domain.value.back = Word.rBrace.leaf.spread := by decide
  rw [sourceText, hfront, hback, Tree.definitionText_eq, Tree.inBraces]
  simp [spread_tree_eq]

/-- A construct of elements is all that is between the tags. -/
theorem sourceText_elements (construct : Construct .elements) : construct.sourceText =
    TagName.outer.opening ++ (construct.text ++ (TagName.outer.closing ++ [])) := by
  have hfront : Text.ofString Domain.elements.front = TagName.outer.opening := by decide
  have hback : Text.ofString Domain.elements.back = TagName.outer.closing := by decide
  rw [sourceText, hfront, hback, List.append_nil, List.append_assoc]

/-- A construct of properties is all that is in the tag, behind the name. -/
theorem sourceText_properties (construct : Construct .properties) :
    construct.sourceText = tagText .outer construct ++ [] := by
  have hfront : Text.ofString Domain.properties.front =
      CodePoint.ofChar '<' :: (TagName.outer.text ++ [CodePoint.ofChar ' ']) := by decide
  have hback : Text.ofString Domain.properties.back = selfClosing := by decide
  rw [sourceText, hfront, hback, tagText, spread_tree_eq]
  simp

/-- The name of an element is the same in both of its tags. -/
theorem tidy_itemTree : construct.itemTree.Tidy := by
  cases domain with
  | value => exact Tree.Tidy.definition (.construct construct _)
  | elements =>
    have hcontent : construct.contentTree.Tidy := .node SyntaxKind.noConfusion (by simp)
    have htags := TagName.Tags.opening .outer .normal
    have hclosing := TagName.Tags.closing .outer
    refine .element TagName.outer.text ?_ ?_
    · simp [TagName.openingTrees, TagName.closingTrees, hcontent]
    · refine List.forall_mem_append.mpr ⟨htags.names, List.forall_mem_cons.mpr ⟨?_, hclosing.names⟩⟩
      exact fun hfield => absurd hfield (by simp [contentTree, Tree.field?])
  | properties =>
    have hlist : (Tree.node (some "properties") .propertyList [construct.tree none]).Tidy :=
      .node SyntaxKind.noConfusion (by simp)
    exact .closesItself (TagName.outer.dotted) (List.forall_mem_singleton.mpr ⟨hlist, rfl⟩) _

end Construct

namespace Grammar

variable {p : Parser} {domain : Domain} {construct : Construct domain}

/-- Nothing is wrong with the end of the closing tag, as the lexer reads it
ahead of the parse. -/
theorem clean_closing : Text.Clean
    (CodePoint.ofChar '/' :: (TagName.outer.text ++ CodePoint.ofChar '>' :: [])) := by
  have hslash : Lexeme.Splits .normal .slash [CodePoint.ofChar '/'] (Text.ofString "a>") :=
    ⟨rfl, rfl, rfl⟩
  have hname : Lexeme.Splits .normal .identifier TagName.outer.text (Text.ofString ">") :=
    ⟨rfl, rfl, rfl⟩
  have hgreater : Lexeme.Splits .normal .greaterThan [CodePoint.ofChar '>'] [] :=
    ⟨rfl, rfl, rfl⟩
  exact .cons hslash (.cons hname (.cons hgreater .nil))

/-- A source is read as one item, which has this tree. The tokens are those that
the source is made of, and their texts are those of the leaves. -/
def ReadsSource (source : Text) (tree : Tree) (p : Parser) (answer : Option Completed) (q : Parser) :
    Prop :=
  answer.isSome = true ∧ ∃ tokens, Lexes source tokens [] ∧
    tokens.map (·.text) = tree.leaves.map (·.text) ∧ Records p tokens [tree] .normal q

/-- An element that is read as this tree is an item of a module. -/
theorem yields_moduleItem_readsAs {source rest : Text} {tree : Tree} {name : TagName}
    (h : Awaits p p.text.length .normal source)
    (hsource : source = CodePoint.ofChar '<' :: (name.text ++ rest))
    (helement : ∀ q, Awaits q p.text.length .normal source → q.memo = p.memo →
      Yields (element (descentTo (4 * p.text.length + 7)) (some "element")) q
        (ReadsAs source tree [] q)) :
    p.kind = .lessThan ∧ Yields (moduleItem descent) p (ReadsSource source tree p) := by
  refine ⟨(faces_start h.context (.inl rfl) (hsource ▸ h.faces)).2, ?_⟩
  refine (yields_moduleItem_element (hsource ▸ h.faces) h.context fun q hq hmemo => helement q
    (h.later hq.calm ⟨_, hq.way⟩ (h.faces.same hq) hq.context) hmemo).mono ?_
  rintro _ r ⟨q, node, rfl, hq, tokens, hlexes, htexts, hr⟩
  exact ⟨rfl, tokens, hlexes, htexts, hq.trans hr.records⟩

/-- A definition with a value in braces is an item of a module. -/
theorem yields_moduleItem_definitionText {value : Tree}
    (h : Awaits p p.text.length .normal value.definitionText)
    (hreads : ReadsInBraces p.text.length p value []) :
    p.kind ≠ .eof ∧
      Yields (moduleItem descent) p (ReadsSource value.definitionText value.definition p) := by
  have hlet : Lexes value.definitionText [Word.letKeyword.lexed]
      ((Term.definedName.leaf (some "name")).spread ++
        (Word.equal.leaf.spread ++ (value.inBraces.spread ++ []))) := by
    rw [value.definitionText_eq]
    exact .cons (.token (Word.letKeyword.solo.splits.behind (.inl rfl) rfl
      (Text.loose_space _).head?) rfl) (.nil _)
  have hkind : p.kind = .letKeyword := (h.faces.append hlet).kind h.context
  refine ⟨by rw [hkind]; decide, (yields_moduleItem_inBraces h hlet hreads).mono ?_⟩
  rintro answer q ⟨hanswer, tokens, hspell, hq⟩
  refine ⟨hanswer, tokens, value.lexes_definitionText hspell, ?_, hq⟩
  rw [hspell.texts, Tree.leavesList, Tree.leavesList, List.append_nil]
  rfl

/-- A construct in its place is an item of a module. -/
theorem yields_moduleItem_sourceText
    (h : Awaits p p.text.length .normal construct.sourceText) (hmemo : p.memo = []) :
    p.kind ≠ .eof ∧
      Yields (moduleItem descent) p (ReadsSource construct.sourceText construct.itemTree p) := by
  cases domain with
  | value =>
    rw [construct.sourceText_value] at h ⊢
    exact yields_moduleItem_definitionText h (readsInBraces_construct hmemo)
  | elements =>
    have hsource := construct.sourceText_elements
    obtain ⟨hkind, hitem⟩ := @yields_moduleItem_readsAs _ _ _ construct.itemTree _ h (by
      rw [hsource, TagName.opening_append]) fun q hq hsame => by
      rw [hsource] at hq ⊢
      exact yields_element_content (by omega) hq (hsame.trans hmemo) clean_closing _
    exact ⟨by rw [hkind]; decide, hitem⟩
  | properties =>
    have hsource := construct.sourceText_properties
    obtain ⟨hkind, hitem⟩ := @yields_moduleItem_readsAs _ _ _ construct.itemTree _ h (by
      rw [hsource, tagText, List.append_nil]) fun q hq hsame => by
      rw [hsource] at hq ⊢
      exact yields_element_tag (by omega) (hsame.trans hmemo) hq _
    exact ⟨by rw [hkind]; decide, hitem⟩

end Grammar

/-! ### Documents -/

namespace Document

/-- A parse has its source in front of it, and enough levels of nesting for
each of its characters. -/
theorem awaits_ofText {source file : Text} {options : Options}
    (colons : options.allowColonArms = true) (arrows : options.allowArrowArms = true)
    (deepEnough : (source.length : Int) ≤ options.maxNestingDepth) :
    Awaits (parser source options file) (parser source options file).text.length .normal source := by
  have hfaces : (parser source options file).Faces [] source := faces_ofText (.nil _)
  refine ⟨hfaces, rfl, ?_, rfl, colons, arrows⟩
  rw [← hfaces.length_eq_room]
  show (0 : Int) + _ ≤ options.maxNestingDepth
  omega

/-- A source that is read as one item of a module parses to the tree of the
item, without any diagnostic. What the item is stays open: the hypothesis
`hitem` is about one call of the rule for items, and `tidy` leaves the checks
nothing to report. -/
theorem exists_parse_of_item {source file : Text} {options : Options} {tree : Tree}
    (colons : options.allowColonArms = true) (arrows : options.allowArrowArms = true)
    (deepEnough : (source.length : Int) ≤ options.maxNestingDepth) (tidy : tree.Tidy)
    (hitem : ∀ p : Parser, Awaits p p.text.length .normal source → p.memo = [] →
      p.kind ≠ .eof ∧ Yields (moduleItem descent) p (ReadsSource source tree p)) :
    ∃ document, parse (.ofText source) options file = .ok document ∧
      document.diagnostics = [] ∧ document.tree.bare = wholeTree [tree] := by
  have hfaces : (parser source options file).Faces [] source := faces_ofText (.nil _)
  have hawaits : Awaits (parser source options file)
      (parser source options file).text.length .normal source :=
    awaits_ofText colons arrows deepEnough
  have hlater : ∀ q, Covers (parser source options file) [] .normal q →
      Awaits q q.text.length .normal source := by
    intro q hq
    have hsame := hq.text hfaces.live
    rw [hsame]
    exact hawaits.later hq.calm ⟨_, hq.way⟩ (hfaces.same hq) hq.context
  have hrun := yields_module_single (fun _ => True)
    (fun tokens item => tokens.map (·.text) = item.leaves.map (·.text) ∧ tree = item)
    hfaces rfl (hitem _ hawaits rfl).1 fun q hq _ hmemo =>
      (hitem q (hlater q hq) hmemo).2.mono fun answer r hr =>
        ⟨hr.1, trivial, hr.2.choose, _, ⟨hr.2.choose_spec.2.1, rfl⟩, hr.2.choose_spec.1,
          hr.2.choose_spec.2.2⟩
  obtain ⟨node, q, hok, -, tokens, _, ⟨htexts, rfl⟩, hlexes, hshapes⟩ := hrun.exists_ok
  have hleaves : (Tree.leavesList [tree]).map (·.text) = tokens.map (·.text) := by
    rw [Tree.leavesList, Tree.leavesList, List.append_nil, htexts]
  obtain ⟨document, hparse, hbare, -, hchecked⟩ :=
    exists_parse_of_shapes hlexes hleaves (.of_ok hok ⟨.normal, hshapes⟩)
  have hwhole : (wholeTree [tree]).bare = wholeTree [tree] := by
    simp [wholeTree, endLeaf, Tree.bare, Tree.bareList, Leaf.bare, tidy.bare]
  refine ⟨document, hparse, hchecked ?_, hbare.trans hwhole⟩
  exact check_eq_nil_of_items hbare (List.forall_mem_singleton.mpr tidy.closed) fun _ =>
    List.countP_le_length

/-- A control construct is read as it is written, in each of the three domains.
The construct may be of any form, with any number of arms and either separator
between a head and its body, and the source has it in a place for its domain,
with single spaces between the tokens. It parses to the tree of the construct,
without any diagnostic.

The options must allow the separators that are written, and a level of nesting
for each character is more than enough. -/
theorem parse_construct {domain : Domain} (construct : Construct domain) (options : Options)
    (file : Text) (colons : options.allowColonArms = true) (arrows : options.allowArrowArms = true)
    (deepEnough : (construct.sourceText.length : Int) ≤ options.maxNestingDepth) :
    ∃ document, parse (.ofText construct.sourceText) options file = .ok document ∧
      document.diagnostics = [] ∧ document.tree.bare = wholeTree [construct.itemTree] :=
  exists_parse_of_item colons arrows deepEnough construct.tidy_itemTree fun _ h hmemo =>
    yields_moduleItem_sourceText h hmemo

/-- A match between elements, with both separators. -/
theorem parse_construct_match :
    let line : EmptyElement := ⟨⟨⟨"br", .identifier, ⟨rfl, rfl, rfl⟩, by decide⟩, []⟩, []⟩
    let digit : Constant := ⟨.int, .intLiteral, rfl, ⟨"1", ⟨⟨rfl, rfl, rfl⟩, rfl⟩⟩⟩
    let scrutinee : ProperTerm := ⟨.identifier ⟨"n", ⟨⟨rfl, rfl, rfl⟩, rfl⟩⟩, trivial⟩
    let construct : Construct .elements :=
      .ifMatch (some scrutinee)
        ⟨⟨.patterns (.literal digit) [], .colon, .elements line [line]⟩, [],
          some ⟨.arrow, .elements line []⟩⟩
    construct.sourceText = Text.ofString
        "<a>if n is \x7b 1 : < br / > < br / > else => < br / > \x7d</a>" ∧
      ∃ document,
        parse (.ofText "<a>if n is \x7b 1 : < br / > < br / > else => < br / > \x7d</a>") {} "f" =
            .ok document ∧
          document.diagnostics = [] ∧
          document.tree.bare = wholeTree [construct.itemTree] := by
  intro line digit scrutinee construct
  have htext : construct.sourceText = Text.ofString
      "<a>if n is \x7b 1 : < br / > < br / > else => < br / > \x7d</a>" := by decide
  refine ⟨htext, ?_⟩
  have hparse := parse_construct construct {} "f" rfl rfl (by rw [htext]; decide)
  rw [htext] at hparse
  exact hparse

end Document

end MarkupSyntax
