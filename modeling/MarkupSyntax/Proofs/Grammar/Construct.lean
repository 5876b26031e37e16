import MarkupSyntax.Proofs.Grammar.Tagged
import MarkupSyntax.Proofs.Grammar.Term
import MarkupSyntax.Proofs.Parse.Enters

/-!
# `MarkupSyntax.Proofs.Grammar.Construct`: control constructs and their trees

A `Construct` is an `if` of any form or a `for`, over the bodies of one
domain. As for `Term`, there is a tree that it should be read as, without
trivia, and the words of that tree are what it is written as.

The three domains differ in their bodies only (`Body`). So a construct has
the same tree in each of them, but for the bodies and for the domain in
the kinds of its nodes.
-/

set_option autoImplicit false

namespace MarkupSyntax

open Grammar

namespace Word

/-- The word that starts an `if`. -/
def ifKeyword : Word .ifKeyword := ⟨"if", ⟨⟨rfl, rfl, rfl⟩, rfl⟩⟩

/-- The word in front of what is done otherwise. -/
def elseKeyword : Word .elseKeyword := ⟨"else", ⟨⟨rfl, rfl, rfl⟩, rfl⟩⟩

/-- The word between a scrutinee and its patterns. -/
def isKeyword : Word .isKeyword := ⟨"is", ⟨⟨rfl, rfl, rfl⟩, rfl⟩⟩

/-- The word that starts a `for`. -/
def forKeyword : Word .forKeyword := ⟨"for", ⟨⟨rfl, rfl, rfl⟩, rfl⟩⟩

/-- The word in front of what a `for` goes through. -/
def inKeyword : Word .inKeyword := ⟨"in", ⟨⟨rfl, rfl, rfl⟩, rfl⟩⟩

/-- The arrow between the head of an arm and its body. -/
def fatArrow : Word .fatArrow := ⟨"=>", ⟨⟨rfl, rfl, rfl⟩, rfl⟩⟩

/-- The mark that opens a tag. -/
def lessThan : Word .lessThan := ⟨"<", ⟨⟨rfl, rfl, rfl⟩, rfl⟩⟩

/-- The mark that closes a tag. -/
def greaterThan : Word .greaterThan := ⟨">", ⟨⟨rfl, rfl, rfl⟩, rfl⟩⟩

/-- The slash of a tag that closes itself. -/
def slash : Word .slash := ⟨"/", ⟨⟨rfl, rfl, rfl⟩, rfl⟩⟩

end Word

/-! ### Bodies -/

/-- A value expression that needs no more parentheses than it has. -/
structure ProperTerm where
  term : Term
  wellFormed : term.WellFormed

/-- The expression in a field. -/
def ProperTerm.tree (expression : ProperTerm) (field : String) : Tree :=
  expression.term.tree.withField (some field)

/-- `name=literal` -/
structure Assignment where
  name : Word .identifier
  value : Constant

/-- The name as it stands in a tag. -/
def Assignment.tagName (assignment : Assignment) : TagName where
  text := assignment.name.text
  kind := .identifier
  splits := assignment.name.spells.splits_tag (by decide)
  isName := Lexeme.identifier_isName

/-- The tree of a property: a name, `=` and the value in its field. -/
def Assignment.tree (assignment : Assignment) : Tree :=
  .node none .propertyValue
    [assignment.tagName.tree "name", Word.equal.leaf,
      (Term.literal assignment.value).tree.withField (some "value")]

/-- A list of properties in a field, if there are any. -/
def propertyTrees (field : String) : List Assignment → List Tree
  | [] => []
  | first :: others =>
    [.node (some field) .propertyList ((first :: others).map Assignment.tree)]

/-- `<name properties/>` -/
structure EmptyElement where
  name : MarkupName
  properties : List Assignment

/-- The tree of an element that closes itself. -/
def EmptyElement.tree (element : EmptyElement) : Tree :=
  .node none .element
    (Word.lessThan.leaf :: element.name.tree "name" ::
      (propertyTrees "properties" element.properties ++ [Word.slash.leaf, Word.greaterThan.leaf]))

/-- The body of a construct of each domain. -/
inductive Body : Domain → Type where
  /-- A value expression. -/
  | value (expression : ProperTerm) : Body .value
  /-- One or more elements. -/
  | elements (first : EmptyElement) (others : List EmptyElement) : Body .elements
  /-- One or more properties. -/
  | properties (first : Assignment) (others : List Assignment) : Body .properties

/-- The body in a field. -/
def Body.tree (field : String) : {domain : Domain} → Body domain → Tree
  | _, value expression => expression.tree field
  | _, elements first others =>
    .node (some field) .elementsExpression ((first :: others).map EmptyElement.tree)
  | _, properties first others =>
    .node (some field) .propertyList ((first :: others).map Assignment.tree)

/-- A body in braces. -/
def Body.braced {domain : Domain} (body : Body domain) (field : String) : List Tree :=
  [Word.lBrace.leaf, body.tree field, Word.rBrace.leaf]

/-! ### Arms -/

/-- A literal, or a name with dots in it. -/
inductive Pattern where
  | literal (value : Constant)
  | name (first : Word .identifier) (others : List (Word .identifier))

/-- The tree of a pattern: its literal or name inside a node of its own. -/
def Pattern.tree : Pattern → Tree
  | literal value => .node (some "pattern") .pattern [(Term.literal value).tree]
  | name first others =>
    .node (some "pattern") .pattern
      [.node none .qualifiedName (first.leaf :: segmentTrees others)]

/-- A pattern, with a comma in front of it. -/
def Pattern.further (pattern : Pattern) : List Tree := [Word.comma.leaf, pattern.tree]

/-- Further patterns of an arm. -/
def furtherPatterns (patterns : List Pattern) : List Tree := patterns.flatMap Pattern.further

/-- The tokens that an arm starts with. -/
def headStart : List TokenKind := .identifier :: literalTokens

/-- What an arm is chosen by: patterns in a match, and otherwise a
condition that starts with a name or a literal. -/
inductive Head : ControlForm → Type where
  | patterns (first : Pattern) (others : List Pattern) : Head .matchArm
  | condition (expression : ProperTerm)
      (starts : Leaf.firstKind expression.term.words ∈ headStart) : Head .conditionArm

/-- The trees in front of the separator of an arm: patterns with commas, or a
condition. -/
def Head.trees : {form : ControlForm} → Head form → List Tree
  | _, patterns first others => first.tree :: furtherPatterns others
  | _, condition expression _ => [expression.tree "condition"]

/-- What stands between the head of an arm and its body. -/
inductive Separator where
  | colon
  | arrow

/-- The separator as a part of a tree. -/
def Separator.leaf : Separator → Tree
  | colon => Word.colon.leaf
  | arrow => Word.fatArrow.leaf

/-- An arm of a match or of a list of conditions. -/
structure Arm (form : ControlForm) (domain : Domain) where
  head : Head form
  separator : Separator
  body : Body domain

/-- The tree of an arm: its head, the separator and the body. -/
def Arm.tree {form : ControlForm} {domain : Domain} (arm : Arm form domain) : Tree :=
  .node none (.control domain form)
    (arm.head.trees ++ [arm.separator.leaf, arm.body.tree "body"])

/-- The tree of an arm around a tree. -/
def Head.around {form : ControlForm} (head : Head form) (domain : Domain) (separator : Separator)
    (body : Tree) : Tree :=
  .node none (.control domain form) (head.trees ++ [separator.leaf, body])

/-- An arm for everything else. -/
structure ElseArm (domain : Domain) where
  separator : Separator
  body : Body domain

/-- The trees of the arm for all other cases. Its body is in a field of the
construct itself, so there is no node of the arm. -/
def ElseArm.trees {domain : Domain} (arm : ElseArm domain) : List Tree :=
  [Word.elseKeyword.leaf, arm.separator.leaf, arm.body.tree "else"]

/-- The parts of an arm for everything else, if there is one. -/
def elseArmTrees {domain : Domain} (otherwise : Option (ElseArm domain)) : List Tree :=
  otherwise.toList.flatMap ElseArm.trees

/-- One or more arms, the last of which may be for everything else. -/
structure Arms (form : ControlForm) (domain : Domain) where
  first : Arm form domain
  others : List (Arm form domain)
  otherwise : Option (ElseArm domain)

/-- The trees of all arms, with the one for other cases at the end. -/
def Arms.trees {form : ControlForm} {domain : Domain} (arms : Arms form domain) : List Tree :=
  (arms.first :: arms.others).map Arm.tree ++ elseArmTrees arms.otherwise

/-- Arms in braces. -/
def Arms.braced {form : ControlForm} {domain : Domain} (arms : Arms form domain) : List Tree :=
  Word.lBrace.leaf :: (arms.trees ++ [Word.rBrace.leaf])

/-! ### Constructs -/

/-- A control construct of a domain. -/
inductive Construct (domain : Domain) where
  /-- `if condition { body }`, perhaps with `else { body }`. -/
  | ifSimple (condition : ProperTerm) (body : Body domain) (otherwise : Option (Body domain))
  /-- `if scrutinee is { arms }`, perhaps without a scrutinee. -/
  | ifMatch (scrutinee : Option ProperTerm) (arms : Arms .matchArm domain)
  /-- `if scrutinee { arms }`, perhaps without a scrutinee. -/
  | ifConditionList (scrutinee : Option ProperTerm) (arms : Arms .conditionArm domain)
  /-- `for item in iterable { body }`, perhaps with an index. -/
  | forLoop (item : Word .identifier) (index : Option (Word .identifier)) (iterable : ProperTerm)
      (body : Body domain)

namespace Construct

variable {domain : Domain}

/-- Which of the control nodes of its domain the construct is. -/
def form : Construct domain → ControlForm
  | ifSimple .. => .ifSimple
  | ifMatch .. => .ifMatch
  | ifConditionList .. => .ifConditionList
  | forLoop .. => .forLoop

/-- The scrutinee, if there is one. -/
def scrutineeTrees (scrutinee : Option ProperTerm) : List Tree :=
  scrutinee.toList.map (·.tree "scrutinee")

/-- A scrutinee that is there is one tree, in its field. -/
@[simp] theorem scrutineeTrees_some (scrutinee : ProperTerm) :
    scrutineeTrees (some scrutinee) = [scrutinee.tree "scrutinee"] := rfl

/-- The index with the comma in front of it, if there is one. -/
def indexTrees (index : Option (Word .identifier)) : List Tree :=
  index.toList.flatMap fun index => [Word.comma.leaf, index.leaf (some "index")]

/-- The word that the construct starts with. -/
def keyword : Construct domain → Tree
  | forLoop .. => Word.forKeyword.leaf
  | _ => Word.ifKeyword.leaf

/-- The body behind `else`, if there is one. -/
def elseTrees (otherwise : Option (Body domain)) : List Tree :=
  otherwise.toList.flatMap fun body => Word.elseKeyword.leaf :: body.braced "else"

/-- What stands behind that word. -/
def parts : Construct domain → List Tree
  | ifSimple condition body otherwise =>
    condition.tree "condition" :: (body.braced "then" ++ elseTrees otherwise)
  | ifMatch scrutinee arms => scrutineeTrees scrutinee ++ Word.isKeyword.leaf :: arms.braced
  | ifConditionList scrutinee arms => scrutineeTrees scrutinee ++ arms.braced
  | forLoop item index iterable body =>
    item.leaf (some "item") :: (indexTrees index ++
      Word.inKeyword.leaf :: iterable.tree "iterable" :: body.braced "body")

/-- True for a simple `if` without `else`. It takes an `else` that follows,
whoever that belongs to. -/
def IsOpen : Construct domain → Prop
  | ifSimple _ _ none => True
  | _ => False

/-- The tree of the construct, in a field. -/
def tree (construct : Construct domain) (field : Option String) : Tree :=
  .node field (.control domain construct.form) (construct.keyword :: construct.parts)

end Construct

end MarkupSyntax
