import MarkupSyntax.Proofs.Grammar.Precedence
import MarkupSyntax.Proofs.Token.Spelling
import MarkupSyntax.Proofs.Tree.Bare

/-!
# `MarkupSyntax.Proofs.Grammar.Term`: value expressions and their trees

A `Term` is a value expression without elements and control
constructs, as it is meant: its operands are inside it, and its
parentheses are where it has them. `Term.tree` is the tree that it
should be read as, without trivia, and the words of that tree are what
it is written as.

Parentheses are not put in by themselves. `Term.WellFormed` says
that they are not needed: the operands bind as tightly as the table of
precedences asks.
-/

set_option autoImplicit false

namespace MarkupSyntax

open Grammar

/-! ### Words -/

/-- The word as a token without trivia. -/
def Word.token {kind : TokenKind} (word : Word kind) : Leaf := ⟨.token kind, word.text, [], []⟩

/-- A word is read in code, as a token of its kind. -/
@[simp] theorem Word.lexed_token {kind : TokenKind} (word : Word kind) :
    word.token.lexed = ⟨.normal, kind, word.text⟩ := rfl

/-- The token of a word has its text. -/
@[simp] theorem Word.text_token {kind : TokenKind} (word : Word kind) :
    word.token.text = word.text := rfl

/-- The same as a part of a tree. -/
def Word.leaf {kind : TokenKind} (word : Word kind) (field : Option String := none) : Tree :=
  .leaf field word.token

namespace Word

/-- The mark that opens parentheses. -/
def lParen : Word .lParen := ⟨"(", ⟨⟨rfl, rfl, rfl⟩, rfl⟩⟩

/-- The mark that closes them. -/
def rParen : Word .rParen := ⟨")", ⟨⟨rfl, rfl, rfl⟩, rfl⟩⟩

/-- The mark between arguments. -/
def comma : Word .comma := ⟨",", ⟨⟨rfl, rfl, rfl⟩, rfl⟩⟩

/-- The mark in front of a member. -/
def dot : Word .dot := ⟨".", ⟨⟨rfl, rfl, rfl⟩, rfl⟩⟩

/-- The mark of a negation. -/
def minus : Word .minus := ⟨"-", ⟨⟨rfl, rfl, rfl⟩, rfl⟩⟩

/-- The mark behind a condition. -/
def question : Word .question := ⟨"?", ⟨⟨rfl, rfl, rfl⟩, rfl⟩⟩

/-- The mark between the two cases of a condition. -/
def colon : Word .colon := ⟨":", ⟨⟨rfl, rfl, rfl⟩, rfl⟩⟩

/-- The mark that opens a body or a value in markup. -/
def lBrace : Word .lBrace := ⟨"\x7b", ⟨⟨rfl, rfl, rfl⟩, rfl⟩⟩

/-- The mark that closes it. -/
def rBrace : Word .rBrace := ⟨"\x7d", ⟨⟨rfl, rfl, rfl⟩, rfl⟩⟩

/-- The mark in front of what is defined. -/
def equal : Word .equal := ⟨"=", ⟨⟨rfl, rfl, rfl⟩, rfl⟩⟩

/-- The word in front of a definition. -/
def letKeyword : Word .letKeyword := ⟨"let", ⟨⟨rfl, rfl, rfl⟩, rfl⟩⟩

end Word

/-- A segment of a name, with a dot in front of it. -/
def Word.segment (name : Word .identifier) : List Tree := [Word.dot.leaf, name.leaf]

/-- Further segments of a name. -/
def segmentTrees (names : List (Word .identifier)) : List Tree := names.flatMap Word.segment

/-- The leaves of some segments, with the first one in front, behind its dot. -/
@[simp] theorem leavesList_segmentTrees_cons (name : Word .identifier)
    (names : List (Word .identifier)) :
    Tree.leavesList (segmentTrees (name :: names))
      = Word.dot.token :: name.token :: Tree.leavesList (segmentTrees names) := rfl

/-- Each segment has two leaves, its dot and its name. -/
theorem length_leavesList_segmentTrees (names : List (Word .identifier)) :
    (Tree.leavesList (segmentTrees names)).length = 2 * names.length := by
  induction names with
  | nil => rfl
  | cons name names ih =>
    simp only [leavesList_segmentTrees_cons, List.length_cons, ih]
    omega

/-- A word other than `=`. -/
structure Leaf.IsPart (leaf : Leaf) : Prop where
  isWord : leaf.IsWord
  kind_ne_equal : leaf.lexed.kind ≠ .equal

/-- A word of another kind is no `=`. -/
theorem Word.isPart {kind : TokenKind} (word : Word kind) (h : kind ≠ .equal) : word.token.IsPart :=
  ⟨word.spells, h⟩

/-- Nor is any word of some segments. -/
theorem isPart_of_mem_segmentTrees (names : List (Word .identifier)) :
    ∀ word ∈ Tree.leavesList (segmentTrees names), word.IsPart := by
  induction names with
  | nil => exact fun _ h => nomatch h
  | cons name names ih =>
    exact List.forall_mem_cons.mpr ⟨Word.dot.isPart (by decide),
      List.forall_mem_cons.mpr ⟨name.isPart (by decide), ih⟩⟩

/-- A literal: a string, a number, `true`, `false` or `null`. -/
structure Constant where
  token : TokenKind
  kind : SyntaxKind
  isLiteral : literalKind? token = some kind
  word : Word token

/-- The node of a literal has no operator, and can be called. -/
theorem Constant.isPlain (value : Constant) :
    value.kind.isPlain = true ∧ takesPostfix value.kind = true := by
  obtain ⟨token, kind, isLiteral, -⟩ := value
  revert isLiteral
  cases token <;> intro isLiteral <;> cases isLiteral <;> exact ⟨rfl, rfl⟩

/-- A literal is a node, not a token. -/
theorem Constant.isNode (value : Constant) : value.kind.isNode = true := by
  obtain ⟨token, kind, isLiteral, -⟩ := value
  revert isLiteral
  cases token <;> intro isLiteral <;> cases isLiteral <;> rfl

/-- The token of a literal is one of those that literals start with. -/
theorem Constant.token_mem (value : Constant) : value.token ∈ literalTokens := by
  have hliteral := value.isLiteral
  revert hliteral
  cases value.token <;> intro hliteral <;> first | decide | cases hliteral

/-- It is no `=`. -/
theorem Constant.token_ne_equal (value : Constant) : value.token ≠ .equal := by
  intro h
  have hliteral := value.isLiteral
  rw [h] at hliteral
  cases hliteral

/-- A binary operator. -/
structure Operator where
  token : TokenKind
  precedence : Nat
  binds : binaryPrecedence? token = some precedence
  word : Word token

/-- A value expression without elements and control constructs. -/
inductive Term where
  | literal (value : Constant)
  | identifier (name : Word .identifier)
  /-- `()` -/
  | unit
  /-- `(inner)` -/
  | parenthesized (inner : Term)
  /-- `target.name` -/
  | member (target : Term) (name : Word .identifier)
  /-- `callee(arguments)` -/
  | call (callee : Term) (arguments : List Term)
  /-- `-operand` -/
  | negation (operand : Term)
  | binary (operator : Operator) (left right : Term)
  /-- `condition ? consequent : alternative` -/
  | conditional (condition consequent alternative : Term)

/-- No binary operator is the mark of a condition. -/
theorem Operator.token_ne_question (operator : Operator) : operator.token ≠ .question := by
  intro h
  have hbinds := operator.binds
  rw [h] at hbinds
  cases hbinds

/-- No binary operator is `=`. -/
theorem Operator.token_ne_equal (operator : Operator) : operator.token ≠ .equal := by
  intro h
  have hbinds := operator.binds
  rw [h] at hbinds
  cases hbinds

/-- A binary operator binds as its precedence says. -/
theorem Operator.binding? (operator : Operator) :
    Outline.binding? operator.token = some operator.precedence := by
  rw [Outline.binding?, if_neg operator.token_ne_question, operator.binds]

namespace Term

/-! ### Precedence -/

/-- How tightly the expression is held together; those without an
operator outside are held together most tightly. -/
def strength : Term → Nat
  | conditional .. => conditionalPrecedence
  | binary operator _ _ => operator.precedence
  | negation _ => unaryPrecedence
  | _ => unaryPrecedence + 1

/-- Nothing is held together looser than a conditional expression. -/
theorem conditionalPrecedence_le (expression : Term) :
    conditionalPrecedence ≤ expression.strength := by
  cases expression with
  | binary operator => exact (Outline.binaryPrecedence_bounds operator.binds).1.le
  | _ => simp [strength, conditionalPrecedence, unaryPrecedence]

/-- An operator may follow the expression that binds looser than this. -/
def ending : Term → Nat
  | binary operator _ _ => operator.precedence + 1
  | expression => expression.strength

/-- An operator that binds looser than the expression is held together may
follow it. Behind a binary expression so may its own operator, since those
associate to the left. -/
theorem strength_le_ending (expression : Term) : expression.strength ≤ expression.ending := by
  cases expression with
  | binary => exact Nat.le_succ _
  | _ => exact le_rfl

/-- A binary operator may follow its left operand. -/
theorem lt_ending (left : Term) (operator : Operator)
    (h : operator.precedence ≤ left.strength) : operator.precedence < left.ending := by
  obtain ⟨hlow, hhigh⟩ := Outline.binaryPrecedence_bounds operator.binds
  cases left with
  | binary => exact Nat.lt_succ_of_le h
  | conditional => exact absurd h (Nat.not_le.mpr hlow)
  | negation => exact hhigh
  | _ => exact hhigh.trans (Nat.lt_succ_self _)

mutual
/-- The operands bind as tightly as the table of precedences asks, so
that no parentheses are needed around them. -/
def WellFormed : Term → Prop
  | literal _ | identifier _ | unit => True
  | parenthesized inner => inner.WellFormed
  | member target _ => unaryPrecedence < target.strength ∧ target.WellFormed
  | call callee arguments =>
    unaryPrecedence < callee.strength ∧ callee.WellFormed ∧ AllWellFormed arguments
  | negation operand => unaryPrecedence ≤ operand.strength ∧ operand.WellFormed
  | binary operator left right =>
    operator.precedence ≤ left.strength ∧ operator.precedence < right.strength ∧
      left.WellFormed ∧ right.WellFormed
  | conditional condition consequent alternative =>
    conditionalPrecedence < condition.strength ∧ condition.WellFormed ∧
      consequent.WellFormed ∧ alternative.WellFormed

/-- All expressions of the list are well-formed. -/
def AllWellFormed : List Term → Prop
  | [] => True
  | expression :: rest => expression.WellFormed ∧ AllWellFormed rest
end

/-! ### Trees -/

mutual
/-- The tree of the expression, without trivia. -/
def tree : Term → Tree
  | literal value => .node none value.kind [value.word.leaf]
  | identifier name => .node none .identifierExpression [name.leaf (some "name")]
  | unit => .node none .unitLiteral [Word.lParen.leaf, Word.rParen.leaf]
  | parenthesized inner =>
    .node none .parenthesizedExpression
      [Word.lParen.leaf, inner.tree.withField (some "expression"), Word.rParen.leaf]
  | member target name =>
    .node none .memberAccessExpression
      [target.tree.withField (some "target"), Word.dot.leaf, name.leaf (some "member")]
  | call callee arguments =>
    .node none .callExpression
      [callee.tree.withField (some "callee"),
        .node (some "arguments") .argumentList
          (Word.lParen.leaf :: (argumentTrees arguments ++ [Word.rParen.leaf]))]
  | negation operand =>
    .node none .prefixUnaryExpression
      [Word.minus.leaf (some "operator"), operand.tree.withField (some "operand")]
  | binary operator left right =>
    .node none .binaryExpression
      [left.tree.withField (some "left"), operator.word.leaf (some "operator"),
        right.tree.withField (some "right")]
  | conditional condition consequent alternative =>
    .node none .conditionalExpression
      [condition.tree.withField (some "condition"), Word.question.leaf,
        consequent.tree.withField (some "consequent"), Word.colon.leaf,
        alternative.tree.withField (some "alternative")]

/-- Arguments with commas between them. -/
def argumentTrees : List Term → List Tree
  | [] => []
  | first :: rest => first.tree.withField (some "argument") :: furtherTrees rest

/-- Arguments with a comma in front of each. -/
def furtherTrees : List Term → List Tree
  | [] => []
  | next :: rest =>
    Word.comma.leaf :: next.tree.withField (some "argument") :: furtherTrees rest
end

/-- The words that the expression is written as. -/
def words (expression : Term) : List Leaf := expression.tree.leaves

/-- The same of arguments with commas between them. -/
def argumentWords (arguments : List Term) : List Leaf :=
  Tree.leavesList (argumentTrees arguments)

/-- The same of arguments with a comma in front of each. -/
def furtherWords (arguments : List Term) : List Leaf :=
  Tree.leavesList (furtherTrees arguments)

section Words

variable (condition consequent alternative target callee inner left right operand : Term)
  (arguments : List Term) (name : Word .identifier) (operator : Operator)

/-- The words of an expression in parentheses. -/
@[simp] theorem words_parenthesized :
    (parenthesized inner).words = Word.lParen.token :: (inner.words ++ [Word.rParen.token]) := by
  simp [words, tree, Tree.leaves, Tree.leavesList, Tree.leaves_withField, Word.leaf]

/-- The words of a member. -/
@[simp] theorem words_member :
    (member target name).words = target.words ++ [Word.dot.token, name.token] := by
  simp [words, tree, Tree.leaves, Tree.leavesList, Tree.leaves_withField, Word.leaf]

/-- The words of a call. -/
@[simp] theorem words_call :
    (call callee arguments).words
      = callee.words ++ Word.lParen.token :: (argumentWords arguments ++ [Word.rParen.token]) := by
  simp [words, argumentWords, tree, Tree.leaves, Tree.leavesList, Tree.leavesList_append,
    Tree.leaves_withField, Word.leaf]

/-- The words of a negation. -/
@[simp] theorem words_negation :
    (negation operand).words = Word.minus.token :: operand.words := by
  simp [words, tree, Tree.leaves, Tree.leavesList, Tree.leaves_withField, Word.leaf]

/-- The words of a binary expression. -/
@[simp] theorem words_binary :
    (binary operator left right).words = left.words ++ operator.word.token :: right.words := by
  simp [words, tree, Tree.leaves, Tree.leavesList, Tree.leaves_withField, Word.leaf]

/-- The words of a conditional expression. -/
@[simp] theorem words_conditional :
    (conditional condition consequent alternative).words
      = condition.words ++ Word.question.token ::
          (consequent.words ++ Word.colon.token :: alternative.words) := by
  simp [words, tree, Tree.leaves, Tree.leavesList, Tree.leaves_withField, Word.leaf]

/-- The words of arguments: the first one has no comma in front. -/
@[simp] theorem argumentWords_cons :
    argumentWords (inner :: arguments) = inner.words ++ furtherWords arguments := by
  simp [argumentWords, furtherWords, words, argumentTrees, Tree.leavesList, Tree.leaves_withField]

/-- The words of further arguments, each behind its comma. -/
@[simp] theorem furtherWords_cons :
    furtherWords (inner :: arguments)
      = Word.comma.token :: (inner.words ++ furtherWords arguments) := by
  simp [furtherWords, words, furtherTrees, Tree.leaves, Tree.leavesList, Tree.leaves_withField,
    Word.leaf]

/-- There are no more further arguments than words. -/
theorem length_le_furtherWords : arguments.length ≤ (furtherWords arguments).length := by
  induction arguments with
  | nil => exact Nat.zero_le _
  | cons next rest ih =>
    simp only [furtherWords_cons, List.length_cons, List.length_append]
    omega

end Words

mutual
/-- What an expression is written as are words other than `=`. -/
theorem isPart_of_mem_words : ∀ (expression : Term) {word : Leaf},
    word ∈ expression.words → word.IsPart
  | literal value, word, h => by
    rw [List.mem_singleton.mp h]
    exact value.word.isPart value.token_ne_equal
  | identifier name, word, h => by
    rw [List.mem_singleton.mp h]
    exact name.isPart (by decide)
  | unit, word, h => by
    rcases List.mem_pair.mp h with rfl | rfl
    · exact Word.lParen.isPart (by decide)
    · exact Word.rParen.isPart (by decide)
  | parenthesized inner, word, h => by
    rw [words_parenthesized, List.mem_cons, List.mem_append, List.mem_singleton] at h
    rcases h with rfl | h | rfl
    · exact Word.lParen.isPart (by decide)
    · exact isPart_of_mem_words inner h
    · exact Word.rParen.isPart (by decide)
  | member target name, word, h => by
    rw [words_member, List.mem_append, List.mem_pair] at h
    rcases h with h | rfl | rfl
    · exact isPart_of_mem_words target h
    · exact Word.dot.isPart (by decide)
    · exact name.isPart (by decide)
  | call callee arguments, word, h => by
    rw [words_call, List.mem_append, List.mem_cons, List.mem_append, List.mem_singleton] at h
    rcases h with h | rfl | h | rfl
    · exact isPart_of_mem_words callee h
    · exact Word.lParen.isPart (by decide)
    · cases arguments with
      | nil => cases h
      | cons first rest =>
        rw [argumentWords_cons, List.mem_append] at h
        rcases h with h | h
        · exact isPart_of_mem_words first h
        · exact isPart_of_mem_furtherWords rest h
    · exact Word.rParen.isPart (by decide)
  | negation operand, word, h => by
    rw [words_negation, List.mem_cons] at h
    rcases h with rfl | h
    · exact Word.minus.isPart (by decide)
    · exact isPart_of_mem_words operand h
  | binary operator left right, word, h => by
    rw [words_binary, List.mem_append, List.mem_cons] at h
    rcases h with h | rfl | h
    · exact isPart_of_mem_words left h
    · exact operator.word.isPart operator.token_ne_equal
    · exact isPart_of_mem_words right h
  | conditional condition consequent alternative, word, h => by
    rw [words_conditional, List.mem_append, List.mem_cons, List.mem_append, List.mem_cons] at h
    rcases h with h | rfl | h | rfl | h
    · exact isPart_of_mem_words condition h
    · exact Word.question.isPart (by decide)
    · exact isPart_of_mem_words consequent h
    · exact Word.colon.isPart (by decide)
    · exact isPart_of_mem_words alternative h

/-- None of the words of further arguments is `=`. -/
theorem isPart_of_mem_furtherWords : ∀ (arguments : List Term) {word : Leaf},
    word ∈ furtherWords arguments → word.IsPart
  | [], word, h => nomatch h
  | next :: rest, word, h => by
    rw [furtherWords_cons, List.mem_cons, List.mem_append] at h
    rcases h with rfl | h | h
    · exact Word.comma.isPart (by decide)
    · exact isPart_of_mem_words next h
    · exact isPart_of_mem_furtherWords rest h
end

/-- Each word of an expression is a token by itself. -/
theorem isWord_of_mem_words (expression : Term) {word : Leaf} (h : word ∈ expression.words) :
    word.IsWord := (expression.isPart_of_mem_words h).isWord

/-- So is each word of further arguments. -/
theorem isWord_of_mem_furtherWords (arguments : List Term) {word : Leaf}
    (h : word ∈ furtherWords arguments) : word.IsWord := (isPart_of_mem_furtherWords arguments h).isWord

/-! ### The leftmost operand -/

/-- The leftmost operand of the operators of an expression. -/
def head : Term → Term
  | binary _ left _ => left.head
  | conditional condition _ _ => condition.head
  | expression => expression

/-- The words behind the leftmost operand. -/
def behindHead : Term → List Leaf
  | binary operator left right => left.behindHead ++ operator.word.token :: right.words
  | conditional condition consequent alternative =>
    condition.behindHead ++ Word.question.token ::
      (consequent.words ++ Word.colon.token :: alternative.words)
  | _ => []

/-- The words of an expression are those of its leftmost operand and then what
is put around that. This is the order in which the loop over the operators reads
them. -/
theorem words_eq_head (expression : Term) :
    expression.words = expression.head.words ++ expression.behindHead := by
  fun_induction head expression with
  | case1 operator left right ih => simp [behindHead, ih]
  | case2 condition consequent alternative ih => simp [behindHead, ih]
  | case3 expression hbinary hconditional =>
    cases expression <;> simp_all [behindHead]

/-- The leftmost operand of a well-formed expression is well-formed, and no
operator holds it together. -/
theorem WellFormed.head {expression : Term} (h : expression.WellFormed) :
    expression.head.WellFormed ∧ unaryPrecedence ≤ expression.head.strength := by
  fun_induction Term.head expression with
  | case1 operator left right ih => exact ih h.2.2.1
  | case2 condition consequent alternative ih => exact ih h.2.1
  | case3 expression hbinary hconditional =>
    refine ⟨h, ?_⟩
    cases expression <;> simp_all [strength]

/-- The expression that is called and whose members are taken, innermost. -/
def base : Term → Term
  | member target _ => target.base
  | call callee _ => callee.base
  | expression => expression

/-- The words of the calls and member accesses. -/
def behindBase : Term → List Leaf
  | member target name => target.behindBase ++ [Word.dot.token, name.token]
  | call callee arguments =>
    callee.behindBase ++ Word.lParen.token :: (argumentWords arguments ++ [Word.rParen.token])
  | _ => []

/-- The words of an expression with members and calls are those of what is
innermost and then the members and calls. -/
theorem words_eq_base (expression : Term) :
    expression.words = expression.base.words ++ expression.behindBase := by
  fun_induction base expression with
  | case1 target name ih => simp [behindBase, ih]
  | case2 callee arguments ih => simp [behindBase, ih]
  | case3 expression hmember hcall =>
    cases expression <;> simp_all [behindBase]

/-- No node of an expression is an element or a control construct. -/
theorem isOperand_tree (expression : Term) :
    (expression.tree.kind = .element || expression.tree.kind.isControl) = false := by
  cases expression with
  | literal value =>
    obtain ⟨token, kind, isLiteral, -⟩ := value
    show (decide (kind = .element) || kind.isControl) = false
    revert isLiteral
    cases token <;> intro isLiteral <;> cases isLiteral <;> rfl
  | _ => rfl

/-! ### Trees of expressions -/

/-- A word has no trivia. -/
@[simp] theorem bare_leaf {kind : TokenKind} (word : Word kind) (field : Option String) :
    (word.leaf field).bare = word.leaf field := rfl

mutual
/-- Nor has an expression. -/
theorem bare_tree : ∀ expression : Term, expression.tree.bare = expression.tree
  | literal _ | identifier _ | unit => rfl
  | parenthesized inner => by simp [tree, Tree.bare, Tree.bareList, bare_tree inner]
  | member target _ => by simp [tree, Tree.bare, Tree.bareList, bare_tree target]
  | call callee arguments => by
    have harguments : Tree.bareList (argumentTrees arguments) = argumentTrees arguments := by
      cases arguments with
      | nil => rfl
      | cons first rest =>
        simp [argumentTrees, Tree.bareList, bare_tree first, bareList_furtherTrees rest]
    simp [tree, Tree.bare, Tree.bareList, Tree.bareList_append, bare_tree callee, harguments]
  | negation operand => by simp [tree, Tree.bare, Tree.bareList, bare_tree operand]
  | binary _ left right => by
    simp [tree, Tree.bare, Tree.bareList, bare_tree left, bare_tree right]
  | conditional condition consequent alternative => by
    simp [tree, Tree.bare, Tree.bareList, bare_tree condition, bare_tree consequent,
      bare_tree alternative]

/-- The trees of further arguments have no trivia. -/
theorem bareList_furtherTrees : ∀ arguments : List Term,
    Tree.bareList (furtherTrees arguments) = furtherTrees arguments
  | [] => rfl
  | next :: rest => by
    simp [furtherTrees, Tree.bareList, bare_tree next, bareList_furtherTrees rest]
end

/-- A word is the only kind in its leaf. -/
@[simp] theorem kinds_leaf {kind : TokenKind} (word : Word kind) (field : Option String) :
    (word.leaf field).kinds = [.token kind] := rfl

mutual
/-- An expression has no element inside. -/
theorem element_notMem_kinds : ∀ expression : Term, SyntaxKind.element ∉ expression.tree.kinds
  | literal value => by
    have hkind : value.kind ≠ .element := by
      intro helement
      have hplain := value.isPlain.2
      rw [helement] at hplain
      cases hplain
    simpa [tree] using hkind.symm
  | identifier _ | unit => by simp [tree]
  | parenthesized inner => by simp [tree, element_notMem_kinds inner]
  | member target _ => by simp [tree, element_notMem_kinds target]
  | call callee arguments => by
    have harguments : ∀ tree ∈ argumentTrees arguments, SyntaxKind.element ∉ tree.kinds := by
      cases arguments with
      | nil => exact nofun
      | cons first rest =>
        simpa [argumentTrees, element_notMem_kinds first] using element_notMem_furtherTrees rest
    simpa [tree, element_notMem_kinds callee] using harguments
  | negation operand => by simp [tree, element_notMem_kinds operand]
  | binary _ left right => by
    simp [tree, element_notMem_kinds left, element_notMem_kinds right]
  | conditional condition consequent alternative => by
    simp [tree, element_notMem_kinds condition, element_notMem_kinds consequent,
      element_notMem_kinds alternative]

/-- No element is in the trees of further arguments. -/
theorem element_notMem_furtherTrees : ∀ arguments : List Term,
    ∀ tree ∈ furtherTrees arguments, SyntaxKind.element ∉ tree.kinds
  | [] => nofun
  | next :: rest => by
    simpa [furtherTrees, element_notMem_kinds next] using element_notMem_furtherTrees rest
end

/-! ### Outlines -/

/-- The operator that an expression is put together with is the one that
holds it together. -/
theorem level?_tree (expression : Term) :
    ∀ level ∈ expression.tree.outline.level?, level = expression.strength := by
  intro level hlevel
  cases expression with
  | binary operator left right =>
    have hbinary : (binary operator left right).tree.outline.level? = some operator.precedence :=
      (Outline.level?_binary rfl rfl (by simp) rfl rfl).trans operator.binds
    rw [hbinary] at hlevel
    exact (Option.some.inj hlevel).symm
  | conditional => exact (Option.some.inj hlevel).symm
  | literal value =>
    have hnone : (literal value).tree.outline.level? = none :=
      Outline.level?_of_isPlain value.isPlain.1
    rw [hnone] at hlevel
    cases hlevel
  | _ => cases hlevel

/-- What no binary operator holds together has no level. -/
theorem level?_tree_eq_none {expression : Term} (h : unaryPrecedence ≤ expression.strength) :
    expression.tree.outline.level? = none := by
  refine Option.eq_none_iff_forall_ne_some.mpr fun level hlevel => ?_
  have hlt := Outline.level?_lt hlevel
  have heq := level?_tree expression level hlevel
  omega

/-- The tree of a well-formed expression has the operands that its
operator asks for. -/
theorem WellFormed.fits {expression : Term} (h : expression.WellFormed) :
    expression.tree.outline.Fits := by
  -- What `WellFormed` asks of the operands, case by case, is what `Fits` asks of the parts of the
  -- tree.
  cases expression with
  | literal value => exact Outline.fits_of_literalKind? rfl value.isLiteral
  | identifier | unit | parenthesized => exact Outline.fits_of_isLoose rfl
  | member target name =>
    refine ⟨_, _, rfl, by simp, ?_⟩
    simp only [Tree.outline_withField, Outline.level?_withField]
    exact level?_tree_eq_none h.1.le
  | call callee arguments =>
    refine ⟨_, _, rfl, by simp, ?_⟩
    simp only [Tree.outline_withField, Outline.level?_withField]
    exact level?_tree_eq_none h.1.le
  | negation operand =>
    refine ⟨_, _, rfl, rfl, by simp, ?_⟩
    rw [Tree.outline_withField, Outline.level?_withField]
    exact level?_tree_eq_none h.1
  | binary operator left right =>
    obtain ⟨hleft, hright, -⟩ := h
    have hlevel : (binary operator left right).tree.outline.level? = some operator.precedence :=
      (Outline.level?_binary rfl rfl (by simp) rfl rfl).trans operator.binds
    have hbounds := (Outline.binaryPrecedence_bounds operator.binds).1
    refine ⟨_, _, _, operator.precedence, rfl, by simp, rfl, by simp, hlevel, ?_, ?_⟩
    · rw [Tree.outline_withField, Outline.leads_withField]
      refine .inr fun level hmem => ?_
      have heq := level?_tree left level hmem
      omega
    · rw [Tree.outline_withField, Outline.level?_withField]
      intro level hmem
      have heq := level?_tree right level hmem
      omega
  | conditional condition consequent alternative =>
    refine ⟨_, _, rfl, by simp, ?_⟩
    rw [Tree.outline_withField, Outline.leads_withField]
    refine .inr fun level hmem => ?_
    have heq := level?_tree condition level hmem
    have hlt := h.1
    omega

end Term

end MarkupSyntax
