import MarkupSyntax.Grammar.Operators
import MarkupSyntax.Grammar.Descent
import MarkupSyntax.Proofs.Grammar.Term
import MarkupSyntax.Proofs.Parse.Draws

/-!
# `MarkupSyntax.Proofs.Grammar.Roundtrip`: expressions are read as they are written

The words of a well-formed expression are read as its tree
(`Parses`), whatever words follow that do not continue it (`Stops`).

The parse does not follow the expression from the outside in. It starts
with the leftmost operand and puts an operator around what it has so
far, one round of a loop for each operator on the way out. So the main
lemmas are `yields_climb`, from the leftmost operand to the whole
expression, and `yields_chain`, from the expression that is called to
the last call. Both are inductions on the expression, and both hand over
to whatever rounds come after.
-/

set_option autoImplicit false

namespace MarkupSyntax.Grammar

open Parse

variable {p q r : Parser} {descend : Descent} {bound : Nat} {rest : List Leaf} {tree : Tree}
  {node : Completed}

/-- The answer is a node, which is read as the tree. -/
def Answers (p : Parser) (tree : Tree) : Option Completed → Parser → Prop
  | some node, q => Draws p tree node q
  | none, _ => False

/-- A word follows that is no call, no member access and no operator that
binds at least this tightly. -/
structure Stops (precedence : Nat) (rest : List Leaf) : Prop where
  ne_nil : rest ≠ []
  noDot : Leaf.firstKind rest ≠ .dot
  noParen : Leaf.firstKind rest ≠ .lParen
  looser : ∀ binding ∈ Outline.binding? (Leaf.firstKind rest), binding < precedence

/-- The tokens that stand behind a whole value. -/
def closers : List TokenKind := [.rParen, .rBrace, .comma, .colon]

/-- A word that is no operator, no call and no member access. -/
theorem Stops.of_unbound {precedence : Nat} {word : Leaf}
    (h : word.lexed.kind ≠ .dot ∧ word.lexed.kind ≠ .lParen ∧
      Outline.binding? word.lexed.kind = none) : Stops precedence (word :: rest) := by
  have hkind : Leaf.firstKind (word :: rest) = word.lexed.kind := rfl
  refine ⟨List.cons_ne_nil _ _, hkind ▸ h.1, hkind ▸ h.2.1, ?_⟩
  rw [hkind, h.2.2]
  exact nofun

/-- A token behind a whole value stops the operators of every precedence. -/
theorem Stops.of_closer {precedence : Nat} {word : Leaf} (h : word.lexed.kind ∈ closers) :
    Stops precedence (word :: rest) := by
  refine .of_unbound ?_
  revert h
  cases word.lexed.kind <;> decide

/-- The first word of an expression starts one. -/
theorem firstKind_expression : ∀ (expression : Term) (rest : List Leaf),
    Leaf.firstKind (expression.words ++ rest) ∈ expressionStart
  | .literal value, _ => by
    show value.token ∈ expressionStart
    have hliteral := value.isLiteral
    revert hliteral
    cases value.token <;> intro hliteral <;> first | decide | cases hliteral
  | .identifier _, _ => by show TokenKind.identifier ∈ expressionStart; decide
  | .unit, _ => by show TokenKind.lParen ∈ expressionStart; decide
  | .parenthesized _, _ => by show TokenKind.lParen ∈ expressionStart; decide
  | .member target _, _ => by
    rw [Term.words_member, List.append_assoc]
    exact firstKind_expression target _
  | .call callee _, _ => by
    rw [Term.words_call, List.append_assoc]
    exact firstKind_expression callee _
  | .negation operand, _ => by
    rw [Term.words_negation]
    show TokenKind.minus ∈ expressionStart
    decide
  | .binary _ left _, _ => by
    rw [Term.words_binary, List.append_assoc]
    exact firstKind_expression left _
  | .conditional condition _ _, _ => by
    rw [Term.words_conditional, List.append_assoc]
    exact firstKind_expression condition _

/-- An expression has a word. -/
theorem words_ne_nil (expression : Term) : expression.words ≠ [] := by
  intro hnil
  have hmem := firstKind_expression expression []
  rw [hnil] at hmem
  exact absurd hmem (by decide)

/-- In front of an expression stands its first word. -/
theorem kind_expression {expression : Term} (h : p.Before (expression.words ++ rest)) :
    p.kind = Leaf.firstKind (expression.words ++ rest) :=
  h.kind_of_ne_nil (List.append_ne_nil_of_left_ne_nil (words_ne_nil expression) rest)

/-- Only a negation and what is looser than it can start with a minus. -/
theorem firstKind_ne_minus {expression : Term} (h : expression.WellFormed)
    (hstrong : unaryPrecedence < expression.strength) (rest : List Leaf) :
    Leaf.firstKind (expression.words ++ rest) ≠ .minus := by
  fun_induction Term.base expression generalizing rest with
  | case1 target name ih =>
    rw [Term.words_member, List.append_assoc]
    exact ih h.2 h.1 _
  | case2 callee arguments ih =>
    rw [Term.words_call, List.append_assoc]
    exact ih h.2.1 h.1 _
  | case3 expression hmember hcall =>
    cases expression with
    | literal value =>
      show value.token ≠ .minus
      intro hminus
      have hliteral := value.isLiteral
      rw [hminus] at hliteral
      cases hliteral
    | identifier => show TokenKind.identifier ≠ .minus; decide
    | unit => show TokenKind.lParen ≠ .minus; decide
    | parenthesized => show TokenKind.lParen ≠ .minus; decide
    | member target name => exact absurd rfl (hmember target name)
    | call callee arguments => exact absurd rfl (hcall callee arguments)
    | negation => exact absurd hstrong (Nat.lt_irrefl _)
    | binary operator =>
      have hlt := (Outline.binaryPrecedence_bounds operator.binds).2
      exact absurd hstrong (Nat.not_lt.mpr hlt.le)
    | conditional =>
      exact absurd hstrong (show ¬ unaryPrecedence < conditionalPrecedence by decide)

/-- Levels of nesting and of the descent for an expression of this many
words. -/
structure Room (p : Parser) (bound count : Nat) : Prop where
  depth : p.depth + count ≤ p.options.maxNestingDepth
  descent : 2 * count ≤ bound

/-- The parsers of the recursive constructs read well-formed expressions
as they are written. Each level of nesting and of the descent is due to
a word, and a value is one level above its operators. -/
structure Parses (descend : Descent) (bound : Nat) : Prop where
  value : ∀ (expression : Term) (field : Option String) (p : Parser) (rest : List Leaf),
    expression.WellFormed → p.Before (expression.words ++ rest) → Stops 0 rest →
    p.depth + expression.words.length < p.options.maxNestingDepth →
    2 * expression.words.length + 1 < bound →
    Yields (descend (.value field)) p (Answers p (expression.tree.withField field))
  operators : ∀ (expression : Term) (precedence : Nat) (p : Parser) (rest : List Leaf),
    expression.WellFormed → precedence ≤ expression.strength →
    p.Before (expression.words ++ rest) → Stops precedence rest →
    p.depth + expression.words.length ≤ p.options.maxNestingDepth →
    2 * expression.words.length < bound →
    Yields (descend (.operators precedence)) p (Answers p expression.tree)

/-- The words of an expression are behind. -/
theorem behind_expression {expression : Term} {field : Option String}
    (h : p.Before (expression.words ++ rest))
    (h' : Draws p (expression.tree.withField field) node q) : q.Before rest := by
  have hconsumes := h'.toCovers
  rw [Tree.leaves_withField] at hconsumes
  exact h.after hconsumes

/-- To consume words leaves as much room as there was. -/
theorem Room.after {count : Nat} {words : List Leaf} (h : Room p bound count)
    (h' : Consumes p words q) : Room q bound count := by
  obtain ⟨hdepth, hdescent⟩ := h
  rw [← h'.calm.depth, ← h'.calm.options] at hdepth
  exact ⟨hdepth, hdescent⟩

/-- There is room for a part of fewer words. -/
theorem Room.part {count count' : Nat} (h : Room p bound count) (hless : count' < count) :
    p.depth + count' ≤ p.options.maxNestingDepth ∧ 2 * count' < bound := by
  obtain ⟨hdepth, hdescent⟩ := h
  omega

/-- An operand goes into its field, and the rule goes on. -/
theorem yields_operand_words {α : Type} (hparses : Parses descend bound) {expression : Term}
    {precedence : Nat} (hwell : expression.WellFormed) (hstrong : precedence ≤ expression.strength)
    (h : p.Before (expression.words ++ rest)) (hstops : Stops precedence rest)
    (hroom : p.depth + expression.words.length ≤ p.options.maxNestingDepth ∧
      2 * expression.words.length < bound) {field : String} {f : Unit → Parse α}
    {post : α → Parser → Prop}
    (hafter : ∀ q, Writes p [expression.tree.withField (some field)] q → Yields (f ()) q post) :
    Yields (descend (.operators precedence) >>= fun part =>
        orMissing part field .expectedExpression >>= f) p post := by
  refine (hparses.operators expression precedence p rest hwell hstrong h hstops hroom.1
    hroom.2).bind ?_
  rintro (_ | node) q hq
  · exact hq.elim
  · exact (hq.into field).bind fun _ r hr => hafter r hr.writes

/-! ### Primary expressions -/

/-- A literal. -/
theorem yields_literal_word (value : Constant) (h : p.Before (value.word.token :: rest))
    (field : Option String) :
    Yields (literal field) p
      (Answers p ((Term.literal value).tree.withField field)) := by
  unfold literal
  refine .get ?_
  have hkind : p.kind = value.token := h.kind
  rw [hkind, value.isLiteral]
  refine (yields_start_word h.live h.context).bind ?_
  intro marker q hq
  have h := h.same hq.toCovers
  refine (yields_bump_word h value.word.spells.kind_ne_eof none).bind ?_
  intro _ r hr
  have hfits : (Term.literal value).tree.outline.Fits :=
    Outline.fits_of_literalKind? rfl value.isLiteral
  refine ((hq.writes hr).complete value.isNode hfits).bind ?_
  intro node s hs
  refine (hs.setField field).bind ?_
  rintro _ t ⟨rfl, ht⟩
  exact .pure ht

/-- Nothing is done where no literal stands. -/
theorem yields_literal_other (h : literalKind? p.kind = none) (field : Option String) :
    Yields (literal field) p fun answer q => answer = none ∧ q = p := by
  unfold literal
  refine .get ?_
  rw [h]
  exact .pure ⟨rfl, rfl⟩

/-- A value expression that has to be there. -/
theorem yields_expectValue_words (hparses : Parses descend bound) {expression : Term}
    (hwell : expression.WellFormed) (h : p.Before (expression.words ++ rest)) (hstops : Stops 0 rest)
    {count : Nat} (hroom : Room p bound count) (hcount : expression.words.length < count)
    (field : Option String) :
    Yields (expectValue descend field) p fun node q =>
      Draws p (expression.tree.withField field) node q := by
  obtain ⟨hdepth, hdescent⟩ := hroom
  unfold expectValue
  refine (hparses.value expression field p rest hwell h hstops (by omega) (by omega)).bind ?_
  rintro (_ | node) q hq
  · exact hq.elim
  · exact .pure hq

/-- `()` -/
theorem yields_parenthesized_unit
    (h : p.Before (Word.lParen.token :: Word.rParen.token :: rest)) :
    Yields (parenthesized descend) p fun node q => Draws p Term.unit.tree node q := by
  unfold parenthesized
  refine (yields_start_word h.live h.context).bind ?_
  intro marker q hq
  have h := h.same hq.toCovers
  refine (yields_bump_word h (by decide) none).bind ?_
  intro _ r hr
  have h := h.tail hr.toCovers
  refine .sees_true h.kind (.ite_true rfl ?_)
  refine (yields_bump_word h (by decide) none).bind ?_
  intro _ s hs
  exact ((hq.writes hr).writes hs).complete (by decide) (Outline.fits_of_isLoose rfl)

/-- An expression in parentheses. -/
theorem yields_parenthesized_words (hparses : Parses descend bound) {inner : Term}
    (hwell : inner.WellFormed) (h : p.Before ((Term.parenthesized inner).words ++ rest))
    {count : Nat} (hroom : Room p bound count)
    (hcount : (Term.parenthesized inner).words.length ≤ count) :
    Yields (parenthesized descend) p fun node q =>
      Draws p (Term.parenthesized inner).tree node q := by
  simp only [Term.words_parenthesized, List.cons_append, List.append_assoc, List.length_cons,
    List.length_append, List.nil_append] at h hcount
  unfold parenthesized
  refine (yields_start_word h.live h.context).bind ?_
  intro marker q hq
  have h := h.same hq.toCovers
  refine (yields_bump_word h (by decide) none).bind ?_
  intro _ r hr
  have hroom := (hroom.after hq.toCovers).after hr.toCovers
  have h := h.tail hr.toCovers
  -- No expression starts with a closing parenthesis.
  have hstart : r.kind ≠ .rParen := by
    intro hkind
    have hmem := firstKind_expression inner (Word.rParen.token :: rest)
    rw [← kind_expression h, hkind] at hmem
    exact absurd hmem (by decide)
  refine .sees_false hstart (.ite_false Bool.false_ne_true ?_)
  refine (yields_expectValue_words hparses hwell h (.of_closer (by decide)) hroom (by omega) _).bind
    ?_
  intro node s hs
  have h := behind_expression h hs
  refine (yields_expect_word h (by decide) none).bind ?_
  intro _ t ht
  exact (((hq.writes hr).writes hs.writes).writes ht).complete (by decide)
    (Outline.fits_of_isLoose rfl)

/-- What is called, and whose members are taken, innermost. -/
theorem yields_primary_words (hparses : Parses descend bound) {expression : Term}
    (hwell : expression.WellFormed) (hstrong : unaryPrecedence < expression.strength)
    (h : p.Before (expression.base.words ++ rest)) {count : Nat} (hroom : Room p bound count)
    (hcount : expression.base.words.length ≤ count) :
    Yields (primary descend) p (Answers p expression.base.tree) ∧
      takesPostfix expression.base.tree.kind = true := by
  -- The induction goes down to what members and calls are put around. Nothing that an operator
  -- holds together can be there, since `hstrong` says that the whole is held together more
  -- tightly.
  fun_induction Term.base expression with
  | case1 target name ih => exact ih hwell.2 hwell.1 h hcount
  | case2 callee arguments ih => exact ih hwell.2.1 hwell.1 h hcount
  | case3 expression hmember hcall =>
    unfold primary
    cases expression with
    | literal value =>
      refine ⟨?_, value.isPlain.2⟩
      refine (yields_literal_word value h none).bind ?_
      rintro (_ | node) q hq
      · exact hq.elim
      · exact .pure hq
    | identifier name =>
      have hkind : p.kind = .identifier := h.kind
      refine ⟨(yields_literal_other (by rw [hkind]; rfl) none).bind ?_, rfl⟩
      rintro _ _ ⟨rfl, rfl⟩
      refine .get ?_
      rw [hkind]
      refine (yields_start_word h.live h.context).bind ?_
      intro marker q hq
      refine (yields_bump_word (h.same hq.toCovers) (by decide) (some "name")).bind ?_
      intro _ r hr
      refine ((hq.writes hr).complete (by decide) (Outline.fits_of_isLoose rfl)).bind ?_
      exact fun node s hs => .pure hs
    | unit =>
      have hkind : p.kind = .lParen := h.kind
      refine ⟨(yields_literal_other (by rw [hkind]; rfl) none).bind ?_, rfl⟩
      rintro _ _ ⟨rfl, rfl⟩
      refine .get ?_
      rw [hkind]
      exact (yields_parenthesized_unit h).bind fun node q hq => .pure hq
    | parenthesized inner =>
      have hkind : p.kind = .lParen := h.kind
      refine ⟨(yields_literal_other (by rw [hkind]; rfl) none).bind ?_, rfl⟩
      rintro _ _ ⟨rfl, rfl⟩
      refine .get ?_
      rw [hkind]
      have hinner : inner.WellFormed := hwell
      exact (yields_parenthesized_words hparses hinner h hroom hcount).bind
        fun node q hq => .pure hq
    | member target name => exact absurd rfl (hmember target name)
    | call callee arguments => exact absurd rfl (hcall callee arguments)
    | negation => exact absurd hstrong (Nat.lt_irrefl _)
    | binary operator =>
      have hlt := (Outline.binaryPrecedence_bounds operator.binds).2
      exact absurd hstrong (Nat.not_lt.mpr hlt.le)
    | conditional =>
      exact absurd hstrong (show ¬ unaryPrecedence < conditionalPrecedence by decide)

/-! ### Calls and member access -/

/-- One more argument behind a comma, as the list of arguments reads it. -/
def furtherArgument (descend : Descent) : Parse Bool := do
  if !(← sees .comma) then return false
  bump
  let _ ← expectValue descend "argument"
  return true

/-- What follows an argument ends its value. -/
theorem stops_furtherWords {precedence : Nat} (arguments : List Term) :
    Stops precedence (Term.furtherWords arguments ++ Word.rParen.token :: rest) := by
  cases arguments with
  | nil => exact .of_closer (by decide)
  | cons next others =>
    rw [Term.furtherWords_cons]
    exact .of_closer (by decide)

/-- The arguments behind the first, one round for each. -/
theorem yields_furtherArguments (hparses : Parses descend bound) {arguments : List Term}
    (hwell : Term.AllWellFormed arguments)
    (h : p.Before (Term.furtherWords arguments ++ Word.rParen.token :: rest)) {count : Nat}
    (hroom : Room p bound count) (hcount : (Term.furtherWords arguments).length ≤ count)
    {fuel : Nat} (enough : arguments.length < fuel) :
    Yields (rounds (fun _ => do
        if ← furtherArgument descend then return .again () else return .done ()) fuel ()) p
      fun _ q => Writes p (Term.furtherTrees arguments) q := by
  -- Argument by argument: a round takes a comma and a value, and ends at the parenthesis.
  induction arguments generalizing p fuel with
  | nil =>
    obtain ⟨fuel, rfl⟩ : ∃ n, fuel = n + 1 := ⟨fuel - 1, by omega⟩
    have hend : Yields (furtherArgument descend) p fun again q => again = false ∧ q = p := by
      unfold furtherArgument
      have hkind : p.kind = .rParen := h.kind
      exact .sees_false (by rw [hkind]; decide) (.ite_true rfl (.pure ⟨rfl, rfl⟩))
    refine .rounds_done (hend.bind ?_)
    rintro _ _ ⟨rfl, rfl⟩
    exact .pure ⟨(), rfl, .nil h⟩
  | cons next others ih =>
    obtain ⟨fuel, rfl⟩ : ∃ n, fuel = n + 1 := ⟨fuel - 1, by omega⟩
    obtain ⟨hnext, hothers⟩ := hwell
    simp only [Term.furtherWords_cons, List.cons_append, List.append_assoc, List.length_cons,
      List.length_append] at h hcount enough
    have hstep : Yields (furtherArgument descend) p fun again q => again = true ∧
        Writes p [Word.comma.leaf, next.tree.withField (some "argument")] q ∧
        q.Before (Term.furtherWords others ++ Word.rParen.token :: rest) := by
      unfold furtherArgument
      refine .sees_true h.kind (.ite_false Bool.false_ne_true ?_)
      refine (yields_bump_word h (by decide) none).bind ?_
      intro _ q hq
      have h := h.tail hq.toCovers
      refine (yields_expectValue_words hparses hnext h (stops_furtherWords others)
        (hroom.after hq.toCovers) (by omega) _).bind ?_
      intro node r hr
      exact .pure ⟨rfl, hq.trans hr.writes, behind_expression h hr⟩
    refine .rounds_again (fun _ q =>
      Writes p [Word.comma.leaf, next.tree.withField (some "argument")] q ∧
        q.Before (Term.furtherWords others ++ Word.rParen.token :: rest)) (hstep.bind ?_) ?_
    · rintro _ q ⟨rfl, hq⟩
      exact .pure ⟨(), rfl, hq⟩
    · rintro _ q ⟨hq, h⟩
      refine (ih hothers h (hroom.after hq.toCovers) (by omega) (by omega)).mono ?_
      intro _ r hr
      exact hq.trans hr

/-- The arguments of a call, in their parentheses. -/
theorem yields_argumentList_words (hparses : Parses descend bound) {arguments : List Term}
    (hwell : Term.AllWellFormed arguments)
    (h : p.Before
      (Word.lParen.token :: (Term.argumentWords arguments ++ Word.rParen.token :: rest)))
    {count : Nat} (hroom : Room p bound count)
    (hcount : (Term.argumentWords arguments).length < count) :
    Yields (argumentList descend) p fun _ q =>
      Writes p [.node (some "arguments") .argumentList
        (Word.lParen.leaf :: (Term.argumentTrees arguments ++ [Word.rParen.leaf]))] q := by
  unfold argumentList
  refine (yields_start_word h.live h.context).bind ?_
  intro marker q hq
  have h := h.same hq.toCovers
  refine (yields_bump_word h (by decide) none).bind ?_
  intro _ r hr
  have h := h.tail hr.toCovers
  have hroom := (hroom.after hq.toCovers).after hr.toCovers
  -- Behind the arguments the list is closed.
  have hclose : ∀ s, Writes r (Term.argumentTrees arguments) s →
      Yields (do
        let _ ← expect .rParen
        (← marker.complete .argumentList).into "arguments") s fun _ t =>
          Writes p [.node (some "arguments") .argumentList
            (Word.lParen.leaf :: (Term.argumentTrees arguments ++ [Word.rParen.leaf]))] t := by
    intro s hs
    have h := h.after hs.toCovers
    refine (yields_expect_word h (by decide) none).bind ?_
    intro _ t ht
    have hlist := ((hq.writes hr).writes hs).writes ht
    rw [List.nil_append, List.append_assoc] at hlist
    refine (hlist.complete (by decide) (Outline.fits_of_isLoose rfl)).bind ?_
    intro node u hu
    exact (hu.into "arguments").mono fun _ v hv => hv.writes
  cases arguments with
  | nil => exact .sees_true h.kind (.ite_false Bool.false_ne_true (hclose r (.nil h)))
  | cons first others =>
    obtain ⟨hfirst, hothers⟩ := hwell
    simp only [Term.argumentWords_cons, List.append_assoc, List.length_append] at h hcount
    have hstart : r.kind ≠ .rParen := by
      intro hkind
      have hmem := firstKind_expression first
        (Term.furtherWords others ++ Word.rParen.token :: rest)
      rw [← kind_expression h, hkind] at hmem
      exact absurd hmem (by decide)
    refine .sees_false hstart (.ite_true rfl ?_)
    refine (yields_expectValue_words hparses hfirst h (stops_furtherWords others) hroom (by omega)
      _).bind ?_
    intro node s hs
    have h := behind_expression h hs
    have hfew := h.length_le fun word hmem => Term.isWord_of_mem_furtherWords others hmem
    have hfewer := Term.length_le_furtherWords others
    have hfurther : Yields (whileTrue (furtherArgument descend)) s fun _ t =>
        Writes s (Term.furtherTrees others) t := by
      unfold whileTrue loop
      exact .get (yields_furtherArguments hparses hothers h (hroom.after hs.toCovers) (by omega)
        (by omega))
    refine hfurther.bind ?_
    intro _ t ht
    exact hclose t (hs.writes.trans ht)

/-- A member access is put around what stands before it. -/
theorem yields_memberRound {target : Term} {name : Word .identifier}
    (hwell : (Term.member target name).WellFormed)
    (h : p.Before (target.words ++ Word.dot.token :: name.token :: rest))
    (hq : Draws p target.tree node q) :
    Yields (postfixRound descend node) q fun next r =>
      ∃ node', next = .again node' ∧ Draws p (Term.member target name).tree node' r := by
  have hkind : q.kind = .dot := (h.after hq.toCovers).kind
  unfold postfixRound
  refine .get ?_
  rw [hkind]
  refine (hq.into "target").bind ?_
  intro _ r hr
  have h := behind_expression h hr
  refine hr.precede.bind ?_
  rintro marker s ⟨hs, hsame⟩
  have h := h.same hsame
  refine (yields_bump_word h (by decide) none).bind ?_
  intro _ t ht
  have h := h.tail ht.toCovers
  refine .sees_true h.kind (.ite_true rfl ?_)
  refine (yields_bump_word h (by decide) (some "member")).bind ?_
  intro _ u hu
  refine (((hs.writes ht).writes hu).complete (by decide) hwell.fits).bind ?_
  exact fun node v hv => .pure ⟨node, rfl, hv⟩

/-- So is a call. -/
theorem yields_callRound (hparses : Parses descend bound) {callee : Term}
    {arguments : List Term} (hwell : (Term.call callee arguments).WellFormed)
    (h : p.Before ((Term.call callee arguments).words ++ rest)) {count : Nat}
    (hroom : Room p bound count) (hcount : (Term.call callee arguments).words.length ≤ count)
    (hq : Draws p callee.tree node q) :
    Yields (postfixRound descend node) q fun next r =>
      ∃ node', next = .again node' ∧ Draws p (Term.call callee arguments).tree node' r := by
  simp only [Term.words_call, List.append_assoc, List.cons_append, List.length_append,
    List.length_cons, List.nil_append] at h hcount
  have hkind : q.kind = .lParen := (h.after hq.toCovers).kind
  unfold postfixRound
  refine .get ?_
  rw [hkind]
  refine (hq.into "callee").bind ?_
  intro _ r hr
  have h := behind_expression h hr
  refine hr.precede.bind ?_
  rintro marker s ⟨hs, hsame⟩
  have h := h.same hsame
  have hroom := (hroom.after hr.toCovers).after hsame
  refine (yields_argumentList_words hparses hwell.2.2 h hroom (by omega)).bind ?_
  intro _ t ht
  refine ((hs.writes ht).complete (by decide) hwell.fits).bind ?_
  exact fun node v hv => .pure ⟨node, rfl, hv⟩

/-- From the expression that is called first to the last call, and on to
whatever rounds follow. The induction is on the expression, whose
outermost call comes last. -/
theorem yields_chain (hparses : Parses descend bound) {post : Completed → Parser → Prop}
    {count : Nat} (hroom : Room p bound count) (expression : Term) {rest : List Leaf}
    {fuel : Nat} {node : Completed} (hwell : expression.WellFormed)
    (h : p.Before (expression.words ++ rest)) (hcount : expression.words.length ≤ count)
    (enough : expression.words.length < fuel) (hbase : Draws p expression.base.tree node q)
    (hafter : ∀ node r fuel', fuel ≤ fuel' + expression.words.length →
      Draws p expression.tree node r → Yields (rounds (postfixRound descend) fuel' node) r post) :
    Yields (rounds (postfixRound descend) fuel node) q post := by
  fun_induction Term.base expression generalizing rest fuel node with
  | case1 target name ih =>
    simp only [Term.words_member, List.append_assoc, List.cons_append, List.nil_append,
      List.length_append, List.length_cons, List.length_nil] at h hcount enough hafter
    refine ih hwell.2 h (by omega) (by omega) hbase ?_
    intro node r fuel' hfuel hr
    obtain ⟨fuel', rfl⟩ : ∃ n, fuel' = n + 1 := ⟨fuel' - 1, by omega⟩
    refine .rounds_again _ (yields_memberRound hwell h hr) ?_
    exact fun node s hs => hafter node s fuel' (by omega) hs
  | case2 callee arguments ih =>
    have h' := h
    simp only [Term.words_call, List.append_assoc, List.length_append,
      List.length_cons] at h' enough hafter
    have hshort : callee.words.length < (Term.call callee arguments).words.length := by
      rw [Term.words_call, List.length_append, List.length_cons]
      omega
    refine ih hwell.2.1 h' (by omega) (by omega) hbase ?_
    intro node r fuel' hfuel hr
    obtain ⟨fuel', rfl⟩ : ∃ n, fuel' = n + 1 := ⟨fuel' - 1, by omega⟩
    refine .rounds_again _ (yields_callRound hparses hwell h hroom hcount hr) ?_
    exact fun node s hs => hafter node s fuel' (by omega) hs
  | case3 expression hmember hcall =>
    exact hafter node q fuel (by omega) hbase

/-- A primary expression with the calls and member accesses after it. -/
theorem yields_postfix_words (hparses : Parses descend bound) {expression : Term}
    (hwell : expression.WellFormed) (hstrong : unaryPrecedence < expression.strength)
    (h : p.Before (expression.words ++ rest)) {precedence : Nat} (hstops : Stops precedence rest)
    {count : Nat} (hroom : Room p bound count) (hcount : expression.words.length ≤ count) :
    Yields (postfixExpression descend) p (Answers p expression.tree) := by
  have hbase := h
  have hlength := congrArg List.length expression.words_eq_base
  rw [List.length_append] at hlength
  rw [expression.words_eq_base, List.append_assoc] at hbase
  obtain ⟨hprimary, htakes⟩ := yields_primary_words hparses hwell hstrong hbase hroom (by omega)
  unfold postfixExpression
  refine hprimary.bind ?_
  rintro (_ | node) q hq
  · exact hq.elim
  refine hq.kind.bind ?_
  rintro _ _ ⟨rfl, rfl⟩
  have hloop : Yields (loop (postfixRound descend) node) q fun node r =>
      Draws p expression.tree node r := by
    have hfew := h.length_le fun word hmem => expression.isWord_of_mem_words hmem
    have htext := hq.toCovers.text h.live
    unfold loop
    refine .get ?_
    rw [htext]
    refine yields_chain hparses hroom expression hwell h hcount (by omega) hq ?_
    intro node r fuel' hfuel hr
    obtain ⟨fuel', rfl⟩ : ∃ n, fuel' = n + 1 := ⟨fuel' - 1, by omega⟩
    have hkind := (h.after hr.toCovers).kind_of_ne_nil hstops.ne_nil
    -- Neither a dot nor a parenthesis follows.
    refine .rounds_done ?_
    unfold postfixRound
    refine .get ?_
    split
    · rename_i hdot
      exact absurd (hkind.symm.trans hdot) hstops.noDot
    · rename_i hparen
      exact absurd (hkind.symm.trans hparen) hstops.noParen
    · exact .pure ⟨node, rfl, hr⟩
  exact .ite_true htakes (hloop.bind fun node r hr => .pure hr)

/-! ### Operators -/

/-- A minus with its operand, which is one level of nesting further down. -/
theorem yields_negation_words (hparses : Parses descend bound) {operand : Term}
    (hwell : (Term.negation operand).WellFormed)
    (h : p.Before ((Term.negation operand).words ++ rest))
    (hstops : Stops unaryPrecedence rest) {count : Nat} (hroom : Room p bound count)
    (hcount : (Term.negation operand).words.length ≤ count) :
    Yields (nested (nestingTooDeep none) (negation descend)) p fun node q =>
      Draws p (Term.negation operand).tree node q := by
  rw [Term.words_negation, List.length_cons] at hcount
  rw [Term.words_negation, List.cons_append] at h
  obtain ⟨hdepth, hdescent⟩ := hroom
  have hnegation : Yields (negation descend) { p with depth := p.depth + 1 } fun node q =>
      Draws { p with depth := p.depth + 1 } (Term.negation operand).tree node q := by
    have h := h.deeper
    unfold negation
    refine (yields_start_word h.live h.context).bind ?_
    intro marker q hq
    have h := h.same hq.toCovers
    refine (yields_bump_word h (by decide) (some "operator")).bind ?_
    intro _ r hr
    have h := h.tail hr.toCovers
    have hway := hq.toCovers.trans hr.toCovers
    have hroom' : r.depth + operand.words.length ≤ r.options.maxNestingDepth ∧
        2 * operand.words.length < bound := by
      rw [hway.calm.depth, hway.calm.options]
      dsimp only
      omega
    refine yields_operand_words hparses hwell.2 hwell.1 h hstops hroom' ?_
    intro s hs
    exact ((hq.writes hr).writes hs).complete (by decide) hwell.fits
  -- The level that `nested` enters is left again behind the operand.
  unfold nested
  refine .enterNesting (by omega) (.ite_true rfl (.ensuring ?_))
  exact hnegation.mono fun node q hq => hq.nested

/-- An operand that no binary operator holds together. -/
theorem yields_unary_words (hparses : Parses descend bound) {expression : Term}
    (hwell : expression.WellFormed) (hstrong : unaryPrecedence ≤ expression.strength)
    (h : p.Before (expression.words ++ rest)) (hstops : Stops expression.strength rest) {count : Nat}
    (hroom : Room p bound count) (hcount : expression.words.length ≤ count) :
    Yields (unary descend) p (Answers p expression.tree) := by
  unfold unary
  by_cases htight : unaryPrecedence < expression.strength
  · have hstart : p.kind ≠ .minus := by
      rw [kind_expression h]
      exact firstKind_ne_minus hwell htight rest
    exact .sees_false hstart (.ite_false Bool.false_ne_true
      (yields_postfix_words hparses hwell htight h hstops hroom hcount))
  · cases expression with
    | negation operand =>
      have hkind : p.kind = .minus := h.kind
      refine .sees_true hkind (.ite_true rfl ?_)
      refine (yields_negation_words hparses hwell h hstops hroom hcount).bind ?_
      exact fun node q hq => .pure hq
    | binary operator =>
      have hlt := (Outline.binaryPrecedence_bounds operator.binds).2
      exact absurd hstrong (Nat.not_le.mpr hlt)
    | conditional =>
      exact absurd hstrong (show ¬ unaryPrecedence ≤ conditionalPrecedence by decide)
    | _ => exact absurd (Nat.lt_succ_self _) htight

/-- A binary operator is put around its left operand. -/
theorem yields_binaryRest_words (hparses : Parses descend bound) {operator : Operator}
    {left right : Term} (hwell : (Term.binary operator left right).WellFormed)
    (h : p.Before ((Term.binary operator left right).words ++ rest))
    (hstops : Stops (operator.precedence + 1) rest) {count : Nat} (hroom : Room p bound count)
    (hcount : (Term.binary operator left right).words.length ≤ count)
    (hq : Draws p left.tree node q) :
    Yields (binaryRest descend node operator.precedence) q fun node' r =>
      Draws p (Term.binary operator left right).tree node' r := by
  simp only [Term.words_binary, List.append_assoc, List.cons_append, List.length_append,
    List.length_cons] at h hcount
  unfold binaryRest
  refine (hq.into "left").bind ?_
  intro _ r hr
  have h := behind_expression h hr
  refine hr.precede.bind ?_
  rintro marker s ⟨hs, hsame⟩
  have h := h.same hsame
  have hroom := (hroom.after hr.toCovers).after hsame
  refine (yields_bump_word h operator.word.spells.kind_ne_eof (some "operator")).bind ?_
  intro _ t ht
  have h := h.tail ht.toCovers
  refine yields_operand_words hparses hwell.2.2.2 hwell.2.1 h hstops
    ((hroom.after ht.toCovers).part (by omega)) ?_
  intro u hu
  exact ((hs.writes ht).writes hu).complete (by decide) hwell.fits

/-- A conditional is put around its condition. -/
theorem yields_conditionalRest_words (hparses : Parses descend bound)
    {condition consequent alternative : Term}
    (hwell : (Term.conditional condition consequent alternative).WellFormed)
    (h : p.Before ((Term.conditional condition consequent alternative).words ++ rest))
    (hstops : Stops conditionalPrecedence rest) {count : Nat} (hroom : Room p bound count)
    (hcount : (Term.conditional condition consequent alternative).words.length ≤ count)
    (hq : Draws p condition.tree node q) :
    Yields (conditionalRest descend node) q fun node' r =>
      Draws p (Term.conditional condition consequent alternative).tree node' r := by
  simp only [Term.words_conditional, List.append_assoc, List.cons_append,
    List.length_append, List.length_cons] at h hcount
  obtain ⟨-, -, hconsequent, halternative⟩ := id hwell
  unfold conditionalRest
  -- The condition is in the record already. It gets its field, and the node is started in front
  -- of it.
  refine (hq.into "condition").bind ?_
  intro _ r hr
  have h := behind_expression h hr
  refine hr.precede.bind ?_
  rintro marker s ⟨hs, hsame⟩
  have h := h.same hsame
  have hroom := (hroom.after hr.toCovers).after hsame
  refine (yields_bump_word h (by decide) none).bind ?_
  intro _ t ht
  have h := h.tail ht.toCovers
  have hroom := hroom.after ht.toCovers
  refine (yields_expectValue_words hparses hconsequent h (.of_closer (by decide)) hroom (by omega)
    "consequent").bind ?_
  intro _ u hu
  have h := behind_expression h hu
  have hroom := hroom.after hu.toCovers
  refine (yields_expect_word h (by decide) none).bind ?_
  intro _ v hv
  have h := h.tail hv.toCovers
  refine yields_operand_words hparses halternative alternative.conditionalPrecedence_le h hstops
    ((hroom.after hv.toCovers).part (by omega)) ?_
  intro w hw
  exact ((((hs.writes ht).writes hu.writes).writes hv).writes hw).complete (by decide) hwell.fits

/-- An operator that the expression is not held together by may follow,
if it is not one that its last operand would take. -/
theorem Stops.of_operator {precedence binding : Nat} {word : Leaf}
    (h : Outline.binding? word.lexed.kind = some binding) (hless : binding < precedence) :
    Stops precedence (word :: rest) := by
  have hkind : Leaf.firstKind (word :: rest) = word.lexed.kind := rfl
  refine ⟨List.cons_ne_nil _ _, ?_, ?_, ?_⟩
  · rw [hkind]
    intro hdot
    rw [hdot] at h
    cases h
  · rw [hkind]
    intro hparen
    rw [hparen] at h
    cases h
  · rw [hkind, h]
    rintro _ ⟨⟩
    exact hless

/-- What ends an expression ends its leftmost operand, with the rest of
the expression between them. -/
theorem stops_head {expression : Term} {rest : List Leaf} (hwell : expression.WellFormed)
    (hstops : Stops expression.ending rest) :
    Stops expression.head.strength (expression.behindHead ++ rest) := by
  fun_induction Term.head expression generalizing rest with
  | case1 operator left right ih =>
    rw [Term.behindHead, List.append_assoc]
    exact ih hwell.2.2.1 (.of_operator operator.binding? (left.lt_ending operator hwell.1))
  | case2 condition consequent alternative ih =>
    rw [Term.behindHead, List.append_assoc]
    exact ih hwell.2.1 (.of_operator rfl (hwell.1.trans_le condition.strength_le_ending))
  | case3 expression hbinary hconditional =>
    cases expression with
    | binary operator left right => exact absurd rfl (hbinary operator left right)
    | conditional condition consequent alternative =>
      exact absurd rfl (hconditional condition consequent alternative)
    | _ => exact hstops

/-- From the leftmost operand to the whole expression, and on to whatever
rounds follow. The induction is on the expression, whose operator comes
last: the operators to the left of it were put in by the rounds
before. -/
theorem yields_climb (hparses : Parses descend bound) {post : Completed → Parser → Prop}
    {precedence count : Nat} (hroom : Room p bound count) (expression : Term)
    {rest : List Leaf} {fuel : Nat} {node : Completed} (hwell : expression.WellFormed)
    (hstrong : precedence ≤ expression.strength) (h : p.Before (expression.words ++ rest))
    (hstops : Stops expression.ending rest) (hcount : expression.words.length ≤ count)
    (enough : expression.words.length < fuel) (hhead : Draws p expression.head.tree node q)
    (hafter : ∀ node r fuel', fuel ≤ fuel' + expression.words.length →
      Draws p expression.tree node r →
      Yields (rounds (operatorRound descend precedence) fuel' node) r post) :
    Yields (rounds (operatorRound descend precedence) fuel node) q post := by
  -- The loop puts operators around its first operand from the inside out, and the term has them
  -- from the outside in. So the induction goes down to the leftmost operand, and what is to be
  -- shown of the loop behind it is kept as `hafter`.
  fun_induction Term.head expression generalizing rest fuel node with
  | case1 operator left right ih =>
    have h' := h
    have hcount' := hcount
    simp only [Term.words_binary, List.append_assoc, List.cons_append, List.length_append,
      List.length_cons] at h' hcount' enough hafter
    refine ih hwell.2.2.1 (hstrong.trans hwell.1) h'
      (.of_operator operator.binding? (left.lt_ending operator hwell.1)) (by omega) (by omega)
      hhead ?_
    intro node r fuel' hfuel hr
    obtain ⟨fuel', rfl⟩ : ∃ n, fuel' = n + 1 := ⟨fuel' - 1, by omega⟩
    refine .rounds_again (fun node s => Draws p (Term.binary operator left right).tree node s)
      ?_ fun node s hs => hafter node s fuel' (by omega) hs
    have hkind : r.kind = operator.token := (h'.after hr.toCovers).kind
    unfold operatorRound
    refine .get ?_
    dsimp only
    -- The operator binds no looser than `precedence`, so the round takes it.
    rw [hkind, operator.binds]
    refine .ite_false operator.token_ne_question (.ite_false (Nat.not_lt.mpr hstrong) ?_)
    refine (yields_binaryRest_words hparses hwell h hstops hroom hcount hr).bind ?_
    exact fun node s hs => .pure ⟨node, rfl, hs⟩
  | case2 condition consequent alternative ih =>
    have h' := h
    have hcount' := hcount
    simp only [Term.words_conditional, List.append_assoc, List.cons_append,
      List.length_append, List.length_cons] at h' hcount' enough hafter
    refine ih hwell.2.1 (hstrong.trans hwell.1.le) h'
      (.of_operator rfl (hwell.1.trans_le condition.strength_le_ending)) (by omega) (by omega)
      hhead ?_
    intro node r fuel' hfuel hr
    obtain ⟨fuel', rfl⟩ : ∃ n, fuel' = n + 1 := ⟨fuel' - 1, by omega⟩
    refine .rounds_again
      (fun node s => Draws p (Term.conditional condition consequent alternative).tree node s)
      ?_ fun node s hs => hafter node s fuel' (by omega) hs
    have hkind : r.kind = .question := (h'.after hr.toCovers).kind
    unfold operatorRound
    refine .get (.ite_true hkind (.ite_false (Nat.not_lt.mpr hstrong) ?_))
    refine (yields_conditionalRest_words hparses hwell h hstops hroom hcount hr).bind ?_
    exact fun node s hs => .pure ⟨node, rfl, hs⟩
  | case3 expression hbinary hconditional =>
    exact hafter node q fuel (by omega) hhead

/-- The loop over operators ends where no operator follows that binds so
tightly. -/
theorem yields_operatorRound_done {precedence : Nat}
    (h : ∀ binding ∈ Outline.binding? q.kind, binding < precedence) :
    Yields (operatorRound descend precedence node) q fun next r =>
      ∃ node', next = .done node' ∧ node' = node ∧ r = q := by
  unfold operatorRound
  refine .get ?_
  dsimp only
  unfold Outline.binding? at h
  by_cases hquestion : q.kind = .question
  · rw [if_pos hquestion] at h
    exact .ite_true hquestion (.ite_true (h _ rfl) (.pure ⟨node, rfl, rfl, rfl⟩))
  · rw [if_neg hquestion] at h
    refine .ite_false hquestion ?_
    cases hbinding : binaryPrecedence? q.kind with
    | none => exact .pure ⟨node, rfl, rfl, rfl⟩
    | some binding => exact .ite_true (h binding hbinding) (.pure ⟨node, rfl, rfl, rfl⟩)

/-- An expression with its operators. -/
theorem yields_operators_words (hparses : Parses descend bound) {expression : Term}
    {precedence : Nat} (hwell : expression.WellFormed) (hstrong : precedence ≤ expression.strength)
    (h : p.Before (expression.words ++ rest)) (hstops : Stops precedence rest)
    (hroom : Room p bound expression.words.length) :
    Yields (operators descend precedence) p (Answers p expression.tree) := by
  -- What stops the loop at this precedence stops the expression by itself.
  have hending : Stops expression.ending rest :=
    ⟨hstops.ne_nil, hstops.noDot, hstops.noParen, fun binding hbinding =>
      (hstops.looser binding hbinding).trans_le (hstrong.trans expression.strength_le_ending)⟩
  have hhead := h
  have hlength := congrArg List.length expression.words_eq_head
  rw [List.length_append] at hlength
  rw [expression.words_eq_head, List.append_assoc] at hhead
  obtain ⟨hwell', hstrong'⟩ := hwell.head
  unfold operators
  refine (yields_unary_words hparses hwell' hstrong' hhead (stops_head hwell hending) hroom
    (by omega)).bind ?_
  rintro (_ | node) q hq
  · exact hq.elim
  refine hq.kind.bind ?_
  rintro _ _ ⟨rfl, rfl⟩
  have hloop : Yields (loop (operatorRound descend precedence) node) q fun node r =>
      Draws p expression.tree node r := by
    have hfew := h.length_le fun word hmem => expression.isWord_of_mem_words hmem
    have htext := hq.toCovers.text h.live
    unfold loop
    refine .get ?_
    rw [htext]
    -- All operators of the expression are taken, and then the loop ends at the token behind it.
    refine yields_climb hparses hroom expression hwell hstrong h hending le_rfl (by omega) hq ?_
    intro node r fuel' hfuel hr
    obtain ⟨fuel', rfl⟩ : ∃ n, fuel' = n + 1 := ⟨fuel' - 1, by omega⟩
    have hkind := (h.after hr.toCovers).kind_of_ne_nil hstops.ne_nil
    refine .rounds_done ((yields_operatorRound_done (hkind ▸ hstops.looser)).mono ?_)
    rintro next _ ⟨node', rfl, rfl, rfl⟩
    exact ⟨node', rfl, hr⟩
  refine .ite_false ?_ (hloop.bind fun node r hr => .pure hr)
  rw [expression.head.isOperand_tree]
  exact Bool.false_ne_true

/-! ### Values, and the recursion -/

/-- A value, which is one level of nesting. -/
theorem yields_value_words (hparses : Parses descend bound) {expression : Term}
    (hwell : expression.WellFormed) (h : p.Before (expression.words ++ rest)) (hstops : Stops 0 rest)
    (hdepth : p.depth + expression.words.length < p.options.maxNestingDepth)
    (hdescent : 2 * expression.words.length < bound) (field : Option String) :
    Yields (value descend field) p (Answers p (expression.tree.withField field)) := by
  have hstart : p.kind ∈ expressionStart := by
    rw [kind_expression h]
    exact firstKind_expression expression rest
  have hinside : Yields (descend (.operators 0)) { p with depth := p.depth + 1 }
      (Answers { p with depth := p.depth + 1 } expression.tree) :=
    hparses.operators expression 0 _ rest hwell (Nat.zero_le _) h.deeper hstops
      (by dsimp only; omega) hdescent
  unfold value
  refine .seesAny_true hstart (.ite_false Bool.false_ne_true ?_)
  refine .enterNesting (by omega) (.ite_false Bool.false_ne_true ?_)
  have hvalue : Yields (ensuring Parser.leaveNesting (descend (.operators 0)))
      { p with depth := p.depth + 1 } (Answers p expression.tree) := by
    refine .ensuring (hinside.mono ?_)
    rintro (_ | node) q hq
    · exact hq
    · exact hq.nested
  refine hvalue.bind ?_
  rintro (_ | node) q hq
  · exact hq.elim
  refine (hq.setField field).bind ?_
  rintro _ r ⟨rfl, hr⟩
  exact .pure hr

/-- One more level of the descent reads expressions that ask for one
more. -/
theorem Parses.step (h : Parses descend bound) : Parses (step descend) (bound + 1) where
  value expression field p rest hwell hbefore hstops hdepth hdescent :=
    yields_value_words h hwell hbefore hstops hdepth (by omega) field
  operators expression precedence p rest hwell hstrong hbefore hstops hdepth hdescent :=
    yields_operators_words h hwell hstrong hbefore hstops ⟨hdepth, by omega⟩

/-- A descent to depth `n` reads the expressions that ask for less. The
induction is on the depth; at depth zero there is no room for any. -/
theorem parses_descentTo (n : Nat) : Parses (descentTo n) n := by
  induction n with
  | zero => exact ⟨fun _ _ _ _ _ _ _ _ h => absurd h (Nat.not_lt_zero _),
      fun _ _ _ _ _ _ _ _ _ h => absurd h (Nat.not_lt_zero _)⟩
  | succ n ih => exact ih.step

/-- The descent that the source allows reads every expression that stands
in the source. -/
theorem parses_descent (bound : Nat) : Parses descent bound := by
  constructor
  · intro expression field p rest hwell h hstops hdepth _
    have hfew := h.length_le fun word hmem => expression.isWord_of_mem_words hmem
    exact .get ((parses_descentTo _).value expression field p rest hwell h hstops hdepth (by omega))
  · intro expression precedence p rest hwell hstrong h hstops hdepth _
    have hfew := h.length_le fun word hmem => expression.isWord_of_mem_words hmem
    exact .get ((parses_descentTo _).operators expression precedence p rest hwell hstrong h hstops
      hdepth (by omega))

end MarkupSyntax.Grammar
