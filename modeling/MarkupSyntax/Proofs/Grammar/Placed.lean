import MarkupSyntax.Proofs.Grammar.Bodies
import MarkupSyntax.Proofs.Grammar.Forms
import MarkupSyntax.Proofs.Grammar.SimpleDefinition

/-!
# `MarkupSyntax.Proofs.Grammar.Placed`: control constructs where they may stand

A construct of values stands in the braces of a definition, one of
elements in the body of an element, and one of properties in a tag. Each
place is read by rules of its own, which come to the construct in the
context of that place and look at the words at its start first
(`yields_valueDefinition_spread`, `yields_elementContent_construct`,
`yields_propertyList_construct`).

A construct that is read as the body of an element may turn out to be
text: that is so if there is an error in its head. Errors count wherever
they are, also in what was read ahead. So the text behind the body must be
without fault, too (`hasErrorsSince_eq_false`).
-/

set_option autoImplicit false

namespace MarkupSyntax

open Grammar

/-- A value in the braces of a definition. -/
def Tree.inBraces (value : Tree) : Tree :=
  .node (some "value") .interpolationExpression [Word.lBrace.leaf, value, Word.rBrace.leaf]

/-! ### Constructs as texts -/

namespace Construct

variable {domain : Domain} {context : LexContext}

/-- The word that the construct starts with, as it is read in a context. -/
def keywordToken (construct : Construct domain) (context : LexContext) : Lexed :=
  match construct with
  | forLoop .. => ⟨context, .forKeyword, Word.forKeyword.text⟩
  | _ => ⟨context, .ifKeyword, Word.ifKeyword.text⟩

variable (construct : Construct domain)

/-- The keyword of a construct is read in the context that is given. -/
theorem context_keywordToken : (construct.keywordToken context).context = context := by
  cases construct <;> rfl

/-- It is `if` or `for`. -/
theorem kind_keywordToken_mem :
    (construct.keywordToken context).kind ∈ [TokenKind.ifKeyword, .forKeyword] := by
  cases construct with
  | forLoop => exact List.mem_cons_of_mem _ (List.mem_singleton_self _)
  | ifSimple => exact List.mem_cons_self
  | ifMatch => exact List.mem_cons_self
  | ifConditionList => exact List.mem_cons_self

/-- Its leaf is the first one of the construct. -/
theorem leaf_keywordToken : (construct.keywordToken context).leaf none = construct.keyword := by
  cases construct <;> rfl

/-- The word is a keyword in a tag, too. -/
theorem solo_keywordToken (hcode : context = .normal ∨ context = .tag) :
    (construct.keywordToken context).Solo := by
  have hword : ∀ {kind : TokenKind} (word : Word kind), kind ∈ literalTokens ++ markupNameTokens →
      (⟨context, kind, word.text⟩ : Lexed).Solo := by
    intro kind word hkind
    refine ⟨hcode, ?_, word.spells.solid⟩
    rcases hcode with rfl | rfl
    · exact word.spells.splits
    · exact word.spells.splits_tag hkind
  cases construct with
  | forLoop => exact hword Word.forKeyword (by decide)
  | ifSimple => exact hword Word.ifKeyword (by decide)
  | ifMatch => exact hword Word.ifKeyword (by decide)
  | ifConditionList => exact hword Word.ifKeyword (by decide)

/-- A construct ends with a brace. -/
theorem exists_parts_eq : ∃ front, construct.parts = front ++ [Word.rBrace.leaf] := by
  cases construct with
  | ifSimple condition body otherwise =>
    cases otherwise with
    | none => exact ⟨[condition.tree "condition", Word.lBrace.leaf, body.tree "then"], rfl⟩
    | some other =>
      exact ⟨condition.tree "condition" :: (body.braced "then" ++
        [Word.elseKeyword.leaf, Word.lBrace.leaf, other.tree "else"]), rfl⟩
  | ifMatch scrutinee arms =>
    refine ⟨scrutineeTrees scrutinee ++ Word.isKeyword.leaf :: Word.lBrace.leaf :: arms.trees, ?_⟩
    simp [parts, Arms.braced]
  | ifConditionList scrutinee arms =>
    refine ⟨scrutineeTrees scrutinee ++ Word.lBrace.leaf :: arms.trees, ?_⟩
    simp [parts, Arms.braced]
  | forLoop item index iterable body =>
    refine ⟨item.leaf (some "item") :: (indexTrees index ++ [Word.inKeyword.leaf,
      iterable.tree "iterable", Word.lBrace.leaf, body.tree "body"]), ?_⟩
    simp [parts, Body.braced]

/-- Behind the word that a construct starts with stands another one, which
is no `=`. -/
theorem exists_leaves_parts :
    ∃ word words, Tree.leavesList construct.parts = word :: words ∧ word.IsPart := by
  have hexpression : ∀ (expression : ProperTerm) (into : String) (rest : List Tree),
      ∃ word words, Tree.leavesList (expression.tree into :: rest) = word :: words ∧
        word.IsPart := by
    intro expression into rest
    obtain ⟨word, words, hwords⟩ := List.exists_cons_of_ne_nil (words_ne_nil expression.term)
    refine ⟨word, words ++ Tree.leavesList rest, ?_, ?_⟩
    · rw [Tree.leavesList, ProperTerm.tree, Tree.leaves_withField, ← Term.words, hwords,
        List.cons_append]
    · exact expression.term.isPart_of_mem_words (by rw [hwords]; exact List.mem_cons_self)
  cases construct with
  | ifSimple condition => exact hexpression condition "condition" _
  | ifMatch scrutinee =>
    cases scrutinee with
    | none => exact ⟨_, _, rfl, Word.isKeyword.isPart (by decide)⟩
    | some scrutinee => exact hexpression scrutinee "scrutinee" _
  | ifConditionList scrutinee =>
    cases scrutinee with
    | none => exact ⟨_, _, rfl, Word.lBrace.isPart (by decide)⟩
    | some scrutinee => exact hexpression scrutinee "scrutinee" _
  | forLoop item => exact ⟨_, _, rfl, item.isPart (by decide)⟩

/-- The tokens of the construct with single spaces between them. -/
def text : Text := Text.spaced ((construct.tree none).leaves.map (·.text))

/-- A construct is written as its keyword, without a space in front, and its
other parts. -/
theorem text_eq (context : LexContext) : construct.text =
    (construct.keywordToken context).text ++ Tree.spreadList construct.parts := by
  have hleaves : (construct.tree none).leaves =
      (construct.keywordToken context).word :: Tree.leavesList construct.parts := by
    cases construct <;> rfl
  rw [text, hleaves]
  exact Leaf.spaced_map_cons _ _

/-- A construct is spread as its keyword and its other parts. -/
theorem spread_tree (context : LexContext) (field : Option String) : (construct.tree field).spread =
    ((construct.keywordToken context).leaf none).spread ++ Tree.spreadList construct.parts := by
  rw [leaf_keywordToken, tree, Tree.spread_node, Tree.spreadList_cons]

/-- Spread, it has another space in front. -/
theorem spread_tree_eq (field : Option String) :
    (construct.tree field).spread = CodePoint.ofChar ' ' :: construct.text := by
  rw [spread_tree construct .normal, Lexed.spread_leaf, List.cons_append, ← text_eq]

/-- Behind the keyword stands a space. -/
theorem loose_parts (rest : Text) : (Tree.spreadList construct.parts ++ rest).Loose := by
  obtain ⟨word, words, hwords, -⟩ := construct.exists_leaves_parts
  rw [Tree.spreadList, hwords]
  exact Text.loose_space _

/-- The first word is read as a token by itself. -/
theorem scans_text (rest : Text) : Scans .normal (construct.text ++ rest) []
    (construct.keywordToken .normal).kind (construct.keywordToken .normal).text
    (Tree.spreadList construct.parts ++ rest) := by
  have hsolo : (construct.keywordToken .normal).Solo := construct.solo_keywordToken (.inl rfl)
  have hscan := Scans.token (hsolo.splits.behind hsolo.code hsolo.solid
    (construct.loose_parts rest).head?) hsolo.solid
  rwa [construct.context_keywordToken, ← List.append_assoc, ← construct.text_eq] at hscan

/-- The words of a construct are read in front of everything. -/
theorem lexes_text {tokens : List Lexed} (h : Lexed.Spell tokens (construct.tree none).leaves)
    (rest : Text) : Lexes (construct.text ++ rest) tokens rest := by
  obtain ⟨front, hfront⟩ := construct.exists_parts_eq
  have hparts : Tree.leavesList construct.parts = Tree.leavesList front ++ [Word.rBrace.token] := by
    rw [hfront, Tree.leavesList_append]
    rfl
  have hleaves : (construct.tree none).leaves = (construct.keywordToken .normal).word ::
      (Tree.leavesList front ++ [Word.rBrace.token]) := by
    rw [← hparts]
    cases construct <;> rfl
  rw [hleaves] at h
  rw [text_eq construct .normal, Tree.spreadList, hparts, List.append_assoc]
  exact h.lexes_spaced rfl rest

/-- The construct in the braces of a definition. -/
def interpolationTree (construct : Construct .value) : Tree :=
  .node (some "value") .interpolationExpression
    [Word.lBrace.leaf, construct.tree (some "value"), Word.rBrace.leaf]

/-- The construct as the body of an element. -/
def contentTree (construct : Construct .elements) : Tree :=
  .node (some "content") .elementsExpression [construct.tree none]

end Construct

/-- Where nothing is wrong with what may have been read ahead, the lexer has
reported no more than up to the current token. -/
theorem Parser.At.lexerDiagnostics_of_clean {p : Parser} {seam : Seam} {gap : List (TriviaKind × Text)}
    {kind : TokenKind} {first behind : Text} (h : p.At seam)
    (hscan : Scans p.context seam.behind gap kind first behind) (hclean : behind.Clean) :
    p.source.lexerDiagnostics = seam.lexer.diagnostics := by
  obtain ⟨count, hbuffer⟩ := h.stands.buffer
  have hpass : (seam.pass p.context).lexer.behind.Clean := by
    have hbehind : (seam.pass p.context).lexer.behind = behind := Seam.behind_pass_of_scans h.inside hscan
    rwa [hbehind]
  show p.source.buffer.lexer.diagnostics = _
  rw [hbuffer]
  exact (Lexer.diagnostics_stream_of_clean hpass count).trans
    (Seam.diagnostics_pass_of_scans h.inside hscan)

namespace Grammar

open Parse

variable {p q r : Parser} {descend : Descent} {n total : Nat} {context : LexContext} {rest : Text}
  {domain : Domain}

/-- A text is read as one tree, and in front of a rest. -/
def ReadsAs (text : Text) (tree : Tree) (rest : Text) (p : Parser) (node : Completed) (q : Parser) :
    Prop :=
  ∃ tokens, Lexes text tokens rest ∧ tokens.map (·.text) = tree.leaves.map (·.text) ∧
    Shapes p tokens tree node .normal q

/-- A construct with a space in front of it. -/
theorem yields_construct_spread (hbound : 4 * total + 2 < n) {construct : Construct domain}
    (h : Awaits p total context ((construct.tree none).spread ++ rest))
    (hcode : context = .normal ∨ context = .tag) (hmemo : p.memo = [])
    (hrest : construct.IsOpen → NoElse rest) :
    Yields (constructRule (descentTo n) construct) p
      (Builds p (construct.tree none) total rest) := by
  have hcontext : (construct.keywordToken context).context = context :=
    construct.context_keywordToken
  have hsolo := construct.solo_keywordToken hcode
  refine yields_construct_written hbound construct (by rwa [hcontext]) hsolo
    construct.leaf_keywordToken ?_ hmemo hrest
  rw [construct.spread_tree context, List.append_assoc]
  exact (Lexed.Spell.singleton hsolo none).lexes (construct.loose_parts rest)

/-- Where a construct is written the current token is its keyword. -/
theorem kind_of_construct {construct : Construct domain}
    (h : Awaits p total context ((construct.tree none).spread ++ rest))
    (hcode : context = .normal ∨ context = .tag) : p.kind = (construct.keywordToken context).kind := by
  have hfaces := h.faces
  rw [construct.spread_tree context, List.append_assoc] at hfaces
  exact hfaces.kind_solo (construct.solo_keywordToken hcode) (construct.loose_parts rest)
    (h.context.trans construct.context_keywordToken.symm)

/-! ### Constructs of values -/

section Value

variable {construct : Construct .value}

/-- A construct of values is read as its tree where a primary expression is
expected. One without `else` is open, and must not have one behind it. -/
theorem yields_primary_construct (hbound : 4 * total + 2 < n)
    (h : Awaits p total .normal ((construct.tree none).spread ++ rest)) (hmemo : p.memo = [])
    (hrest : construct.IsOpen → NoElse rest) :
    Yields (primary (descentTo n)) p (CastsSome p (construct.tree none) .normal) := by
  have hrule := yields_construct_spread hbound h (.inl rfl) hmemo hrest
  have hkind := kind_of_construct h (.inl rfl)
  unfold primary
  refine (yields_literal_other (by rw [hkind]; cases construct <;> rfl) none).bind_known (.get ?_)
  rw [hkind]
  cases construct <;> exact hrule.bind fun node q hq => .pure ⟨node, rfl, hq.1⟩

/-- A construct is a value, which is one level of nesting. -/
theorem yields_value_construct (hbound : 4 * total + 2 < n)
    (h : Awaits { p with depth := p.depth + 1 } total .normal ((construct.tree none).spread ++ rest))
    (hmemo : p.memo = []) (hrest : construct.IsOpen → NoElse rest) (field : Option String) :
    Yields (descentTo (n + 2) (.value field)) p (CastsSome p (construct.tree field) .normal) := by
  have hstart : ∀ kind ∈ [TokenKind.ifKeyword, .forKeyword], kind ∈ expressionStart ∧
      kind ≠ .minus := by decide
  obtain ⟨hstart, hminus⟩ := hstart _ construct.kind_keywordToken_mem
  have hkind := kind_of_construct h (.inl rfl)
  change p.kind = _ at hkind
  rw [← hkind] at hstart hminus
  have hdepth : p.depth + 1 + (Parser.room { p with depth := p.depth + 1 } : Nat) ≤
    p.options.maxNestingDepth := h.depth
  exact yields_value_plain hstart hminus (by omega) (by cases construct <;> rfl)
    (by cases construct <;> rfl) (yields_primary_construct hbound h hmemo hrest) field

end Value

/-- A value in braces. -/
theorem yields_interpolation_spread {tree : Tree}
    (h : Awaits p total .normal
      (Word.lBrace.leaf.spread ++ (tree.spread ++ (Word.rBrace.leaf.spread ++ rest))))
    (hvalue : ∀ q, Calm p q → q.memo = p.memo →
      Awaits q total .normal (tree.spread ++ (Word.rBrace.leaf.spread ++ rest)) →
      Yields (expectValue descend "value") q fun _ r => Enters q [tree] .normal r)
    (field : Option String) :
    Yields (interpolation descend field) p fun node q => Casts p
      (.node field .interpolationExpression [Word.lBrace.leaf, tree, Word.rBrace.leaf]) node .normal
      q := by
  have hloose := Tree.loose_spread tree (Word.rBrace.loose none rest)
  have hinside : Yields (interpolationAs descend .interpolationExpression .normal) p fun node q =>
      Casts p (.node none .interpolationExpression [Word.lBrace.leaf, tree, Word.rBrace.leaf]) node
        .normal q := by
    have h : Awaits p total Word.lBrace.lexed.context _ := h
    unfold interpolationAs
    refine yields_keyword h ((Lexed.Spell.singleton Word.lBrace.solo none).lexes hloose)
      Word.lBrace.solo fun marker q hq h hmemo => ?_
    refine (hvalue q hq.calm hmemo h).bind ?_
    intro _ r hr
    refine (yields_expect_rBrace (h.enters_one hr (Word.rBrace.loose none rest))).bind ?_
    rintro _ s ⟨hs, -⟩
    exact ((hq.enters hr).enters hs).complete (by decide) rfl
  unfold interpolation
  refine hinside.bind ?_
  intro node q hq
  refine (hq.setField field).mono ?_
  rintro _ r ⟨rfl, hr⟩
  exact hr

/-- `let name = value` -/
theorem yields_valueDefinition_spread {name : Word .identifier} {value : Tree} {text : Text}
    (h : Awaits p total .normal text)
    (hlexes : Lexes text [Word.letKeyword.lexed] ((name.leaf (some "name")).spread ++
      (Word.equal.leaf.spread ++ (value.spread ++ rest))))
    (hloose : (value.spread ++ rest).Loose)
    (hvalue : ∀ q, Calm p q → q.memo = p.memo → Awaits q total .normal (value.spread ++ rest) →
      Yields (rightSide descend (some "value")) q fun _ r => Enters q [value] .normal r) :
    Yields (valueDefinition descend) p fun node q => Casts p
      (.node none .valueDefinition
        [Word.letKeyword.leaf, name.leaf (some "name"), Word.equal.leaf, value]) node .normal q := by
  have h : Awaits p total Word.letKeyword.lexed.context text := h
  unfold valueDefinition
  refine yields_keyword h hlexes Word.letKeyword.solo fun marker q hq h hmemo => ?_
  refine (yields_expectNameInto_written h (Word.equal.loose none _)).bind ?_
  rintro _ r ⟨hr, h, hmemo'⟩
  have hannotation : Yields ( typeAnnotation "type") r fun _ s => s = r := by
    unfold typeAnnotation
    have hkind : r.kind = .equal := kind_of_code h.faces hloose h.context
    refine (yields_eat_other (by rw [hkind]; decide) .normal none).bind ?_
    rintro _ _ ⟨rfl, rfl⟩
    exact .ite_false Bool.false_ne_true (.pure rfl)
  refine hannotation.bind ?_
  rintro _ _ rfl
  refine (yields_expect_code h.faces hloose h.context .normal).bind ?_
  rintro _ s ⟨-, hs, hfaces, hmemo''⟩
  have h := h.later hs.calm hs.way hfaces hs.context_eq
  refine (hvalue s ((hq.calm.trans hr.calm).trans hs.calm) (hmemo''.trans (hmemo'.trans hmemo))
    h).bind ?_
  intro _ t ht
  exact (((hq.enters hr).enters hs).enters ht).complete (by decide) rfl

/-- A value is read as this tree in the braces of a definition, where no more
was decided than at a state. -/
def ReadsInBraces (total : Nat) (p : Parser) (value : Tree) (rest : Text) : Prop :=
  ∀ q, q.memo = p.memo →
    Awaits { q with depth := q.depth + 1 } total .normal
      (value.spread ++ (Word.rBrace.leaf.spread ++ rest)) →
      Yields (descentTo (4 * total + 8) (.value (some "value"))) q (CastsSome q value .normal)

/-- That a value in braces is read as a tree depends on the state only by what
it remembers. -/
theorem ReadsInBraces.of_memo {value : Tree} (h : ReadsInBraces total p value rest)
    (hmemo : q.memo = p.memo) : ReadsInBraces total q value rest :=
  fun r hr => h r (hr.trans hmemo)

/-- In the braces of a definition a construct is read as its tree. The closing
brace is no `else`, so an open one may stand there. -/
theorem readsInBraces_construct {construct : Construct .value} (hmemo : p.memo = []) :
    ReadsInBraces total p (construct.tree (some "value")) rest := by
  intro q hsame h
  have hnext : NoElse (Word.rBrace.leaf.spread ++ rest) :=
    ⟨_, _, _, _, scans_rBrace (.inl rfl) rest, by decide⟩
  exact yields_value_construct (by omega) h (hsame.trans hmemo) (fun _ => hnext) (some "value")

/-- The value of a definition that a value in braces makes. -/
theorem yields_rightSide_inBraces {value : Tree}
    (h : Awaits p total .normal (value.inBraces.spread ++ rest))
    (hreads : ReadsInBraces total p value rest) :
    Yields (rightSide descent (some "value")) p fun _ q =>
      Enters p [value.inBraces] .normal q := by
  have hspread : value.inBraces.spread ++ rest = Word.lBrace.leaf.spread ++
      (value.spread ++ (Word.rBrace.leaf.spread ++ rest)) := by
    simp [Tree.inBraces]
  rw [hspread] at h
  have hkind : p.kind = .lBrace :=
    kind_of_code h.faces (Tree.loose_spread _ (Word.rBrace.loose none rest)) h.context
  have hvalue : ∀ q, Calm p q → q.memo = p.memo → Awaits q total .normal
      (value.spread ++ (Word.rBrace.leaf.spread ++ rest)) →
      Yields (expectValue descent "value") q fun _ r => Enters q [value] .normal r := by
    intro q hcalm hsame h'
    -- The brace makes room for the level of the value.
    have h : Awaits { q with depth := q.depth + 1 } total .normal
        (value.spread ++ (Word.rBrace.leaf.spread ++ rest)) :=
      h.deeper (List.cons_ne_nil _ _) h'.faces.deeper h'.context
        (congrArg (· + 1) hcalm.depth) hcalm.options h'.total
    have hdescent : Yields (descent (.value (some "value"))) q (CastsSome q value .normal) := by
      refine .get ?_
      rw [h'.total]
      exact hreads q hsame h
    unfold expectValue
    refine hdescent.bind ?_
    rintro _ r ⟨node, rfl, hr⟩
    exact .pure hr.enters
  unfold rightSide
  refine .modify ?_
  rw [Parser.relex_of_context h.context]
  refine .get ?_
  rw [hkind]
  refine (yields_interpolation_spread h hvalue (some "value")).bind ?_
  intro node q hq
  exact .pure hq.enters

/-- The definition of a value in braces is an item of a module. -/
theorem yields_moduleItem_inBraces {value : Tree} {name : Word .identifier} {text : Text}
    (h : Awaits p total .normal text)
    (hlexes : Lexes text [Word.letKeyword.lexed] ((name.leaf (some "name")).spread ++
      (Word.equal.leaf.spread ++ (value.inBraces.spread ++ rest))))
    (hreads : ReadsInBraces total p value rest) :
    Yields (moduleItem descent) p fun answer q => answer.isSome = true ∧ Enters p
      [.node none .valueDefinition [Word.letKeyword.leaf, name.leaf (some "name"), Word.equal.leaf,
        value.inBraces]] .normal q := by
  have hloose : (value.inBraces.spread ++ rest).Loose := Text.loose_space _
  have hfaces := ((h.faces.append hlexes).append ((Lexed.Spell.singleton name.solo (some "name")).lexes
    (Word.equal.loose none _))).append ((Lexed.Spell.singleton Word.equal.solo none).lexes hloose)
  have hkind : p.kind = .letKeyword := hfaces.kind h.context
  unfold moduleItem
  refine .get ?_
  rw [hkind]
  refine (@yields_seesFunctionHead_words p name [] ⟨⟨_, hfaces⟩, h.context⟩).bind ?_
  rintro _ q ⟨rfl, hq⟩
  have hstays : Enters p [] .normal q := .of_records hq.toRecords
  refine .ite_false Bool.false_ne_true ?_
  refine (yields_valueDefinition_spread (h.same hstays) hlexes hloose fun r _ hsame h =>
    yields_rightSide_inBraces h (hreads.of_memo (hsame.trans hq.memo))).bind ?_
  intro node r hr
  exact .pure ⟨rfl, (hr.after hstays).enters⟩

/-! ### Constructs of elements -/

/-- Where tokens were read without a report, and nothing is wrong with the
text behind the next one either, there is no error since then. -/
theorem hasErrorsSince_eq_false {tokens : List Lexed} {text first behind : Text}
    {gap : List (TriviaKind × Text)} {kind : TokenKind} (h : p.Faces [] text)
    (hlexes : Lexes text tokens rest) (hq : Covers p tokens context q)
    (hscan : Scans context rest gap kind first behind) (hclean : behind.Clean) :
    q.hasErrorsSince p.checkpoint = false := by
  obtain ⟨seam, hp, hbehind⟩ : p.Faces tokens rest := h.append hlexes
  have hat : q.At (seam.along (tokens.map (·.context))) := (hq.way.at_ hp).1
  have hrest : (seam.along (tokens.map (·.context))).behind = rest := by
    have hbehind : Lexes (seam.along (tokens.map (·.context))).behind [] rest :=
      Seam.lexes_along hp.inside (by rwa [List.append_nil])
    generalize (seam.along (tokens.map (·.context))).behind = later at hbehind
    cases hbehind
    rfl
  have hlength : (tokens.map fun _ => SyntaxKind.root).length = tokens.length := List.length_map _
  have hlexer := (Seam.leaves_of_lexes hp.inside hbehind rfl hlength).2
  -- What was read ahead had no report on it, so those that are there were there before.
  have hsize : q.source.lexerDiagnostics.size ≤ p.source.lexerDiagnostics.size := by
    rw [hat.lexerDiagnostics_of_clean (hrest ▸ hq.context ▸ hscan) hclean, hlexer]
    have hprefix := hp.prefix_lexerDiagnostics.length_le
    simpa using hprefix
  unfold Parser.hasErrorsSince
  show (decide (p.errorCount < q.errorCount) ||
    decide (p.source.lexerDiagnostics.size < q.source.lexerDiagnostics.size)) = false
  rw [hq.calm.errorCount]
  simpa using hsize

/-- The `<` of a closing tag, with nothing in front of it. -/
theorem scans_closing (name : TagName) (behind : Text) :
    Scans .normal (name.closing ++ behind) [] .lessThan [CodePoint.ofChar '<']
      (CodePoint.ofChar '/' :: (name.text ++ CodePoint.ofChar '>' :: behind)) := by
  rw [TagName.closing_append]
  exact .token (Lexeme.splits_lessThan ⟨by decide, by decide⟩ (.inl rfl)) rfl

/-- What is known of a body of which one control construct was read, that at
the state `p`. -/
structure BodyState.HasControl (state : BodyState) (p : Parser) : Prop where
  isSequence : (state.hasMarkup && !state.isText) = true
  firstControl : state.firstControl = some p.checkpoint
  control : ∃ range, state.control = some range ∧ range.start = p.position ∧
    range.IsIn p.text.length

section Elements

variable {construct : Construct .elements} {gap : List (TriviaKind × Text)} {kind : TokenKind}
  {first later : Text} (hbound : 4 * total + 2 < n)
  (h : Awaits p total .normal (construct.text ++ rest)) (hmemo : p.memo = [])

include h in
/-- The word that the construct starts with comes first, with nothing in
front of it. -/
theorem faces_construct :
    p.kind = (construct.keywordToken .normal).kind ∧ gapReadsAsText p = false ∧
      Lexes (construct.text ++ rest) [construct.keywordToken .normal]
        (Tree.spreadList construct.parts ++ rest) := by
  have hcontext : (construct.keywordToken .normal).context = .normal :=
    construct.context_keywordToken
  have hscan := construct.scans_text rest
  have hlexes : Lexes (construct.text ++ rest) [construct.keywordToken .normal]
      (Tree.spreadList construct.parts ++ rest) := by
    cases construct <;> exact hscan.lexes
  refine ⟨(h.faces.append hlexes).kind (h.context.trans hcontext.symm), ?_, hlexes⟩
  obtain ⟨seam, hp, hlexes⟩ := h.faces
  have hbehind : seam.behind = construct.text ++ rest := by
    generalize seam.behind = text at hlexes
    cases hlexes
    rfl
  rw [← hbehind, ← h.context] at hscan
  rw [gapReadsAsText_eq hp, List.map_eq_nil_iff.mp (Seam.gap_of_scans hp.inside hscan)]
  rfl

variable (hrest : construct.IsOpen → NoElse rest)

include hbound h hmemo hrest

/-- The construct is an item of the body. -/
theorem yields_elementsItem_construct :
    Yields (elementsItem (descentTo n)) p fun answer q => ∃ node, answer = some node ∧
      Builds p (construct.tree none) total rest node q := by
  obtain ⟨hkind, -, hlexes⟩ := faces_construct h
  have hrule := yields_construct_written hbound construct (by
    rw [construct.context_keywordToken]
    exact h) (construct.solo_keywordToken (.inl rfl)) construct.leaf_keywordToken hlexes hmemo hrest
  unfold elementsItem
  refine .modify ?_
  rw [Parser.relex_of_context h.context]
  refine (yields_seesElementsItem_word (hkind ▸ construct.kind_keywordToken_mem)).bind_known
    (.ite_false Bool.false_ne_true (.get ?_))
  rw [hkind]
  cases construct <;> exact hrule.bind fun node q hq => .pure ⟨node, rfl, hq⟩

/-- Nothing speaks against the construct, so the body goes on as a
sequence. -/
theorem yields_bodyRound_construct (hscan : Scans .normal rest gap kind first later)
    (hclean : later.Clean) :
    Yields (bodyRound (descentTo n) {}) p fun next q => ∃ state : BodyState, next = .again state ∧
      state.HasControl p ∧ Takes p q ∧ Enters p [construct.tree none] .normal q ∧
        Awaits q total .normal rest := by
  obtain ⟨hkind, hgap, -⟩ := faces_construct h
  have hword : p.kind ∈ [TokenKind.ifKeyword, .forKeyword] :=
    hkind ▸ construct.kind_keywordToken_mem
  have hother : ∀ kind ∈ [TokenKind.ifKeyword, .forKeyword], kind ≠ .eof ∧ kind ≠ .lessThan := by
    decide
  obtain ⟨hend, hless⟩ := hother _ hword
  have hroom := h.room_le
  unfold bodyRound
  refine .modify ?_
  rw [Parser.relex_of_context h.context]
  refine .get (.ite_false (Bool.eq_false_iff.mp hgap) ?_)
  refine .sees_false hend (.ite_false Bool.false_ne_true ?_)
  refine (yields_seesCloseTag_other hless).bind_known (.ite_false Bool.false_ne_true ?_)
  refine (yields_seesElementsItem_word hword).bind_known (.ite_false Bool.false_ne_true ?_)
  refine .mustProgress h.live (fun _ hlast => nomatch hlast) fun progress _ => ?_
  refine .get (((yields_elementsItem_construct hbound h hmemo hrest).and
    (yields_elementsItem (works_descentTo n) h.live (by omega) h.context)).bind ?_)
  rintro _ q ⟨⟨node, rfl, hq, hawaits⟩, -, htakes⟩
  -- The range of the construct is kept for the report that it is misplaced; it can be formed
  -- since tokens were taken.
  have hbounds : p.position ≤ q.position :=
    Nat.le_trans (Nat.le_of_lt (htakes.position_lt_done h.live)) hawaits.live.done_le_position
  have hrange : TextRange.ofBounds? p.checkpoint.source.current.range.start q.position
      = some ⟨p.position, q.position, hbounds⟩ := dif_pos hbounds
  -- What counts as an error since the construct began includes the lexical diagnostics of the
  -- token read ahead. This is where `hclean` is needed.
  have hfree : q.hasErrorsSince p.checkpoint = false := by
    obtain ⟨tokens, hspell, hshapes⟩ := hq
    exact hasErrorsSince_eq_false h.faces (construct.lexes_text hspell _) hshapes.toCovers hscan
      hclean
  refine hq.kind.bind ?_
  rintro _ _ ⟨rfl, rfl⟩
  unfold bodyItemRead
  refine .ite_false (by simp [Construct.tree, Tree.kind, SyntaxKind.isControl]) (.get ?_)
  dsimp only
  refine .ite_false (by simp [hasHeaderError, hfree]) (.ite_false (by simp [hfree]) ?_)
  have hin : q.position ≤ p.text.length :=
    htakes.reaches.text h.live ▸ hawaits.live.position_le
  rw [hrange]
  exact .pure ⟨_, rfl, ⟨rfl, rfl, _, rfl, rfl, hin⟩, htakes, hq.enters, hawaits⟩

end Elements

/-- In front of a closing tag the body is a sequence, with the construct in
it. -/
theorem yields_elementContent_construct {construct : Construct .elements} {name : TagName}
    {behind : Text} (hbound : 4 * total + 2 < n)
    (h : Awaits p total .normal (construct.text ++ (name.closing ++ behind))) (hmemo : p.memo = [])
    (hclean : Text.Clean (CodePoint.ofChar '/' :: (name.text ++ CodePoint.ofChar '>' :: behind))) :
    Yields (elementContent (descentTo n)) p fun _ q =>
      Enters p [construct.contentTree] .normal q := by
  -- Nothing is remembered, so the body is read, not recalled.
  have hnone : ∀ offset, p.recall? "element_content" offset = none := by
    intro offset
    simp [Parser.recall?, hmemo]
  unfold elementContent
  refine .modify ?_
  rw [Parser.relex_of_context h.context]
  refine .get (.get ?_)
  rw [hnone]
  refine (yields_start_gathers h.live h.context).bind ?_
  rintro marker q ⟨hq, hsame⟩
  have h := h.later hq.calm hq.way (hq.same h.faces) hq.context_eq
  have hloop : Yields (loop (bodyRound (descentTo n)) {}) q fun state r =>
      (state.hasMarkup && !state.isText) = true ∧ Enters q [construct.tree none] .normal r ∧
        Awaits r total .normal (name.closing ++ behind) := by
    unfold loop
    refine .get (.rounds_again _ (yields_bodyRound_construct hbound h (hsame.trans hmemo)
      (fun _ => ⟨_, _, _, _, scans_closing name behind, by decide⟩) (scans_closing name behind)
      hclean) ?_)
    rintro state r ⟨hcontrol, -, hr, h⟩
    refine .rounds_done ((yields_bodyRound_closing h.faces h.context state).mono ?_)
    rintro _ s ⟨rfl, hs, -⟩
    have hs := Enters.of_records hs
    have hr := hr.trans hs
    exact ⟨state, rfl, hcontrol.isSequence, hr, h.same hs⟩
  refine .get ?_
  unfold classifiedBody
  refine hloop.bind ?_
  rintro state r ⟨hmarkup, hr, h⟩
  refine .modify ?_
  rw [Parser.relex_of_context h.context]
  -- The loop has seen a control construct, which is an item of a sequence, and no text. So what
  -- was read is kept.
  refine .ite_true hmarkup ((yields_seesCloseTag_closing h.context (.inl rfl) h.faces).bind ?_)
  rintro _ s ⟨rfl, hs, -⟩
  have hlive : s.Live := Reaches.live ⟨_, hs.way⟩ h.live
  have hkept := hs.trans (Records.remember hlive hs.context "element_content" p.position
    (Outcome.isIn_content true _))
  refine .ite_true rfl (.modify ?_)
  refine (((hq.enters hr).enters (.of_records hkept)).complete (by decide) rfl).bind ?_
  intro node t ht
  refine (ht.setField (some "content")).mono ?_
  rintro _ u ⟨rfl, hu⟩
  exact hu.enters

/-- An element with a construct as its body, which is one level of
nesting. -/
theorem yields_element_content {construct : Construct .elements} {name : TagName} {behind : Text}
    (hbound : 4 * total + 2 < n)
    (h : Awaits p total .normal (name.opening ++ (construct.text ++ (name.closing ++ behind))))
    (hmemo : p.memo = [])
    (hclean : Text.Clean (CodePoint.ofChar '/' :: (name.text ++ CodePoint.ofChar '>' :: behind)))
    (field : Option String) :
    Yields (element (descentTo n) field) p (ReadsAs
      (name.opening ++ (construct.text ++ (name.closing ++ behind)))
      (.node field .element (name.openingTrees ++ construct.contentTree :: name.closingTrees)) behind
      p) := by
  have hdepth : p.depth < p.options.maxNestingDepth := h.depth_lt (by simp [TagName.opening])
  -- The body is read as the construct, whatever the state behind the tag is.
  have hbody : ∀ q, Covers { p with depth := p.depth + 1 } (name.openingTokens .normal) .normal q →
      q.memo = p.memo → q.IsLevel → Yields (elementContent (descentTo n)) q fun _ r => True ∧
        ReadsOne (fun pieces tree => tree = construct.contentTree ∧
            Lexed.Spell (pieces.map (·.lexed)) tree.leaves)
          (construct.text ++ (name.closing ++ behind)) (name.closing ++ behind) q r := by
    intro q hq hsame _
    have hopening := (name.consists_opening (construct.text ++ (name.closing ++ behind)) (.inl rfl)).lexes
    rw [Lexed.map_lexed_piece] at hopening
    have hfaces := (h.faces.deeper.append hopening).all hq
    have h := h.deeper (List.cons_ne_nil _ _) hfaces hq.context hq.calm.depth hq.calm.options (by
      rw [hq.text h.faces.deeper.live]
      exact h.total)
    refine (yields_elementContent_construct hbound h (hsame.trans hmemo) hclean).mono ?_
    rintro _ r ⟨tokens, hspell, hr⟩
    have hwords : Tree.leavesList [construct.contentTree] = construct.contentTree.leaves :=
      List.append_nil _
    have hwords' : construct.contentTree.leaves = (construct.tree none).leaves := List.append_nil _
    rw [hwords] at hspell
    obtain ⟨pieces, rfl, hconsists⟩ := (construct.lexes_text (hwords' ▸ hspell)
      (name.closing ++ behind)).exists_consists
    exact ⟨trivial, pieces, _, .normal, ⟨rfl, hspell⟩, hconsists, hr⟩
  refine (yields_element_named (fun _ => True) hdepth (yields_elementNode_plain (fun _ => True)
    h.faces.deeper h.context (.inl rfl) (by rintro _ _ ⟨rfl, -⟩; exact ⟨rfl, rfl⟩) hbody)
    field).mono ?_
  rintro node q ⟨-, pieces, _, ⟨rfl, hspell⟩, hconsists, hq⟩
  refine ⟨_, ?_, ?_, hq⟩
  · have hopening := (name.consists_opening (construct.text ++ (name.closing ++ behind)) (.inl rfl)).lexes
    have hclosing := (name.consists_closing behind).lexes
    rw [Lexed.map_lexed_piece] at hopening hclosing
    exact hopening.append (hconsists.lexes.append hclosing)
  · rw [Tree.leaves, Tree.leavesList_append, Tree.leavesList, List.map_append, List.map_append,
      List.map_append, List.map_append, hspell.texts]
    rfl

/-! ### Constructs of properties -/

section Properties

variable {construct : Construct .properties} (hrest : rest.Loose)

include hrest in
/-- Behind the keyword stands a word other than `=`, so the keyword is not taken
for the name of a property. -/
theorem exists_next_parts (construct : Construct domain) :
    ∃ kind, (Tree.spreadList construct.parts ++ rest).Next kind ∧ kind ≠ .equal := by
  obtain ⟨word, words, hwords, hword⟩ := construct.exists_leaves_parts
  have hsolo : word.lexed.Solo := ⟨.inl rfl, hword.isWord.splits, hword.isWord.solid⟩
  refine ⟨word.lexed.kind, ?_, hword.kind_ne_equal⟩
  rw [Tree.spreadList, hwords, Leaf.spread_cons, List.cons_append, List.append_assoc]
  exact ⟨_, _, _, List.cons_ne_nil _ _, hsolo.scans (Text.loose_spread words hrest)⟩

section Tag

variable (h : Awaits p total .tag ((construct.tree none).spread ++ rest))

include hrest h

/-- The word that the construct starts with looks like a name, but it is
none of a property. -/
theorem yields_seesProperty_construct :
    Yields seesProperty p fun answer q => answer = false ∧ Enters p [] .tag q ∧
      q.kind = (construct.keywordToken .tag).kind ∧ q.memo = p.memo := by
  obtain ⟨kind, hnext, hother⟩ := exists_next_parts hrest construct
  have hsolo : (construct.keywordToken .tag).Solo := construct.solo_keywordToken (.inr rfl)
  have hcontext : (construct.keywordToken .tag).context = .tag := construct.context_keywordToken
  have hfaces := h.faces
  rw [construct.spread_tree .tag, List.append_assoc] at hfaces
  have hfaces := hfaces.solo hsolo (construct.loose_parts rest)
  refine (yields_seesProperty_other hfaces (h.context.trans hcontext.symm) hsolo.kind_ne_eof hnext
    hother).mono ?_
  rintro _ q ⟨rfl, hq, hmemo⟩
  rw [hcontext] at hq
  exact ⟨rfl, .of_records hq, (hq.still h.live h.context).kind.trans (kind_of_construct h (.inr rfl)),
    hmemo⟩

/-- A construct of properties is read as its tree where an item of a property
list is expected. -/
theorem yields_propertyItem_construct (hbound : 4 * total + 2 < n) (hmemo : p.memo = [])
    (hnext : NoElse rest) :
    Yields (propertyItem (descentTo n)) p fun answer q => ∃ node, answer = some node ∧
      Builds p (construct.tree none) total rest node q := by
  unfold propertyItem
  refine (yields_seesProperty_construct hrest h).bind ?_
  rintro _ q ⟨rfl, hq, hkind, hsame⟩
  have hrule := yields_construct_spread hbound (h.same hq) (.inr rfl) (hsame.trans hmemo)
    fun _ => hnext
  refine .ite_false Bool.false_ne_true (.get ?_)
  rw [hkind]
  cases construct <;>
    exact hrule.bind fun node r hr => .pure ⟨node, rfl, hr.1.after hq, hr.2⟩

section List

variable (hbound : 4 * total + 2 < n) (hmemo : p.memo = []) (hnext : NoElse rest)

include hbound hmemo hnext

/-- The construct is an item of the list of properties. -/
theorem yields_propertyRound_construct :
    Yields ((propertyItems (descentTo n) false).round {}) p fun next q => ∃ progress,
      next = .again progress ∧ Behind progress q ∧ Enters p [construct.tree none] .normal q ∧
        Awaits q total .normal rest := by
  have hother : ∀ kind ∈ [TokenKind.ifKeyword, .forKeyword], kind ≠ .eof ∧
      kind ∉ [TokenKind.greaterThan, .slash, .eof, .rBrace] := by decide
  obtain ⟨notEnd, hgoes⟩ := hother _ construct.kind_keywordToken_mem
  rw [← kind_of_construct h (.inr rfl)] at notEnd hgoes
  have hroom := h.room_le
  unfold ItemList.round
  refine .modify ?_
  show Yields _ (p.relex .tag) _
  rw [Parser.relex_of_context h.context]
  refine .sees_false notEnd (.ite_false Bool.false_ne_true ?_)
  refine .seesAny_false hgoes (.ite_false Bool.false_ne_true ?_)
  refine .mustProgress h.live (behind_first p) fun progress hprogress => ?_
  refine ((yields_propertyItem_construct hrest h hbound hmemo hnext).and
    (yields_propertyItem (works_descentTo n) h.live (by omega) h.context)).bind ?_
  rintro _ q ⟨⟨node, rfl, hq, hawaits⟩, -, htakes⟩
  exact .ite_true rfl (.pure ⟨progress, rfl, behind_of_takes hprogress htakes h.live, hq.enters,
    hawaits⟩)

/-- So it makes a list of its own, where the list ends behind it. -/
theorem yields_propertyList_construct (hend : PropertiesEnd false rest) (field : String) :
    Yields (propertyList (descentTo n) (some field) false) p fun _ q =>
      Enters p [.node (some field) .propertyList [construct.tree none]] .tag q := by
  -- No property is seen at the keyword, since no `=` is behind it, but an item is.
  have hseen : Yields seesPropertyItem p fun answer q => answer = true ∧ Enters p [] .tag q ∧
      q.memo = p.memo := by
    unfold seesPropertyItem
    refine (yields_seesProperty_construct hrest h).bind ?_
    rintro _ q ⟨rfl, hq, hkind, hsame⟩
    have hmem : q.kind ∈ [TokenKind.ifKeyword, .forKeyword] := by
      rw [hkind]
      exact construct.kind_keywordToken_mem
    exact .ite_false Bool.false_ne_true ⟨List.contains_iff_mem.mpr hmem, hq, hsame⟩
  unfold propertyList
  refine .modify ?_
  rw [Parser.relex_of_context h.context]
  refine hseen.bind ?_
  rintro _ q ⟨rfl, hq, hsame⟩
  refine .ite_false Bool.false_ne_true ?_
  have h := h.same hq
  have hlist : Yields (propertyItems (descentTo n) false).parse q fun node r =>
      Casts q (.node none .propertyList [construct.tree none]) node .tag r := by
    unfold ItemList.parse
    refine (yields_start_gathers h.live h.context).bind ?_
    rintro marker r ⟨hr, hmemory⟩
    have h := h.later hr.calm hr.way (hr.same h.faces) hr.context_eq
    -- Two rounds: the construct, and the end of the list.
    have hloop : Yields (loop (propertyItems (descentTo n) false).round {}) r fun _ s =>
        Enters r [construct.tree none] .tag s := by
      unfold loop
      refine .get (.rounds_again _ (yields_propertyRound_construct hrest h hbound
        (hmemory.trans (hsame.trans hmemo)) hnext) ?_)
      rintro _ s ⟨hbehind, hs, h⟩
      refine .rounds_done ((yields_propertyRound_end hbehind h.faces hend).mono ?_)
      rintro _ t ⟨rfl, ht⟩
      exact ⟨(), rfl, hs.trans (.of_records ht)⟩
    refine hloop.bind ?_
    intro _ s hs
    exact (hr.enters hs).complete rfl rfl
  refine hlist.bind ?_
  intro node r hr
  refine (hr.setField (some field)).bind ?_
  rintro _ s ⟨rfl, hs⟩
  exact .pure (hq.trans hs.enters)

end List

end Tag

section Element

variable {name : TagName} {behind : Text} (hbound : 4 * total + 2 < n) (hmemo : p.memo = [])

/-- The tag of an element whose property is the construct, which closes
itself. -/
def tagText (name : TagName) (construct : Construct .properties) : Text :=
  CodePoint.ofChar '<' :: (name.text ++ ((construct.tree none).spread ++ selfClosing))

/-- The trees of the tag. -/
def tagTrees (name : TagName) (construct : Construct .properties) : List Tree :=
  Word.lessThan.leaf :: name.tree "name" ::
    .node (some "properties") .propertyList [construct.tree none] :: emptyEnd

/-- The tag around such a construct has the parts of an element that closes
itself. -/
theorem fills_tagTrees (name : TagName) (construct : Construct .properties) :
    Fills ElementForm.selfClosing.slots (Tree.outlines (tagTrees name construct)) :=
  .start (name.admits_tree "name") (.part ⟨rfl, trivial⟩ .emptyEnd)

/-- The list around the construct has the leaves of the construct. -/
theorem leavesList_propertyList :
    Tree.leavesList [.node (some "properties") .propertyList [construct.tree none]] =
      (construct.tree none).leaves := by
  simp [Tree.leaves, Tree.leavesList]

/-- The leaves of the tag: its name, the construct, and its end. -/
theorem leaves_tagTrees (field : Option String) :
    (Tree.node field .element (tagTrees name construct)).leaves =
      [Word.lessThan.token, name.lexed.word] ++ ((construct.tree none).leaves ++
        [Word.slash.token, Word.greaterThan.token]) := by
  simp [tagTrees, emptyEnd, Tree.leaves, Tree.leavesList]
  rfl

include hbound hmemo

/-- What follows the name of the element. -/
theorem yields_plainRest_construct
    (h : Awaits p total .tag ((construct.tree none).spread ++ (selfClosing ++ behind))) :
    Yields (plainRest (descentTo n)) p fun _ q => ∃ tokens,
      Lexed.Spell tokens (construct.tree none).leaves ∧ Records p (tokens ++ [.slash, .greaterThan])
        (.node (some "properties") .propertyList [construct.tree none] :: emptyEnd) .normal q := by
  have hloose : (selfClosing ++ behind).Loose := ⟨_, rfl⟩
  have hnext : NoElse (selfClosing ++ behind) :=
    ⟨_, _, _, _, scans_selfClosing (.inl rfl) behind, by decide⟩
  have hend : PropertiesEnd false (selfClosing ++ behind) :=
    .close (by decide) (scans_selfClosing (.inr rfl) behind)
  unfold plainRest
  refine (yields_propertyList_construct hloose h hbound hmemo hnext hend "properties").bind ?_
  rintro _ q ⟨tokens, hspell, hq⟩
  rw [leavesList_propertyList] at hspell
  have hfaces : q.Faces [.slash, .greaterThan] behind :=
    ((h.faces.append (hspell.lexes hloose)).all hq.toCovers).append (lexes_selfClosing behind)
  refine (yields_eat_token hfaces hq.context (show TokenKind.slash ≠ .eof by decide) .tag none).bind ?_
  rintro _ r ⟨rfl, -, hr⟩
  refine .ite_true rfl ((yields_expect_token (hfaces.tail hr.toCovers) hr.context
    (show TokenKind.greaterThan ≠ .eof by decide) .normal none).bind ?_)
  rintro _ s ⟨-, -, hs⟩
  exact .pure ⟨tokens, hspell, hq.trans (hr.trans hs)⟩

/-- An element with a construct as its property, which is one level of
nesting. -/
theorem yields_element_tag (h : Awaits p total .normal (tagText name construct ++ behind))
    (field : Option String) :
    Yields (element (descentTo n) field) p
      (ReadsAs (tagText name construct ++ behind) (.node field .element (tagTrees name construct))
        behind p) := by
  have hdepth : p.depth < p.options.maxNestingDepth := h.depth_lt (by simp [tagText])
  have hcontext : (construct.keywordToken .tag).context = .tag := construct.context_keywordToken
  -- The keyword stands right behind the name, and is no part of it.
  have hother : ∀ kind ∈ [TokenKind.ifKeyword, .forKeyword], kind ≠ .dot ∧ kind ≠ .colon := by decide
  obtain ⟨hdot, hcolon⟩ := hother _ (@Construct.kind_keywordToken_mem _ .tag construct)
  have htext : tagText name construct ++ behind = CodePoint.ofChar '<' :: name.text ++
      ((construct.tree none).spread ++ (selfClosing ++ behind)) := by simp [tagText]
  have hname : Lexes (tagText name construct ++ behind) [.lessThan .normal, name.lexed]
      ((construct.tree none).spread ++ (selfClosing ++ behind)) := by
    rw [htext, construct.spread_tree_eq]
    exact (name.consists_start _ (by rintro c ⟨⟩; exact Lexeme.continuesName_blank rfl) (.inl rfl)
      (.nil _)).lexes
  have hword : Lexes ((construct.tree none).spread ++ (selfClosing ++ behind))
      [construct.keywordToken .tag] (Tree.spreadList construct.parts ++ (selfClosing ++ behind)) := by
    rw [construct.spread_tree .tag, List.append_assoc]
    exact (Lexed.Spell.singleton (construct.solo_keywordToken (.inr rfl)) none).lexes
      (construct.loose_parts _)
  have hfaces := h.faces.deeper.append hname
  have hnode : Yields (elementNode (descentTo n)) { p with depth := p.depth + 1 } fun node q =>
      ReadsAs (tagText name construct ++ behind) (.node none .element (tagTrees name construct)) behind
        { p with depth := p.depth + 1 } node q := by
    refine yields_elementNode_start (hfaces.append hword) h.context hcontext hdot
      fun marker q hq hsame _ _ => ?_
    rw [if_neg hcolon]
    rw [htext] at h
    -- The level that is entered is paid for by the `<`, a character of the source.
    have h := h.deeper (List.cons_ne_nil _ _) (hfaces.all hq.toCovers) hq.context hq.calm.depth
      hq.calm.options (by
        rw [hq.text h.faces.deeper.live]
        exact h.total)
    refine (yields_plainRest_construct hbound (hsame.trans hmemo) h).bind ?_
    rintro _ r ⟨tokens, hspell, hr⟩
    refine ((hq.records hr).complete (by decide) (Outline.fits_of_fills rfl
      (fills_tagTrees name construct))).mono ?_
    rintro node s ⟨hs, -⟩
    refine ⟨_, ?_, ?_, hs⟩
    · exact hname.append ((hspell.lexes ⟨_, rfl⟩).append (lexes_selfClosing behind))
    · rw [leaves_tagTrees, List.map_append, List.map_append, List.map_append, List.map_append,
        hspell.texts]
      rfl
  unfold element nested
  refine .enterNesting hdepth (.ite_true rfl (.ensuring (hnode.bind ?_)))
  rintro node q ⟨tokens, hlexes, htexts, hq⟩
  refine (hq.setField field).mono ?_
  rintro _ r ⟨rfl, hr, -⟩
  exact ⟨tokens, hlexes, htexts, hr.nested⟩

end Element

end Properties

end Grammar

end MarkupSyntax
