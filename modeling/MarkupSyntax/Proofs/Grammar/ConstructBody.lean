import MarkupSyntax.Proofs.Grammar.Descent
import MarkupSyntax.Proofs.Grammar.EmptyElement

/-!
# `MarkupSyntax.Proofs.Grammar.ConstructBody`: the parts of control constructs

Expressions and bodies of control constructs are read as they are written.
A body ends at the brace behind it or, in an arm, where another arm starts
(`BodyEnd`). What ends it is the same in all domains, though each of them
sees it in its own way: an expression at a token that does not continue
it, elements at one that starts none, and properties at a name without
`=`.

The parsers of the recursive constructs are those of a descent to some
depth `n`, which has to be above four times the length of the source.
-/

set_option autoImplicit false

namespace MarkupSyntax.Grammar

open Parse

variable {p q r : Parser} {descend : Descent} {bound total : Nat} {context context' : LexContext}
  {rest text : Text} {kind : TokenKind} {field : Option String} {tree : Tree} {trees : List Tree}
  {node : Completed} {marker : Marker}

/-! ### Where a parse stands in a construct -/

/-- The text comes next, and its first token is read in this context. Each
level of nesting so far is due to a character of the source, of which it
has `total` ones, and arms may have separators of both kinds. -/
structure Awaits (p : Parser) (total : Nat) (context : LexContext) (text : Text) : Prop where
  faces : p.Faces [] text
  context : p.context = context
  depth : p.depth + p.room ≤ p.options.maxNestingDepth
  total : p.text.length = total
  colons : p.options.allowColonArms = true
  arrows : p.options.allowArrowArms = true

namespace Awaits

/-- A parse that awaits a text is one that can go on. -/
theorem live (h : Awaits p total context text) : p.Live := h.faces.live

/-- What holds of the rest of the source holds behind a part of it. -/
theorem later (h : Awaits p total context text) (hcalm : Calm p q) (hway : Reaches p q)
    (hfaces : q.Faces [] rest) (hcontext : q.context = context') : Awaits q total context' rest where
  faces := hfaces
  context := hcontext
  depth := by
    have hroom := hway.room_le h.live
    have hdepth := h.depth
    rw [hcalm.depth, hcalm.options]
    omega
  total := by rw [hway.text h.live, h.total]
  colons := by rw [hcalm.options, h.colons]
  arrows := by rw [hcalm.options, h.arrows]

/-- Behind trees that were read the rest comes next. -/
theorem enters (h : Awaits p total context (Tree.spreadList trees ++ rest))
    (h' : Enters p trees context' q) (hrest : rest.Loose) : Awaits q total context' rest :=
  h.later h'.calm h'.way (h'.faces h.faces hrest) h'.context_eq

/-- Behind one tree that was read the rest is awaited. The rest must start with
a space, so that the last word of the tree ends there. -/
theorem enters_one (h : Awaits p total context (tree.spread ++ rest))
    (h' : Enters p [tree] context' q) (hrest : rest.Loose) : Awaits q total context' rest := by
  have h : Awaits p total context (Tree.spreadList [tree] ++ rest) := by
    rwa [Tree.spreadList_cons, Tree.spreadList_nil, List.append_nil]
  exact h.enters h' hrest

/-- Where nothing was consumed the text stays. -/
theorem same (h : Awaits p total context text) (h' : Enters p [] context' q) :
    Awaits q total context' text :=
  h.later h'.calm h'.way (h'.same h.faces) h'.context_eq

/-- No more of the source is left than it has characters. -/
theorem room_le (h : Awaits p total context text) : p.room ≤ total := by
  rw [← h.total]
  exact Nat.sub_le _ _

/-- There is room for another level of nesting in front of a text. -/
theorem depth_lt (h : Awaits p total context text) (hpos : 0 < text.length) :
    p.depth < p.options.maxNestingDepth := by
  have hroom := h.faces.length_eq_room
  have hdepth := h.depth
  omega

/-- One level further down a part of the text comes next, if something
stands in front of it. -/
theorem deeper {front : Text} (h : Awaits p total context (front ++ text)) (hfront : front ≠ [])
    (hfaces : q.Faces [] text) (hcontext : q.context = context') (hdepth : q.depth = p.depth + 1)
    (hoptions : q.options = p.options) (htotal : q.text.length = total) :
    Awaits q total context' text where
  faces := hfaces
  context := hcontext
  depth := by
    have hlength := List.length_pos_iff.mpr hfront
    have hroom := h.faces.length_eq_room
    have hroom' := hfaces.length_eq_room
    have hdepth' := h.depth
    rw [List.length_append] at hroom
    rw [hdepth, hoptions]
    omega
  total := htotal
  colons := by rw [hoptions, h.colons]
  arrows := by rw [hoptions, h.arrows]

end Awaits

/-- Where a level is to spare, so it is without that. -/
theorem Awaits.shallower (h : Awaits { p with depth := p.depth + 1 } total context text) :
    Awaits p total context text where
  faces := h.faces.shallower
  context := h.context
  depth := by
    have hdepth : p.depth + 1 + (p.room : Int) ≤ p.options.maxNestingDepth := h.depth
    omega
  total := h.total
  colons := h.colons
  arrows := h.arrows

/-- The kind of the next token, where the text starts with it. -/
theorem kind_of_next (hnext : text.Next kind) (h : p.Faces [] text) (hcontext : p.context = .normal) :
    p.kind = kind := by
  obtain ⟨gap, first, behind, -, hscan⟩ := hnext
  exact (h.append hscan.lexes).kind hcontext

/-! ### Expressions -/

/-- Tokens that may stand behind an expression of a construct: they are no
operators, no calls and no member accesses. -/
def valueEnds : List TokenKind :=
  [.rBrace, .lBrace, .isKeyword, .elseKeyword, .colon, .fatArrow, .equal, .identifier] ++ literalTokens

/-- The text goes on with such a token. -/
structure EndsValue (text : Text) : Prop where
  loose : text.Loose
  next : ∃ kind ∈ valueEnds, text.Next kind

/-- A word of one of these kinds ends a value expression, as `else`, `is` or a
brace does. -/
theorem endsValue_word (word : Word kind) (hkind : kind ∈ valueEnds) (hrest : rest.Loose) :
    EndsValue (word.leaf.spread ++ rest) :=
  ⟨word.loose none rest, kind, hkind, word.next none hrest⟩

/-- A closing brace ends an expression, whatever follows it. -/
theorem next_rBrace (rest : Text) : (Word.rBrace.leaf.spread ++ rest).Next .rBrace :=
  ⟨_, _, _, List.cons_ne_nil _ _, scans_rBrace (.inl rfl) rest⟩

/-- Each word of an expression takes two characters with the space in
front of it. -/
theorem length_words_le (expression : Term) :
    2 * expression.words.length ≤ expression.tree.spread.length := by
  have hall : ∀ words : List Leaf, (∀ word ∈ words, word.IsWord) →
      2 * words.length ≤ (Leaf.spread words).length := by
    intro words
    induction words with
    | nil => exact fun _ => Nat.le_refl _
    | cons word words ih =>
      intro hwords
      obtain ⟨hword, hwords⟩ := List.forall_mem_cons.mp hwords
      obtain ⟨c, tail, htext, -⟩ := hword.exists_cons
      have hle := ih hwords
      rw [Leaf.spread_cons, htext]
      simp only [List.length_cons, List.length_append]
      omega
  exact hall _ fun word hmem => expression.isWord_of_mem_words hmem

/-- The words of an expression come next, and then one that ends it. -/
theorem exists_before_expression {expression : ProperTerm} {into : String}
    (h : Awaits p total .normal ((expression.tree into).spread ++ rest))
    (hrest : EndsValue rest) :
    ∃ next : Leaf, p.Before (expression.term.words ++ [next]) ∧ Stops 0 [next] := by
  obtain ⟨hloose, kind, hkind, gap, first, behind, -, hscan⟩ := hrest
  refine ⟨⟨.token kind, first, [], []⟩, ⟨⟨behind, ?_⟩, h.context⟩, .of_unbound ?_⟩
  · have hlexes := (Lexed.Spell.of_isWord fun word hmem =>
      expression.term.isWord_of_mem_words hmem).lexes hloose
    have hfaces := h.faces
    rw [ProperTerm.tree, Tree.spread_withField] at hfaces
    rw [List.map_append]
    exact (hfaces.append hlexes).append hscan.lexes
  · show kind ≠ .dot ∧ kind ≠ .lParen ∧ Outline.binding? kind = none
    revert hkind
    cases kind <;> decide

/-- Where an expression is written, the current token starts one. -/
theorem kind_mem_expressionStart {expression : ProperTerm} {into : String}
    (h : Awaits p total .normal ((expression.tree into).spread ++ rest))
    (hrest : EndsValue rest) : p.kind ∈ expressionStart := by
  obtain ⟨next, hbefore, -⟩ := exists_before_expression h hrest
  rw [kind_expression hbefore]
  exact firstKind_expression expression.term [next]

/-- An expression in front of a token that ends it. -/
theorem yields_value_expression (hparses : Parses descend bound) {expression : ProperTerm}
    {into : String} (h : Awaits p total .normal ((expression.tree into).spread ++ rest))
    (hrest : EndsValue rest) (hbound : total + 1 < bound) (field : Option String) :
    Yields (descend (.value field)) p fun answer q => ∃ node, answer = some node ∧
      Casts p (expression.term.tree.withField field) node .normal q ∧
        Awaits q total .normal rest ∧ q.memo = p.memo := by
  obtain ⟨next, hbefore, hstops⟩ := exists_before_expression h hrest
  have hlength := h.faces.length_eq_room
  have hwords := length_words_le expression.term
  have hpos := List.length_pos_iff.mpr (words_ne_nil expression.term)
  have hroom := h.room_le
  have hdepth := h.depth
  rw [List.length_append, ProperTerm.tree, Tree.spread_withField] at hlength
  refine (hparses.value expression.term field p _ expression.wellFormed hbefore hstops (by omega)
    (by omega)).mono ?_
  rintro (_ | node) q hq
  · exact hq.elim
  have hcasts := hq.casts fun word hmem => by
    rw [Tree.leaves_withField] at hmem
    exact expression.term.isWord_of_mem_words hmem
  have h : Awaits p total .normal ((expression.term.tree.withField field).spread ++ rest) := by
    rwa [ProperTerm.tree, Tree.spread_withField, ← Tree.spread_withField _ field] at h
  exact ⟨node, rfl, hcasts, h.enters_one hcasts.enters hrest.loose, hq.memo⟩

/-! ### Where a body ends -/

/-- What ends a body: the brace behind it, or the first two words of
another arm. -/
inductive BodyEnd : Text → Prop where
  | brace (text : Text) : BodyEnd (Word.rBrace.leaf.spread ++ text)
  | arm {first second : Leaf} {words : List Leaf} {text : Text}
      (hwords : ∀ word ∈ first :: second :: words, word.IsPart)
      (hstart : first.lexed.kind ∈ .elseKeyword :: headStart) (htext : text.Loose) :
      BodyEnd (Leaf.spread (first :: second :: words) ++ text)

namespace BodyEnd

/-- What ends a body has a space in front. -/
theorem loose (h : BodyEnd rest) : rest.Loose := by
  cases h with
  | brace => exact Word.rBrace.loose none _
  | arm => exact Text.loose_space _

/-- The token at the end, as it is read in code and in a tag. -/
theorem exists_next (h : BodyEnd rest) :
    ∃ kind ∈ .rBrace :: .elseKeyword :: headStart, rest.Next kind := by
  cases h with
  | brace text => exact ⟨.rBrace, by decide, next_rBrace text⟩
  | @arm first second words text hwords hstart htext =>
    obtain ⟨hfirst, -⟩ := List.forall_mem_cons.mp hwords
    have hsolo : first.lexed.Solo := ⟨.inl rfl, hfirst.isWord.splits, hfirst.isWord.solid⟩
    refine ⟨first.lexed.kind, List.mem_cons_of_mem _ hstart, ?_⟩
    rw [Leaf.spread_cons, List.cons_append, List.append_assoc]
    exact ⟨_, _, _, List.cons_ne_nil _ _, hsolo.scans (Text.loose_spread _ htext)⟩

/-- What ends a body ends a value expression, too. -/
theorem endsValue (h : BodyEnd rest) : EndsValue rest := by
  obtain ⟨kind, hkind, hnext⟩ := h.exists_next
  refine ⟨h.loose, kind, ?_, hnext⟩
  revert hkind
  cases kind <;> decide

/-- A word that starts an arm is the same one in a tag, and no `=` comes
behind it. -/
theorem propertiesEnd (h : BodyEnd rest) : PropertiesEnd true rest := by
  cases h with
  | brace text => exact .close (by decide) (scans_rBrace (.inr rfl) text)
  | @arm first second words text hwords hstart htext =>
    obtain ⟨hfirst, hwords⟩ := List.forall_mem_cons.mp hwords
    obtain ⟨hsecond, -⟩ := List.forall_mem_cons.mp hwords
    have hname : first.lexed.kind ∈ literalTokens ++ markupNameTokens := by
      revert hstart
      cases first.lexed.kind <;> decide
    have hfirst : (⟨.tag, first.lexed.kind, first.text⟩ : Lexed).Solo :=
      ⟨.inr rfl, hfirst.isWord.splits_tag hname, hfirst.isWord.solid⟩
    have hsolo : second.lexed.Solo := ⟨.inl rfl, hsecond.isWord.splits, hsecond.isWord.solid⟩
    have hlater : (Leaf.spread (second :: words) ++ text).Loose := Text.loose_space _
    rw [Leaf.spread_cons, List.cons_append, List.append_assoc]
    refine @PropertiesEnd.arm true _ ⟨.tag, first.lexed.kind, first.text⟩ _ second.lexed.kind rfl
      hstart rfl (hfirst.scans hlater).lexes ?_ hsecond.kind_ne_equal
    rw [Leaf.spread_cons, List.cons_append, List.append_assoc]
    exact ⟨_, _, _, List.cons_ne_nil _ _, hsolo.scans (Text.loose_spread _ htext)⟩

end BodyEnd

/-! ### Sequences of elements -/

/-- An element has a space in front of its name. -/
theorem exists_spread_empty (empty : EmptyElement) (rest : Text) : ∃ more,
    empty.tree.spread ++ rest = Word.lessThan.leaf.spread ++
      (CodePoint.ofChar ' ' :: (empty.name.first.text ++ more)) := by
  rw [EmptyElement.tree, Tree.spread_node, Tree.spreadList_cons, Tree.spreadList_cons, MarkupName.tree,
    Tree.spread_node, MarkupName.tokens, List.map_cons, Tree.spreadList_cons, Lexed.spread_leaf]
  simp only [List.append_assoc, List.cons_append]
  exact ⟨_, rfl⟩

/-- An element is an item of a sequence: behind its mark is a name. -/
theorem yields_nthIs_slash_empty {empty : EmptyElement}
    (h : p.Faces [] (empty.tree.spread ++ rest)) (hcontext : p.context = .normal) :
    p.kind = .lessThan ∧ Yields (nthIs 1 .slash) p fun answer q => answer = false ∧
      Enters p [] .normal q := by
  obtain ⟨more, hspread⟩ := exists_spread_empty empty rest
  rw [hspread] at h
  obtain ⟨kind, hkind, first, behind, hscan⟩ := empty.name.first.exists_scans_name more
  obtain ⟨c, tail, htext, hblank⟩ :=
    empty.name.first.splits.exists_cons (.inr rfl) empty.name.first.solid
  have hspace := Scans.trivia (by rw [htext]; exact Lexeme.splits_space (.inl rfl) hblank) rfl hscan
  refine ⟨kind_of_code h (Text.loose_space _) hcontext, ?_⟩
  refine (yields_nthIs_one (h.solo Word.lessThan.solo (Text.loose_space _)) hcontext
    Word.lessThan.solo.kind_ne_eof hspace .slash).mono ?_
  rintro _ q ⟨rfl, hq, -⟩
  refine ⟨decide_eq_false ?_, .of_records hq⟩
  rintro rfl
  exact absurd hkind (by decide)

/-- The parsers of the recursive constructs read empty elements as they are
written. -/
def ReadsEmpty (descend : Descent) (bound : Nat) : Prop :=
  ∀ (empty : EmptyElement) (field : Option String) (p : Parser) (rest : Text),
    p.Faces [] (empty.tree.spread ++ rest) → rest.Loose → p.context = .normal →
    p.depth < p.options.maxNestingDepth → 4 * p.text.length < bound →
    Yields (descend (.element field)) p (CastsSome p (empty.tree.withField field) .normal)

/-- The list that the elements of an arm are read as. -/
def elementItems (descend : Descent) : ItemList where
  nodeKind := .elementsExpression
  context := .normal
  ends := do if ← sees .rBrace then return true else seesCloseTag
  item := elementsItem descend
  recovery := elementsRecovery
  yields := seesAny armStartTokens

section Elements

variable (hempty : ReadsEmpty descend bound) (hw : Works descend bound) (hbound : 4 * total < bound)
  {progress : Progress} (hbehind : Behind progress p) {empty : EmptyElement}

/-- An empty element is seen as an item, without a step. -/
theorem yields_seesElementsItem_empty (h : p.Faces [] (empty.tree.spread ++ rest))
    (hcontext : p.context = .normal) :
    Yields seesElementsItem p fun answer q => answer = true ∧ Enters p [] .normal q := by
  obtain ⟨hkind, hslash⟩ := yields_nthIs_slash_empty h hcontext
  unfold seesElementsItem
  refine .sees_true hkind (.ite_true rfl (hslash.bind ?_))
  rintro _ q ⟨rfl, hq⟩
  exact .pure ⟨rfl, hq⟩

include hempty hbound in
/-- An item that is an empty element is read as its tree. -/
theorem yields_elementsItem_empty (h : Awaits p total .normal (empty.tree.spread ++ rest))
    (hrest : rest.Loose) :
    Yields (elementsItem descend) p (CastsSome p empty.tree .normal) := by
  unfold elementsItem
  refine .modify ?_
  rw [Parser.relex_of_context h.context]
  refine (yields_seesElementsItem_empty h.faces h.context).bind ?_
  rintro _ q ⟨rfl, hq⟩
  have h := h.same hq
  obtain ⟨hkind, -⟩ := yields_nthIs_slash_empty h.faces h.context
  refine .ite_false Bool.false_ne_true (.get ?_)
  rw [hkind]
  refine (hempty empty none q rest h.faces hrest h.context (h.depth_lt ?_)
    (by rw [h.total]; exact hbound)).mono ?_
  · obtain ⟨more, hspread⟩ := exists_spread_empty empty rest
    rw [hspread]
    exact Nat.succ_pos _
  · rintro _ r ⟨node, rfl, hr⟩
    exact ⟨node, rfl, hr.after hq⟩

include hbehind

include hempty hw hbound in
/-- An element is an item of the list. -/
theorem yields_elementsRound_empty (h : Awaits p total context (empty.tree.spread ++ rest))
    (hrest : rest.Loose) :
    Yields ((elementItems descend).round progress) p (ReadsItem empty.tree p) := by
  have hrelex := Enters.relex h.live .normal
  have hlive := h.live
  have h := h.same hrelex
  obtain ⟨hkind, hslash⟩ := yields_nthIs_slash_empty h.faces h.context
  unfold ItemList.round
  refine .modify ?_
  show Yields _ (p.relex .normal) _
  refine .sees_false (by rw [hkind]; decide) (.ite_false Bool.false_ne_true ?_)
  have hends : Yields (elementItems descend).ends (p.relex .normal) fun answer q =>
      answer = false ∧ Enters (p.relex .normal) [] .normal q := by
    refine .sees_false (by rw [hkind]; decide) (.ite_false Bool.false_ne_true ?_)
    unfold seesCloseTag seesPair
    exact .sees_true hkind (.ite_true rfl hslash)
  refine hends.bind ?_
  rintro _ q ⟨rfl, hq⟩
  have h := h.same hq
  have hq := hrelex.trans hq
  have hbehind := hbehind.reaches hq.way hlive
  have hroom := h.room_le
  refine .ite_false Bool.false_ne_true (.mustProgress h.live hbehind fun next hnext => ?_)
  refine ((yields_elementsItem_empty hempty hbound h hrest).and
    (yields_elementsItem hw h.live (by omega) h.context)).bind ?_
  rintro _ r ⟨⟨node, rfl, hr⟩, -, htakes⟩
  exact .ite_true rfl (.pure ⟨next, rfl, behind_of_takes hnext htakes h.live, _, hq.trans hr.enters⟩)

/-- The list ends where the body does. -/
theorem yields_elementsRound_end (h : Awaits p total context rest) (hend : BodyEnd rest) :
    Yields ((elementItems descend).round progress) p fun next q => next = .done () ∧
      Enters p [] .normal q := by
  obtain ⟨kind, hmem, hnext⟩ := hend.exists_next
  have hrelex := Enters.relex h.live .normal
  have hbehind := hbehind.reaches hrelex.way h.live
  have h := h.same hrelex
  have hkind := kind_of_next hnext h.faces h.context
  unfold ItemList.round
  refine .modify ?_
  show Yields _ (p.relex .normal) _
  have notEnd : kind ≠ .eof ∧ kind ∉ elementsStart ∧ (kind ≠ .rBrace → kind ∈ armStartTokens) := by
    revert hmem
    cases kind <;> decide
  obtain ⟨notEnd, notItem, harm⟩ := notEnd
  refine .sees_false (hkind ▸ notEnd) (.ite_false Bool.false_ne_true ?_)
  -- A brace ends the list. Anything else that ends a body starts an arm, which the list sees only
  -- when no item is found.
  by_cases hbrace : kind = .rBrace
  · have hends : Yields (elementItems descend).ends (p.relex .normal) fun answer q =>
        answer = true ∧ q = p.relex .normal :=
      .sees_true (hkind.trans hbrace) (.ite_true rfl (.pure ⟨rfl, rfl⟩))
    exact hends.bind_known (.ite_true rfl (.pure ⟨rfl, hrelex⟩))
  · have hless : (p.relex .normal).kind ≠ .lessThan := fun hless =>
      notItem (by rw [← hkind, hless]; decide)
    have hends : Yields (elementItems descend).ends (p.relex .normal) fun answer q =>
        answer = false ∧ q = p.relex .normal := by
      refine .sees_false (hkind ▸ hbrace) (.ite_false Bool.false_ne_true ?_)
      exact yields_seesCloseTag_other hless
    refine hends.bind_known (.ite_false Bool.false_ne_true ?_)
    refine .mustProgress h.live hbehind fun _ _ => ?_
    have hseen := yields_seesElementsItem_other (hkind ▸ notItem)
    have hitem : Yields (elementsItem descend) (p.relex .normal) fun answer q =>
        answer = none ∧ q = p.relex .normal := by
      unfold elementsItem
      refine .modify ?_
      rw [Parser.relex_of_context h.context]
      exact hseen.bind_known (.ite_true rfl (.pure ⟨rfl, rfl⟩))
    refine hitem.bind_known (.ite_false Bool.false_ne_true ?_)
    exact .seesAny_true (hkind ▸ harm hbrace) (.ite_true rfl (.pure ⟨rfl, hrelex⟩))

end Elements

/-- One or more elements are read as a sequence of them. -/
theorem yields_elementsExpression_written (hempty : ReadsEmpty descend bound)
    (hw : Works descend bound) (hbound : 4 * total < bound) {first : EmptyElement}
    {others : List EmptyElement}
    (h : Awaits p total .normal (Tree.spreadList ((first :: others).map (·.tree)) ++ rest))
    (hend : BodyEnd rest) (field : String) :
    Yields (elementsExpression descend (some field) true) p
      (CastsSome p ((Body.elements first others).tree field) .normal) := by
  have hfirst := h.faces
  rw [List.map_cons, Tree.spreadList_cons, List.append_assoc] at hfirst
  unfold elementsExpression
  refine .modify ?_
  rw [Parser.relex_of_context h.context]
  refine (yields_seesElementsItem_empty hfirst h.context).bind ?_
  rintro _ q ⟨rfl, hq⟩
  refine .ite_false Bool.false_ne_true ?_
  have h := h.same hq
  -- The loop reads one element in each round, and stops at what ends the body.
  have hlist : Yields (elementItems descend).parse q fun node r =>
      Casts q (.node none .elementsExpression ((first :: others).map (·.tree))) node .normal r := by
    refine yields_itemList_enters EmptyElement.tree rfl rfl ?_ hend.loose ?_ ?_ h.faces
    · have hfew := h.faces.length_trees_le (by
        intro tree hmem
        obtain ⟨empty, -, rfl⟩ := List.mem_map.mp hmem
        exact List.cons_ne_nil _ _)
      rwa [List.length_map] at hfew
    · rintro empty more - progress r hbehind hcalm hr hfaces
      exact yields_elementsRound_empty hempty hw hbound hbehind (h.later hcalm hr hfaces rfl)
        (Tree.loose_spreadList _ hend.loose)
    · rintro progress r hbehind hcalm hr hfaces
      exact yields_elementsRound_end hbehind (h.later hcalm hr hfaces rfl) hend
  refine hlist.bind ?_
  intro node r hr
  refine (hr.setField (some field)).bind ?_
  rintro _ s ⟨rfl, hs⟩
  exact .pure ⟨_, rfl, hs.after hq⟩

/-! ### Bodies -/

section Descent

variable {n : Nat} {domain : Domain}

/-- To any depth the recursive constructs read empty elements, if the depth
covers the source. -/
theorem readsEmpty_descentTo (n : Nat) : ReadsEmpty (descentTo n) n := by
  intro empty field p rest h hrest hcontext hdepth hbound
  obtain ⟨m, rfl⟩ : ∃ m, n = m + 1 := ⟨n - 1, by omega⟩
  show Yields (some <$> element (descentTo m) field) p _
  refine .map (yields_element_empty (works_descentTo m) (by omega) hrest h hcontext hdepth field) ?_
  exact fun node q hq => ⟨node, rfl, hq⟩

/-- The body of a construct, in the context that its domain asks for. -/
theorem yields_descentTo_body (hbound : 4 * total + 2 < n) {body : Body domain} {into : String}
    (h : Awaits p total (bodyContext domain) ((body.tree into).spread ++ rest))
    (hend : BodyEnd rest) :
    Yields (descentTo n (.body domain into)) p
      (CastsSome p (body.tree into) (bodyContext domain)) := by
  obtain ⟨m, rfl⟩ : ∃ m, n = m + 1 := ⟨n - 1, by omega⟩
  cases body with
  | value expression =>
    refine (yields_value_expression (parses_descentTo m) h hend.endsValue (by omega)
      (some into)).mono ?_
    rintro _ q ⟨node, rfl, hq, -⟩
    exact ⟨node, rfl, hq⟩
  | elements first others =>
    exact yields_elementsExpression_written (readsEmpty_descentTo m) (works_descentTo m) (by omega)
      h hend into
  | properties first others =>
    exact yields_propertyList_assignments (works_descentTo m) (by rw [h.total]; omega) h.faces
      hend.loose hend.propertiesEnd into

/-- A body, wherever its first token was read. -/
theorem yields_body_written (hbound : 4 * total + 2 < n) {body : Body domain} {into : String}
    (h : Awaits p total context ((body.tree into).spread ++ rest)) (hend : BodyEnd rest) :
    Yields (Grammar.body (descentTo n) domain into) p fun _ q =>
      Enters p [body.tree into] (bodyContext domain) q := by
  have hrelex := Enters.relex h.live (bodyContext domain)
  unfold Grammar.body
  refine .modify ((yields_descentTo_body hbound (h.same hrelex) hend).bind ?_)
  rintro _ q ⟨node, rfl, hq⟩
  exact .ite_false Bool.false_ne_true (.pure (hrelex.trans hq.enters))

/-- A body is read as this tree in front of a rest, with one level of nesting
to spare, where no more was decided than at a state. -/
def ReadsBody (n total : Nat) (domain : Domain) (p : Parser) (into : String) (tree : Tree)
    (rest : Text) : Prop :=
  ∀ q, q.memo = p.memo →
    Awaits { q with depth := q.depth + 1 } total (bodyContext domain) (tree.spread ++ rest) →
      Yields (Grammar.body (descentTo n) domain into) q fun _ r =>
        Enters q [tree] (bodyContext domain) r

/-- That a body is read as a tree depends on the state only by what it
remembers. -/
theorem ReadsBody.of_memo {into : String} (h : ReadsBody n total domain p into tree rest)
    (hmemo : q.memo = p.memo) : ReadsBody n total domain q into tree rest :=
  fun r hr => h r (hr.trans hmemo)

/-- A body that is written is read as its tree, where something that ends bodies
is behind it. The cases are those of the domain. -/
theorem readsBody_written (hbound : 4 * total + 2 < n) {body : Body domain} {into : String}
    (hend : BodyEnd rest) : ReadsBody n total domain p into (body.tree into) rest :=
  fun _ _ h => yields_body_written hbound h.shallower hend

/-- A brace that closes. Anything may follow it. -/
theorem yields_expect_rBrace (h : Awaits p total .normal (Word.rBrace.leaf.spread ++ rest)) :
    Yields (expect .rBrace .normal) p fun _ q => Enters p [Word.rBrace.leaf] .normal q ∧
      Awaits q total .normal rest := by
  have hfaces : p.Faces [Word.rBrace.lexed] rest :=
    h.faces.append (scans_rBrace (.inl rfl) rest).lexes
  refine (yields_expect_token hfaces h.context (show TokenKind.rBrace ≠ .eof by decide) .normal
    none).mono ?_
  rintro _ q ⟨-, rfl, hq⟩
  have henters : Enters p [Word.rBrace.leaf] .normal _ :=
    ⟨_, .singleton Word.rBrace.solo none, hq⟩
  exact ⟨henters, h.later henters.calm henters.way (hfaces.tail hq.toCovers) henters.context_eq⟩

/-- The brace behind a body or behind arms. -/
theorem yields_closingBrace_written
    (h : Awaits p total context (Word.rBrace.leaf.spread ++ rest)) :
    Yields closingBrace p fun _ q => Enters p [Word.rBrace.leaf] .normal q ∧
      Awaits q total .normal rest := by
  have hrelex := Enters.relex h.live .normal
  unfold closingBrace
  refine .modify ((yields_expect_rBrace (h.same hrelex)).bind ?_)
  rintro _ q ⟨hq, h⟩
  exact .pure ⟨hrelex.trans hq, h⟩

/-- A body in braces, as a text. -/
theorem spread_braced (body : Body domain) (into : String) (rest : Text) :
    Tree.spreadList (body.braced into) ++ rest = Word.lBrace.leaf.spread ++
      ((body.tree into).spread ++ (Word.rBrace.leaf.spread ++ rest)) := by
  simp only [Body.braced, Tree.spreadList_cons, Tree.spreadList_nil, List.append_assoc,
    List.nil_append]

/-- A body in braces. -/
theorem yields_bracedBody_written (hbound : 4 * total + 2 < n) {body : Body domain} {into : String}
    (h : Awaits p total .normal (Tree.spreadList (body.braced into) ++ rest)) :
    Yields (bracedBody (descentTo n) domain into) p fun _ q =>
      Enters p (body.braced into) .normal q ∧ Awaits q total .normal rest := by
  rw [spread_braced] at h
  have hend := BodyEnd.brace rest
  have hloose := Tree.loose_spread (body.tree into) hend.loose
  unfold bracedBody
  refine (yields_expect_code h.faces hloose h.context (bodyContext domain)).bind ?_
  rintro _ q ⟨rfl, hq, hfaces, -⟩
  have h := h.later hq.calm hq.way hfaces hq.context_eq
  refine .ite_true rfl ((yields_body_written hbound h hend).bind ?_)
  intro _ r hr
  refine (yields_closingBrace_written (h.enters_one hr hend.loose)).mono ?_
  rintro _ s ⟨hs, h⟩
  exact ⟨hq.trans (hr.trans hs), h⟩

end Descent

end MarkupSyntax.Grammar
