import MarkupSyntax.Proofs.Grammar.ConstructBody
import MarkupSyntax.Proofs.Parse.Forgets

/-!
# `MarkupSyntax.Proofs.Grammar.Arms`: the arms of a construct

Arms are read as they are written, one after another, in every domain. The
head of an arm is code. Its first two words tell a body that stands in
front of it where to end (`Arm.bodyEnd`), and the token behind it is the
separator of the arm, so neither a name nor an expression goes on there.

The loop over the arms is followed arm by arm (`yields_arms_written`).
-/

set_option autoImplicit false

namespace MarkupSyntax

open Grammar

/-! ### The words of an arm -/

/-- Either separator is a word. -/
theorem Separator.exists_word (separator : Separator) :
    ∃ kind ∈ [TokenKind.colon, .fatArrow], ∃ word : Word kind, separator.leaf = word.leaf := by
  cases separator with
  | colon => exact ⟨.colon, by decide, Word.colon, rfl⟩
  | arrow => exact ⟨.fatArrow, by decide, Word.fatArrow, rfl⟩

namespace Pattern

/-- None of the words of a pattern is `=`. -/
theorem isPart_of_mem (pattern : Pattern) : ∀ word ∈ pattern.tree.leaves, word.IsPart := by
  cases pattern with
  | literal value => exact List.forall_mem_singleton.mpr (value.word.isPart value.token_ne_equal)
  | name first others =>
    refine fun word hmem => ?_
    rw [tree, Tree.leaves, Tree.leavesList, Tree.leavesList, List.append_nil, Tree.leaves] at hmem
    exact List.forall_mem_cons.mpr ⟨first.isPart (by decide), isPart_of_mem_segmentTrees others⟩ word
      hmem

/-- A pattern starts with a name or a literal. -/
theorem exists_leaves (pattern : Pattern) :
    ∃ first words, pattern.tree.leaves = first :: words ∧ first.lexed.kind ∈ headStart := by
  cases pattern with
  | literal value =>
    exact ⟨value.word.token, [], rfl, List.mem_cons_of_mem _ value.token_mem⟩
  | name first others => exact ⟨first.token, _, rfl, show TokenKind.identifier ∈ headStart by decide⟩

end Pattern

/-- Nor is any of the patterns behind it, or of the commas. -/
theorem isPart_of_mem_furtherPatterns (patterns : List Pattern) :
    ∀ word ∈ Tree.leavesList (furtherPatterns patterns), word.IsPart := by
  induction patterns with
  | nil => exact fun _ h => nomatch h
  | cons pattern patterns ih =>
    refine List.forall_mem_cons.mpr ⟨Word.comma.isPart (by decide), ?_⟩
    show ∀ word ∈ pattern.tree.leaves ++ Tree.leavesList (furtherPatterns patterns), word.IsPart
    exact List.forall_mem_append.mpr ⟨pattern.isPart_of_mem, ih⟩

namespace Head

variable {form : ControlForm}

/-- Nor is any word of a head. -/
theorem isPart_of_mem (head : Head form) : ∀ word ∈ Tree.leavesList head.trees, word.IsPart := by
  cases head with
  | patterns first others =>
    exact List.forall_mem_append.mpr ⟨first.isPart_of_mem, isPart_of_mem_furtherPatterns others⟩
  | condition expression starts =>
    intro word hmem
    rw [trees, Tree.leavesList, Tree.leavesList, List.append_nil, ProperTerm.tree,
      Tree.leaves_withField] at hmem
    exact expression.term.isPart_of_mem_words hmem

/-- A head has a first word, and that is one with which an arm starts. -/
theorem exists_leaves (head : Head form) :
    ∃ first words, Tree.leavesList head.trees = first :: words ∧ first.lexed.kind ∈ headStart := by
  cases head with
  | patterns first others =>
    obtain ⟨word, words, hleaves, hstart⟩ := first.exists_leaves
    refine ⟨word, words ++ Tree.leavesList (furtherPatterns others), ?_, hstart⟩
    rw [trees, Tree.leavesList, hleaves, List.cons_append]
  | condition expression starts =>
    obtain ⟨word, words, hwords⟩ := List.exists_cons_of_ne_nil (words_ne_nil expression.term)
    refine ⟨word, words, ?_, ?_⟩
    · rw [trees, Tree.leavesList, Tree.leavesList, List.append_nil, ProperTerm.tree,
        Tree.leaves_withField]
      exact hwords
    · rw [hwords] at starts
      exact starts

end Head

/-- Trees in braces. -/
def bracedTrees (trees : List Tree) : List Tree := Word.lBrace.leaf :: (trees ++ [Word.rBrace.leaf])

/-- Trees in braces, as a text. -/
theorem spread_bracedTrees (trees : List Tree) (rest : Text) :
    Tree.spreadList (bracedTrees trees) ++ rest = Word.lBrace.leaf.spread ++
      (Tree.spreadList trees ++ (Word.rBrace.leaf.spread ++ rest)) := by
  simp only [bracedTrees, Tree.spreadList_cons, Tree.spreadList_append, Tree.spreadList_nil,
    List.append_assoc, List.nil_append]

/-- Arms in braces, as a text. -/
theorem Arms.spread_braced {form : ControlForm} {domain : Domain} (arms : Arms form domain)
    (rest : Text) : Tree.spreadList arms.braced ++ rest = Word.lBrace.leaf.spread ++
      (Tree.spreadList arms.trees ++ (Word.rBrace.leaf.spread ++ rest)) :=
  spread_bracedTrees arms.trees rest

section Ends

variable {form : ControlForm} {domain : Domain} {rest : Text}

/-- An arm has two words or more in front of its body. -/
theorem Head.exists_spread (head : Head form) (domain : Domain) (separator : Separator)
    (body : Tree) (rest : Text) :
    ∃ first second words, (∀ word ∈ first :: second :: words, Leaf.IsPart word) ∧
      first.lexed.kind ∈ headStart ∧ (head.around domain separator body).spread ++ rest =
        Leaf.spread (first :: second :: words) ++ (body.spread ++ rest) := by
  obtain ⟨first, words, hleaves, hstart⟩ := head.exists_leaves
  obtain ⟨kind, hkind, separator, hseparator⟩ := separator.exists_word
  have hword : separator.token.IsPart := separator.isPart (by rintro rfl; exact absurd hkind (by decide))
  have hparts := head.isPart_of_mem
  have hspread : Tree.spreadList head.trees ++ separator.leaf.spread =
      Leaf.spread (first :: (words ++ [separator.token])) := by
    rw [Tree.spreadList, hleaves, Tree.spread, ← Leaf.spread_append, List.cons_append]
    rfl
  obtain ⟨second, others, hwords⟩ := List.exists_cons_of_ne_nil
    (List.append_ne_nil_of_right_ne_nil words (List.cons_ne_nil separator.token []))
  refine ⟨first, second, others, ?_, hstart, ?_⟩
  · rw [← hwords, ← List.cons_append, ← hleaves]
    exact List.forall_mem_append.mpr ⟨hparts, List.forall_mem_singleton.mpr hword⟩
  · rw [← hwords, ← hspread, Head.around, hseparator]
    simp

/-- Another arm ends a body. -/
theorem Arm.bodyEnd (arm : Arm form domain) (hrest : rest.Loose) :
    BodyEnd (arm.tree.spread ++ rest) := by
  obtain ⟨first, second, words, hparts, hstart, hspread⟩ :=
    arm.head.exists_spread domain arm.separator (arm.body.tree "body") rest
  rw [show arm.tree = arm.head.around domain arm.separator (arm.body.tree "body") from rfl, hspread]
  exact .arm hparts (List.mem_cons_of_mem _ hstart) (Tree.loose_spread _ hrest)

/-- Where an arm is written, the next token is one with which an arm starts. So
the loop over the arms goes on there. -/
theorem Head.exists_next (head : Head form) (domain : Domain) (separator : Separator) (body : Tree)
    (hrest : rest.Loose) :
    ∃ kind ∈ headStart, ((head.around domain separator body).spread ++ rest).Next kind := by
  obtain ⟨first, second, words, hparts, hstart, hspread⟩ :=
    head.exists_spread domain separator body rest
  obtain ⟨hfirst, -⟩ := List.forall_mem_cons.mp hparts
  have hsolo : first.lexed.Solo := ⟨.inl rfl, hfirst.isWord.splits, hfirst.isWord.solid⟩
  refine ⟨first.lexed.kind, hstart, ?_⟩
  rw [hspread, Leaf.spread_cons, List.cons_append, List.append_assoc]
  exact ⟨_, _, _, List.cons_ne_nil _ _,
    hsolo.scans (Text.loose_spread _ (Tree.loose_spread _ hrest))⟩

/-- The arm for everything else ends a body, too. -/
theorem ElseArm.bodyEnd (arm : ElseArm domain) (hrest : rest.Loose) :
    BodyEnd (Tree.spreadList arm.trees ++ rest) := by
  obtain ⟨kind, hkind, separator, hseparator⟩ := arm.separator.exists_word
  have hword : separator.token.IsPart := separator.isPart (by rintro rfl; exact absurd hkind (by decide))
  have hspread : Tree.spreadList arm.trees ++ rest =
      Leaf.spread [Word.elseKeyword.token, separator.token] ++
        ((arm.body.tree "else").spread ++ rest) := by
    rw [trees, hseparator]
    simp [Tree.spread, Word.leaf, Tree.leaves]
  rw [hspread]
  exact .arm (List.forall_mem_cons.mpr ⟨Word.elseKeyword.isPart (by decide),
    List.forall_mem_singleton.mpr hword⟩) (by decide) (Tree.loose_spread _ hrest)

/-- What stands behind a body in the arms of a construct ends it. -/
theorem bodyEnd_arms (others : List (Arm form domain)) (otherwise : Option (ElseArm domain))
    (rest : Text) : BodyEnd (Tree.spreadList (others.map Arm.tree) ++
      (Tree.spreadList (elseArmTrees otherwise) ++ (Word.rBrace.leaf.spread ++ rest))) := by
  have hend : (Word.rBrace.leaf.spread ++ rest).Loose := Word.rBrace.loose none rest
  cases others with
  | cons next others =>
    rw [List.map_cons, Tree.spreadList_cons, List.append_assoc]
    exact next.bodyEnd (Tree.loose_spreadList _ (Tree.loose_spreadList _ hend))
  | nil =>
    cases otherwise with
    | none => exact .brace rest
    | some otherwise =>
      have htrees : elseArmTrees (some otherwise) = otherwise.trees := List.append_nil _
      rw [htrees]
      exact otherwise.bodyEnd hend

end Ends

namespace Grammar

open Parse

variable {p q r : Parser} {n total : Nat} {domain : Domain} {form : ControlForm}
  {context : LexContext} {rest : Text} {kind : TokenKind}

/-! ### Repeated parts -/

/-- A step that is repeated in code reads one item after another. -/
theorem yields_whileTrue_written {α : Type} (trees : α → List Tree) {items : List α}
    {step : Parse Bool} (few : items.length ≤ p.text.length) (hrest : rest.Loose)
    (hitem : ∀ item others, item :: others <:+ items → ∀ q, Awaits q total .normal
      (Tree.spreadList (trees item) ++ (Tree.spreadList (others.flatMap trees) ++ rest)) →
      Yields step q fun go r => go = true ∧ Enters q (trees item) .normal r)
    (hlast : ∀ q, Awaits q total .normal rest →
      Yields step q fun go r => go = false ∧ Enters q [] .normal r)
    (h : Awaits p total .normal (Tree.spreadList (items.flatMap trees) ++ rest)) :
    Yields (whileTrue step) p fun _ q => Enters p (items.flatMap trees) .normal q := by
  unfold whileTrue loop
  refine .get (yields_rounds_enters trees
    (fun _ q => Calm p q ∧ Reaches p q ∧ q.context = .normal) (by omega) hrest ?_ ?_ h.faces
    ⟨.refl p, .refl p, h.context⟩)
  · rintro item others hsuffix _ q ⟨hcalm, hway, hcontext⟩ hfaces
    refine (hitem item others hsuffix q (h.later hcalm hway hfaces hcontext)).bind ?_
    rintro _ r ⟨rfl, hr⟩
    exact .ite_true rfl (.pure ⟨(), rfl,
      ⟨hcalm.trans hr.calm, hway.trans hr.way, hr.context_eq⟩, .normal, hr⟩)
  · rintro _ q ⟨hcalm, hway, hcontext⟩ hfaces ⟨context', henters⟩
    refine (hlast q (h.later hcalm hway hfaces hcontext)).bind ?_
    rintro _ r ⟨rfl, hr⟩
    exact .ite_false Bool.false_ne_true (.pure ⟨(), rfl, by simpa using henters.trans hr⟩)

/-! ### Patterns -/

/-- Items that are two trees each are no more than the source has
characters. -/
theorem length_items_le {α : Type} {trees : α → List Tree} {items : List α}
    (h : Awaits p total context (Tree.spreadList (items.flatMap trees) ++ rest))
    (hitem : ∀ item, trees item ≠ []) (hwords : ∀ item, ∀ tree ∈ trees item, tree.leaves ≠ []) :
    items.length ≤ p.text.length := by
  have hfew := h.faces.length_trees_le fun tree hmem => by
    obtain ⟨item, -, hmem⟩ := List.mem_flatMap.mp hmem
    exact hwords item tree hmem
  refine Nat.le_trans ?_ hfew
  clear hfew h
  induction items with
  | nil => exact Nat.le_refl _
  | cons item items ih =>
    have hpos := List.length_pos_iff.mpr (hitem item)
    rw [List.flatMap_cons, List.length_append, List.length_cons]
    omega

/-- A name with dots in it, in front of something else. -/
theorem yields_qualifiedName_written {first : Word .identifier} {others : List (Word .identifier)}
    (h : Awaits p total .normal
      (first.leaf.spread ++ (Tree.spreadList (segmentTrees others) ++ rest)))
    (hrest : rest.Loose) (hnext : rest.Next kind) (hkind : kind ≠ .dot) :
    Yields (qualifiedName none) p
      (CastsSome p (.node none .qualifiedName (first.leaf :: segmentTrees others)) .normal) := by
  have hloose := Tree.loose_spreadList (segmentTrees others) hrest
  unfold qualifiedName
  refine .sees_true (kind_of_code h.faces hloose h.context) (.ite_false Bool.false_ne_true ?_)
  refine (yields_start_gathers h.live h.context).bind ?_
  rintro marker q ⟨hq, -⟩
  refine (yields_bump_code (hq.same h.faces) hloose hq.context_eq .normal).bind ?_
  rintro _ r ⟨hr, hfaces, -⟩
  have h := h.later (hq.calm.trans hr.calm) (hq.way.trans hr.way) hfaces hr.context_eq
  -- The loop takes the segments, and `hnext` says that it ends behind them.
  have hsegments : Yields (whileTrue do
      if !(← sees .dot) then return false
      if !(← nthIs 1 .identifier) then return false
      bump
      bump
      return true) r fun _ s => Enters r (segmentTrees others) .normal s := by
    refine yields_whileTrue_written Word.segment ?_ hrest ?_ ?_ h
    · exact length_items_le h (fun _ => List.cons_ne_nil _ _) fun name tree hmem => by
        rcases List.mem_pair.mp hmem with rfl | rfl <;> exact List.cons_ne_nil _ _
    · intro name names _ s h
      have hloose := Tree.loose_spreadList (names.flatMap Word.segment) hrest
      have hname := name.loose none (Tree.spreadList (names.flatMap Word.segment) ++ rest)
      simp only [Word.segment, Tree.spreadList_cons, Tree.spreadList_nil, List.append_nil,
        List.append_assoc] at h
      refine .sees_true (kind_of_code h.faces hname h.context) (.ite_false Bool.false_ne_true ?_)
      obtain ⟨gap, word, behind, -, hscan⟩ := name.next none hloose
      refine (yields_nthIs_one (h.faces.solo Word.dot.solo hname) h.context
        Word.dot.solo.kind_ne_eof hscan .identifier).bind ?_
      rintro _ t ⟨rfl, ht, -⟩
      have ht := Enters.of_records ht
      have h := h.same ht
      refine .ite_false (by decide) ?_
      refine (yields_bump_code h.faces hname h.context .normal).bind ?_
      rintro _ u ⟨hu, hfaces, -⟩
      refine (yields_bump_code hfaces hloose hu.context_eq .normal).bind ?_
      rintro _ v ⟨hv, -, -⟩
      exact .pure ⟨rfl, ht.trans (hu.trans hv)⟩
    · intro s h
      have hdot : s.kind ≠ .dot := by rwa [kind_of_next hnext h.faces h.context]
      exact .sees_false hdot (.ite_true rfl (.pure ⟨rfl, .nil h.live h.context⟩))
  refine hsegments.bind ?_
  intro _ s hs
  refine (((hq.enters hr).enters hs).complete (by decide) rfl).bind ?_
  intro node t ht
  refine (ht.setField none).bind ?_
  rintro _ u ⟨rfl, hu⟩
  exact .pure ⟨_, rfl, hu⟩

/-- A pattern, in front of something that does not go on with it. -/
theorem yields_pattern_written {written : Pattern}
    (h : Awaits p total .normal (written.tree.spread ++ rest)) (hrest : rest.Loose)
    (hnext : rest.Next kind) (hkind : kind ≠ .dot) :
    Yields pattern p (CastsSome p written.tree .normal) := by
  -- A node around what was read makes the pattern, whatever it is.
  have hend : ∀ {q r : Parser} {marker : Marker} {tree : Tree} (parsed : Completed),
      Gathers p marker [] .normal q → Casts q tree parsed .normal r →
      Yields (if (some parsed).isNone then do
          marker.abandon
          return none
        else do
          let node ← marker.complete .pattern
          return some (← node.setField "pattern")) r
        (CastsSome p (.node (some "pattern") .pattern [tree]) .normal) := by
    intro q r marker tree parsed hq hr
    refine .ite_false Bool.false_ne_true (((hq.enters hr.enters).complete (by decide) rfl).bind ?_)
    intro node s hs
    refine (hs.setField (some "pattern")).bind ?_
    rintro _ t ⟨rfl, ht⟩
    exact .pure ⟨_, rfl, ht⟩
  unfold pattern
  refine (yields_start_gathers h.live h.context).bind ?_
  rintro marker q ⟨hq, -⟩
  have h := h.later hq.calm hq.way (hq.same h.faces) hq.context_eq
  cases written with
  | literal value =>
    rw [Pattern.tree, Tree.spread_node, Tree.spreadList_cons, Tree.spreadList_nil, List.append_nil,
      Term.spread_literal] at h
    refine (yields_literal_spread h.faces hrest h.context none).bind ?_
    rintro _ r ⟨node, rfl, hr⟩
    exact hend node hq hr
  | name first others =>
    simp only [Pattern.tree, Tree.spread_node, Tree.spreadList_cons, Tree.spreadList_nil,
      List.append_nil, List.append_assoc] at h
    have hword : q.kind = .identifier :=
      kind_of_code h.faces (Tree.loose_spreadList _ hrest) h.context
    refine (yields_literal_other (by rw [hword]; rfl) none).bind_known ?_
    refine (yields_qualifiedName_written h hrest hnext hkind).bind ?_
    rintro _ r ⟨node, rfl, hr⟩
    exact hend node hq hr

/-- Tokens that may stand behind a pattern. -/
def patternEnds : List TokenKind := [.comma, .colon, .fatArrow]

/-- Further patterns start with a comma. -/
theorem next_furtherPatterns (patterns : List Pattern) (hrest : rest.Loose)
    (hnext : ∃ kind ∈ patternEnds, rest.Next kind) :
    ∃ kind ∈ patternEnds, (Tree.spreadList (furtherPatterns patterns) ++ rest).Next kind := by
  cases patterns with
  | nil => exact hnext
  | cons next others =>
    refine ⟨.comma, by decide, ?_⟩
    have hloose := Tree.loose_spreadList (next.tree :: furtherPatterns others) hrest
    exact Word.comma.next none hloose

/-- Patterns with commas between them. -/
theorem yields_furtherPatterns_written {patterns : List Pattern}
    (h : Awaits p total .normal (Tree.spreadList (furtherPatterns patterns) ++ rest))
    (hrest : rest.Loose) (hnext : ∃ kind ∈ [TokenKind.colon, .fatArrow], rest.Next kind) :
    Yields (whileTrue do
      if !(← sees .comma) then return false
      bump
      if (← pattern).isNone then
        let _ ← missing (some "pattern") .expectedPattern
      return true) p fun _ q => Enters p (furtherPatterns patterns) .normal q := by
  obtain ⟨kind, hkind, hnext⟩ := hnext
  refine yields_whileTrue_written Pattern.further ?_ hrest ?_ ?_ h
  · exact length_items_le h (fun _ => List.cons_ne_nil _ _) fun pattern tree hmem => by
      rcases List.mem_pair.mp hmem with rfl | rfl
      · exact List.cons_ne_nil _ _
      · obtain ⟨first, words, hleaves, -⟩ := pattern.exists_leaves
        rw [hleaves]
        exact List.cons_ne_nil _ _
  · intro next others _ q h
    have hloose := Tree.loose_spreadList (furtherPatterns others) hrest
    have hpattern := Tree.loose_spread next.tree hloose
    -- Behind a pattern stands a comma or the separator, and neither goes on with a name.
    obtain ⟨kind', hkind', hnext'⟩ := next_furtherPatterns others hrest
      ⟨kind, List.mem_cons_of_mem _ hkind, hnext⟩
    simp only [Pattern.further, Tree.spreadList_cons, Tree.spreadList_nil, List.append_nil,
      List.append_assoc] at h
    refine .sees_true (kind_of_code h.faces hpattern h.context) (.ite_false Bool.false_ne_true ?_)
    refine (yields_bump_code h.faces hpattern h.context .normal).bind ?_
    rintro _ r ⟨hr, hfaces, -⟩
    have h := h.later hr.calm hr.way hfaces hr.context_eq
    refine (yields_pattern_written h hloose hnext' ?_).bind ?_
    · rintro rfl
      exact absurd hkind' (by decide)
    · rintro _ s ⟨node, rfl, hs⟩
      exact .ite_false Bool.false_ne_true (.pure ⟨rfl, hr.trans hs.enters⟩)
  · intro q h
    have hcomma : q.kind ≠ .comma := by
      rw [kind_of_next hnext h.faces h.context]
      rintro rfl
      exact absurd hkind (by decide)
    exact .sees_false hcomma (.ite_true rfl (.pure ⟨rfl, .nil h.live h.context⟩))

/-- Neither names nor literals are worth remembering. -/
theorem forgets_pattern : Forgets pattern := by
  have hliteral : Forgets (literal none) := .get fun p => by
    split
    · exact .pure _
    · exact forgets_start.bind fun marker => (forgets_bump _ _ _).bind fun _ =>
        (forgets_complete marker _).bind fun node => (forgets_setField node _).bind fun _ => .pure _
  have hname : Forgets (qualifiedName none) := by
    have hsegments : Forgets (whileTrue do
        if !(← sees .dot) then return false
        if !(← nthIs 1 .identifier) then return false
        bump
        bump
        return true) := .whileTrue ((forgets_sees _).bind fun _ => .ite (.pure _)
      ((forgets_nthIs _ _).bind fun _ => .ite (.pure _)
        ((forgets_bump _ _ _).bind fun _ => (forgets_bump _ _ _).bind fun _ => .pure _)))
    exact (forgets_sees _).bind fun _ => .ite (.pure _) (forgets_start.bind fun marker =>
      (forgets_bump _ _ _).bind fun _ => hsegments.bind fun _ => (forgets_complete marker _).bind
        fun node => (forgets_setField node _).bind fun _ => .pure _)
  unfold pattern
  refine forgets_start.bind fun marker => ?_
  -- A literal and a name are finished alike.
  have hend : ∀ parsed : Option Completed, Forgets (do
      if parsed.isNone then
        marker.abandon
        return none
      let node ← marker.complete .pattern
      return some (← node.setField "pattern")) := fun _ =>
    .ite ((forgets_abandon marker).bind fun _ => .pure _) ((forgets_complete marker _).bind
      fun node => (forgets_setField node _).bind fun _ => .pure _)
  refine hliteral.bind fun found => ?_
  cases found with
  | none => exact hname.bind hend
  | some node => exact Forgets.bind (.pure _) hend

/-- Further patterns are read without a look at what is remembered. -/
theorem forgets_furtherPatterns : Forgets (whileTrue do
    if !(← sees .comma) then return false
    bump
    if (← pattern).isNone then
      let _ ← missing (some "pattern") .expectedPattern
    return true) :=
  .whileTrue ((forgets_sees _).bind fun _ => .ite (.pure _) ((forgets_bump _ _ _).bind fun _ =>
    forgets_pattern.bind fun _ => .ite ((forgets_missing _ _).bind fun _ => .pure _) (.pure _)))

/-! ### Arms -/

/-- A separator ends a condition. -/
theorem endsValue_separator {separator : Separator} (hrest : rest.Loose) :
    EndsValue (separator.leaf.spread ++ rest) := by
  obtain ⟨kind, hkind, word, hword⟩ := separator.exists_word
  rw [hword]
  refine endsValue_word word ?_ hrest
  revert hkind
  cases kind <;> decide

section Arm

/-- A separator is one, where the options allow both of them. -/
theorem yields_seesArmSeparator_written {separator : Separator}
    (h : Awaits p total .normal (separator.leaf.spread ++ rest)) (hrest : rest.Loose) :
    Yields seesArmSeparator p fun answer q => answer = true ∧ q = p := by
  unfold seesArmSeparator
  refine .get (.pure ⟨?_, rfl⟩)
  rw [h.colons, h.arrows]
  cases separator with
  | colon =>
    have hkind : p.kind = .colon := kind_of_code h.faces hrest h.context
    rw [hkind]
    rfl
  | arrow =>
    have hkind : p.kind = .fatArrow := kind_of_code h.faces hrest h.context
    rw [hkind]
    rfl

/-- Another token is none. -/
theorem yields_seesArmSeparator_other (h : p.kind ∉ [TokenKind.colon, .fatArrow]) :
    Yields seesArmSeparator p fun answer q => answer = false ∧ q = p := by
  simp only [List.mem_cons, List.not_mem_nil, or_false, not_or] at h
  unfold seesArmSeparator
  refine .get (.pure ⟨?_, rfl⟩)
  simp [h.1, h.2]

/-- The separator of an arm and its body. The separator makes room for a
level of nesting. -/
theorem yields_armTail_written {separator : Separator} {body : Tree} {into : String}
    (h : Awaits p total .normal (separator.leaf.spread ++ (body.spread ++ rest)))
    (hrest : rest.Loose) (hreads : ReadsBody n total domain p into body rest) :
    Yields (armTail (descentTo n) domain into) p fun _ q =>
      Enters p [separator.leaf, body] (bodyContext domain) q := by
  have hloose := Tree.loose_spread body hrest
  obtain ⟨kind, -, word, hword⟩ := separator.exists_word
  unfold armTail
  refine (yields_seesArmSeparator_written h hloose).bind_known (.ite_true rfl ?_)
  rw [hword] at h ⊢
  refine (yields_bump_code h.faces hloose h.context (bodyContext domain)).bind ?_
  rintro _ q ⟨hq, hfaces, hmemo⟩
  have h : Awaits { q with depth := q.depth + 1 } total (bodyContext domain) (body.spread ++ rest) :=
    h.deeper (List.cons_ne_nil _ _) hfaces.deeper hq.context_eq (congrArg (· + 1) hq.calm.depth)
      hq.calm.options (h.later hq.calm hq.way hfaces hq.context_eq).total
  exact (hreads q hmemo h).mono fun _ r hr => hq.trans hr

/-- Behind the head of an arm its separator and its body are read, and the
node of the arm is complete. -/
theorem yields_armRest_written {head : Head form} {separator : Separator} {body : Tree}
    {marker : Marker}
    (h : Awaits p total .normal ((head.around domain separator body).spread ++ rest))
    (hrest : rest.Loose) (hq : Gathers p marker head.trees .normal q)
    (hreads : ReadsBody n total domain q "body" body rest) :
    Yields (do
      armTail (descentTo n) domain "body"
      return some (← marker.complete (.control domain form))) q
        (CastsSome p (head.around domain separator body) (bodyContext domain)) := by
  simp only [Head.around, Tree.spread_node, Tree.spreadList_append, Tree.spreadList_cons,
    Tree.spreadList_nil, List.append_nil, List.append_assoc] at h
  have hloose := Tree.loose_spread separator.leaf (Tree.loose_spread body hrest)
  have h := h.later hq.calm hq.way (hq.faces h.faces hloose) hq.context_eq
  refine (yields_armTail_written h hrest hreads).bind ?_
  intro _ r hr
  exact ((hq.enters hr).complete rfl rfl).bind fun node s hs => .pure ⟨_, rfl, hs⟩

end Arm

/-- The rule for arms of a form. -/
def armRule (descend : Descent) (domain : Domain) : ControlForm → Parse (Option Completed)
  | .matchArm => matchArm descend domain
  | _ => conditionArm descend domain

/-- An arm, in front of what ends its body. -/
theorem yields_armRule_written (hbound : 4 * total + 2 < n) {head : Head form}
    {separator : Separator} {body : Tree}
    (h : Awaits p total .normal ((head.around domain separator body).spread ++ rest))
    (hrest : rest.Loose) (hreads : ReadsBody n total domain p "body" body rest) :
    Yields (armRule (descentTo n) domain form) p
      (CastsSome p (head.around domain separator body) (bodyContext domain)) := by
  have hbody := Tree.loose_spread body hrest
  have hloose := Tree.loose_spread separator.leaf hbody
  obtain ⟨kind, hkind, word, hword⟩ := separator.exists_word
  have hseparator : (separator.leaf.spread ++ (body.spread ++ rest)).Next kind := by
    rw [hword]
    exact word.next none hbody
  have htext := h
  simp only [Head.around, Tree.spread_node, Tree.spreadList_append, Tree.spreadList_cons,
    Tree.spreadList_nil, List.append_nil, List.append_assoc] at htext
  -- The two forms of arms differ in their heads. Patterns are separated by commas, and a
  -- condition is one expression.
  cases head with
  | patterns first others =>
    simp only [Head.trees, Tree.spreadList_cons, List.append_assoc] at htext
    have hothers := Tree.loose_spreadList (furtherPatterns others) hloose
    obtain ⟨kind', hkind', hnext⟩ := next_furtherPatterns others hloose
      ⟨kind, List.mem_cons_of_mem _ hkind, hseparator⟩
    unfold armRule matchArm
    refine (yields_start_gathers h.live h.context).bind ?_
    rintro marker q ⟨hq, hmemo⟩
    have hfirst := htext.later hq.calm hq.way (hq.same htext.faces) hq.context_eq
    refine ((yields_pattern_written hfirst hothers hnext ?_).forgets forgets_pattern).bind ?_
    · rintro rfl
      exact absurd hkind' (by decide)
    rintro _ r ⟨⟨node, rfl, hr⟩, hmemo'⟩
    refine .ite_false Bool.false_ne_true ?_
    have hlater := hfirst.enters_one hr.enters hothers
    refine ((yields_furtherPatterns_written hlater hloose ⟨kind, hkind, hseparator⟩).forgets
      forgets_furtherPatterns).bind ?_
    rintro _ s ⟨hs, hmemo''⟩
    exact yields_armRest_written h hrest ((hq.enters hr.enters).enters hs)
      (hreads.of_memo (hmemo''.trans (hmemo'.trans hmemo)))
  | condition expression starts =>
    simp only [Head.trees, Tree.spreadList_cons, Tree.spreadList_nil, List.append_nil] at htext
    unfold armRule conditionArm
    refine (yields_start_gathers h.live h.context).bind ?_
    rintro marker q ⟨hq, hmemo⟩
    have hfirst := htext.later hq.calm hq.way (hq.same htext.faces) hq.context_eq
    refine (yields_value_expression (parses_descentTo n) hfirst (endsValue_separator hbody)
      (by omega) (some "condition")).bind ?_
    rintro _ r ⟨node, rfl, hr, -, hmemo'⟩
    exact .ite_false Bool.false_ne_true (yields_armRest_written h hrest (hq.enters hr.enters)
      (hreads.of_memo (hmemo'.trans hmemo)))

/-- An arm takes a token. -/
theorem yields_armRule (hbound : 4 * total + 2 < n) (h : Awaits p total context rest)
    (head : Head form) :
    Yields (armRule (descentTo n) domain form) p (Finds p none {.control domain form}) := by
  have hroom := h.room_le
  cases head with
  | patterns => exact yields_matchArm (works_descentTo n) h.live (by omega) domain
  | condition => exact yields_conditionArm (works_descentTo n) h.live (by omega) domain

/-! ### The loop over the arms -/

section Rounds

variable (hbound : 4 * total + 2 < n) {state : ArmsState} {rule : Parse (Option Completed)}

include hbound

/-- An arm is one round. -/
theorem yields_armsRound_arm {head : Head form} {separator : Separator} {body : Tree}
    (h : Awaits p total context ((head.around domain separator body).spread ++ rest))
    (hrest : rest.Loose) (hbehind : Behind state.progress p)
    (hreads : ReadsBody n total domain p "body" body rest) :
    Yields (armsRound (descentTo n) domain (armRule (descentTo n) domain form) state) p
      fun next q => ∃ state', next = .again state' ∧ Behind state'.progress q ∧
        state'.hasArm = true ∧
          Enters p [head.around domain separator body] (bodyContext domain) q := by
  obtain ⟨kind, hkind, hnext⟩ := head.exists_next domain separator body hrest
  have hrelex := Enters.relex h.live .normal
  have hbehind := hbehind.reaches hrelex.way h.live
  have h := h.same hrelex
  have hstarts : kind ∉ [TokenKind.eof, .rBrace] ∧ kind ≠ .elseKeyword := by
    revert hkind
    cases kind <;> decide
  rw [← kind_of_next hnext h.faces h.context] at hstarts
  unfold armsRound
  refine .modify (.seesAny_false hstarts.1 (.ite_false Bool.false_ne_true ?_))
  refine .mustProgress h.live hbehind fun progress hprogress => ?_
  refine .sees_false hstarts.2 (.ite_false Bool.false_ne_true ?_)
  refine ((yields_armRule_written hbound h hrest (hreads.of_memo rfl)).and
    (yields_armRule hbound h head)).bind ?_
  rintro _ q ⟨⟨node, rfl, hq⟩, -, htakes⟩
  exact .ite_true rfl (.pure ⟨_, rfl, behind_of_takes hprogress htakes h.live, rfl,
    hrelex.trans hq.enters⟩)

/-- The arm for everything else is the last round. -/
theorem yields_armsRound_else {arm : ElseArm domain}
    (h : Awaits p total context (Tree.spreadList arm.trees ++ rest)) (hend : BodyEnd rest)
    (hbehind : Behind state.progress p) :
    Yields (armsRound (descentTo n) domain rule state) p fun next q =>
      next = .done true ∧ Enters p arm.trees (bodyContext domain) q := by
  have hrelex := Enters.relex h.live .normal
  have hbehind := hbehind.reaches hrelex.way h.live
  have h := h.same hrelex
  simp only [ElseArm.trees, Tree.spreadList_cons, Tree.spreadList_nil, List.append_nil,
    List.append_assoc] at h
  have hloose := Tree.loose_spread arm.separator.leaf
    (Tree.loose_spread (arm.body.tree "else") hend.loose)
  have hkind : (p.relex .normal).kind = .elseKeyword := kind_of_code h.faces hloose h.context
  unfold armsRound
  refine .modify (.seesAny_false ?_ (.ite_false Bool.false_ne_true ?_))
  · rw [hkind]
    decide
  refine .mustProgress h.live hbehind fun progress _ => ?_
  refine .sees_true hkind (.ite_true rfl ?_)
  refine (yields_bump_code h.faces hloose h.context .normal).bind ?_
  rintro _ q ⟨hq, hfaces, -⟩
  have h := h.later hq.calm hq.way hfaces hq.context_eq
  refine (yields_armTail_written h hend.loose (readsBody_written hbound hend)).bind ?_
  intro _ r hr
  exact .pure ⟨rfl, hrelex.trans (hq.trans hr)⟩

omit hbound in
/-- Without such an arm the brace ends the arms. -/
theorem yields_armsRound_brace {descend : Descent}
    (h : Awaits p total context (Word.rBrace.leaf.spread ++ rest)) :
    Yields (armsRound descend domain rule state) p fun next q =>
      next = .done state.hasArm ∧ Enters p [] .normal q := by
  have hrelex := Enters.relex h.live .normal
  have h := h.same hrelex
  have hkind := kind_of_next (next_rBrace rest) h.faces h.context
  unfold armsRound
  refine .modify (.seesAny_true ?_ (.ite_true rfl (.pure ⟨rfl, hrelex⟩)))
  rw [hkind]
  decide

/-- What stands behind the arms with a condition or a pattern is the last
round. -/
theorem yields_armsRound_last {otherwise : Option (ElseArm domain)}
    (h : Awaits p total context
      (Tree.spreadList (elseArmTrees otherwise) ++ (Word.rBrace.leaf.spread ++ rest)))
    (hbehind : Behind state.progress p) (harm : state.hasArm = true) :
    Yields (armsRound (descentTo n) domain rule state) p fun next q =>
      next = .done true ∧ ∃ context, Enters p (elseArmTrees otherwise) context q := by
  cases otherwise with
  | none =>
    refine (yields_armsRound_brace h).mono ?_
    rintro next q ⟨rfl, hq⟩
    exact ⟨by rw [harm], _, hq⟩
  | some arm =>
    have htrees : elseArmTrees (some arm) = arm.trees := List.append_nil _
    rw [htrees] at h ⊢
    refine (yields_armsRound_else hbound h (.brace rest) hbehind).mono ?_
    rintro next q ⟨rfl, hq⟩
    exact ⟨rfl, _, hq⟩

/-- The arms of a construct, in front of the brace behind them. -/
theorem yields_arms_written {written : Arms form domain}
    (h : Awaits p total context
      (Tree.spreadList written.trees ++ (Word.rBrace.leaf.spread ++ rest))) :
    Yields (arms (descentTo n) domain (armRule (descentTo n) domain form)) p fun _ q =>
      ∃ context, Enters p written.trees context q := by
  obtain ⟨first, others, otherwise⟩ := written
  have hloose : (Tree.spreadList (elseArmTrees otherwise) ++ (Word.rBrace.leaf.spread ++ rest)).Loose :=
    Tree.loose_spreadList _ (Word.rBrace.loose none rest)
  simp only [Arms.trees, List.map_cons, List.cons_append, Tree.spreadList_cons,
    Tree.spreadList_append, List.append_assoc] at h
  have hend := bodyEnd_arms others otherwise rest
  have hmap : others.map Arm.tree = others.flatMap fun arm : Arm form domain => [arm.tree] :=
    List.map_eq_flatMap
  -- The loop has fuel for each character, and an arm has at least one.
  have hfew : others.length < p.text.length := by
    have hfaces := h.faces
    rw [← List.append_assoc, ← Tree.spreadList_cons, ← List.map_cons] at hfaces
    have hfew := hfaces.length_trees_le fun tree hmem => by
      obtain ⟨arm, -, rfl⟩ := List.mem_map.mp hmem
      obtain ⟨word, words, hleaves, -⟩ := arm.head.exists_leaves
      rw [Arm.tree, Tree.leaves, Tree.leavesList_append, hleaves]
      exact List.cons_ne_nil _ _
    rwa [List.length_map, List.length_cons] at hfew
  -- The first arm is read by a round of its own, since what is known of the loop from then on is
  -- that it has an arm.
  have hloop : Yields (loop (armsRound (descentTo n) domain (armRule (descentTo n) domain form)) {})
      p fun hasArm q => hasArm = true ∧
        ∃ context, Enters p (Arms.trees ⟨first, others, otherwise⟩) context q := by
    unfold loop
    refine .get (.rounds_again _ (yields_armsRound_arm hbound h hend.loose (behind_first p)
      (readsBody_written hbound hend)) ?_)
    rintro state q ⟨hbehind, harm, hq⟩
    have h := h.enters_one hq hend.loose
    rw [hmap] at h
    refine yields_rounds_enters (fun arm : Arm form domain => [arm.tree]) (fun state r =>
      Behind state.progress r ∧ state.hasArm = true ∧ Calm q r ∧ Reaches q r) (by omega) hloose ?_ ?_
      h.faces ⟨hbehind, harm, .refl q, .refl q⟩
    · rintro arm arms - state r ⟨hbehind, -, hcalm, hway⟩ hfaces
      rw [← List.map_eq_flatMap, Tree.spreadList_cons, Tree.spreadList_nil, List.append_nil] at hfaces
      have h := h.later hcalm hway hfaces rfl
      have hend := bodyEnd_arms arms otherwise rest
      refine (yields_armsRound_arm hbound h hend.loose hbehind (readsBody_written hbound hend)).mono ?_
      rintro next s ⟨state', hnext, hbehind', harm', hs⟩
      exact ⟨state', hnext, ⟨hbehind', harm', hcalm.trans hs.calm, hway.trans hs.way⟩, _, hs⟩
    · rintro state r ⟨hbehind, harm, hcalm, hway⟩ hfaces ⟨context', henters⟩
      have h := h.later hcalm hway hfaces rfl
      refine (yields_armsRound_last hbound h hbehind harm).mono ?_
      rintro next s ⟨hnext, context'', hs⟩
      refine ⟨true, hnext, rfl, context'', ?_⟩
      have hall := hq.trans (henters.trans hs)
      rwa [← hmap] at hall
  unfold arms
  refine hloop.bind ?_
  rintro _ q ⟨rfl, hq⟩
  exact .ite_false Bool.false_ne_true (.pure hq)

end Rounds

/-- Arms are read as these trees, in front of a brace and a rest, where no
more was decided than at a state. -/
def ReadsArms (n total : Nat) (domain : Domain) (form : ControlForm) (p : Parser)
    (trees : List Tree) (rest : Text) : Prop :=
  ∀ q, q.memo = p.memo →
    Awaits q total .normal (Tree.spreadList trees ++ (Word.rBrace.leaf.spread ++ rest)) →
      Yields (arms (descentTo n) domain (armRule (descentTo n) domain form)) q fun _ r =>
        ∃ context, Enters q trees context r

/-- That arms are read as these trees depends on the state only by what it
remembers. -/
theorem ReadsArms.of_memo {trees : List Tree} (h : ReadsArms n total domain form p trees rest)
    (hmemo : q.memo = p.memo) : ReadsArms n total domain form q trees rest :=
  fun r hr => h r (hr.trans hmemo)

/-- Arms that are written are read as their trees. The bound says that the
descent is deep enough for a source of `total` characters. -/
theorem readsArms_written (hbound : 4 * total + 2 < n) {written : Arms form domain} :
    ReadsArms n total domain form p written.trees rest :=
  fun _ _ h => yields_arms_written hbound h

/-- One arm around whatever is read as its body. -/
theorem readsArms_around (hbound : 4 * total + 2 < n) {head : Head form} {separator : Separator}
    {body : Tree} {otherwise : Option (ElseArm domain)}
    (hreads : ReadsBody n total domain p "body" body
      (Tree.spreadList (elseArmTrees otherwise) ++ (Word.rBrace.leaf.spread ++ rest))) :
    ReadsArms n total domain form p
      (head.around domain separator body :: elseArmTrees otherwise) rest := by
  intro q hmemo h
  have hloose : (Tree.spreadList (elseArmTrees otherwise) ++ (Word.rBrace.leaf.spread ++ rest)).Loose :=
    Tree.loose_spreadList _ (Word.rBrace.loose none rest)
  rw [Tree.spreadList_cons, List.append_assoc] at h
  have hloop : Yields (loop (armsRound (descentTo n) domain (armRule (descentTo n) domain form)) {})
      q fun hasArm r => hasArm = true ∧
        ∃ context, Enters q (head.around domain separator body :: elseArmTrees otherwise) context r := by
    unfold loop
    refine .get (.rounds_again _ (yields_armsRound_arm hbound h hloose (behind_first q)
      (hreads.of_memo hmemo)) ?_)
    rintro state r ⟨hbehind, harm, hr⟩
    refine .rounds_done ((yields_armsRound_last hbound (h.enters_one hr hloose) hbehind harm).mono ?_)
    rintro _ s ⟨rfl, context, hs⟩
    exact ⟨true, rfl, rfl, context, hr.trans hs⟩
  unfold arms
  refine hloop.bind ?_
  rintro _ r ⟨rfl, hr⟩
  exact .ite_false Bool.false_ne_true (.pure hr)

end Grammar

end MarkupSyntax
