import MarkupSyntax.Proofs.Grammar.PropertyList

/-!
# `MarkupSyntax.Proofs.Grammar.EmptyElement`: spread properties and empty elements

The properties of a tag, and elements that close themselves, are read as
they are written, where their tokens are spread. A name without dots is
one token in code, too, so the `=` behind it is what the lookahead sees
next (`Assignment.readsFrom`).
-/

set_option autoImplicit false

namespace MarkupSyntax

open Grammar

/-! ### What comes next in a text -/

/-- A token is spread as a space and its text, in any field. -/
@[simp] theorem Lexed.spread_leaf (token : Lexed) (field : Option String) :
    (token.leaf field).spread = CodePoint.ofChar ' ' :: token.text := by
  simp [Tree.spread, Lexed.leaf, Tree.leaves, Leaf.spread]

/-- A token that stands alone in code is the next one of the text in which it is
spread. -/
theorem Lexed.Solo.next {token : Lexed} (h : token.Solo) (hcode : token.context = .normal)
    (field : Option String) {rest : Text} (hrest : rest.Loose) :
    ((token.leaf field).spread ++ rest).Next token.kind := by
  have hscan := h.scans hrest
  rw [hcode] at hscan
  rw [spread_leaf]
  exact ⟨_, _, _, List.cons_ne_nil _ _, hscan⟩

namespace Word

variable {kind : TokenKind} (word : Word kind) (field : Option String)

/-- The leaf of a word is that of its token. -/
theorem leaf_lexed : word.lexed.leaf field = word.leaf field := rfl

/-- A word stands alone. -/
theorem solo : word.lexed.Solo := Lexed.solo_word word

/-- A word is spread behind a space. -/
theorem loose (rest : Text) : ((word.leaf field).spread ++ rest).Loose := ⟨_, rfl⟩

/-- A word that is spread is the next token, if what follows is loose. -/
theorem next {rest : Text} (hrest : rest.Loose) : ((word.leaf field).spread ++ rest).Next kind :=
  word.solo.next rfl field hrest

/-- A mark that is one in a tag, too. -/
theorem solo_tag (h : Lexeme.Splits .tag kind word.text []) :
    (⟨.tag, kind, word.text⟩ : Lexed).Solo := ⟨.inr rfl, h, word.spells.solid⟩

end Word

/-- The node around a name adds nothing to what is spread. -/
@[simp] theorem TagName.spread_tree (name : TagName) (field : String) :
    (name.tree field).spread = (name.lexed.leaf none).spread := by
  simp [tree]

/-- Nor does the one around a literal. -/
@[simp] theorem Term.spread_literal (value : Constant) :
    (Term.literal value).tree.spread = value.word.leaf.spread := by
  simp [tree]

/-- Each token of a name is one by itself. -/
theorem MarkupName.spell (name : MarkupName) (field : String) :
    Lexed.Spell name.tokens (name.tree field).leaves where
  solo := by
    intro token hmem
    rcases List.mem_cons.mp hmem with rfl | hmem
    · exact Lexed.solo_name name.first
    · obtain ⟨segment, -, hmem⟩ := List.mem_flatMap.mp hmem
      rcases List.mem_pair.mp hmem with rfl | rfl
      · exact ⟨.inr rfl, Lexeme.splits_dot, rfl⟩
      · exact Lexed.solo_name segment
  texts := (name.texts_tree field).symm

/-! ### Properties -/

/-- The `=` of a property stands alone. -/
theorem solo_tagEqual : tagEqual.Solo := Word.equal.solo_tag ⟨rfl, rfl, rfl⟩

namespace Assignment

variable {rest : Text}

/-- A property is spread as its name, `=` and its value. -/
theorem spread_tree (assignment : Assignment) :
    assignment.tree.spread = (assignment.tagName.lexed.leaf none).spread ++
      (Word.equal.leaf.spread ++ assignment.value.word.leaf.spread) := by
  simp [tree]

/-- The assignment, as a property. -/
def property (assignment : Assignment) : Property := ⟨assignment.tagName.dotted, assignment.value⟩

/-- Each token of an assignment is one by itself. -/
theorem spell (assignment : Assignment) :
    Lexed.Spell assignment.property.tokens assignment.tree.leaves :=
  (Lexed.Spell.singleton (Lexed.solo_name assignment.tagName) none).append
    ((Lexed.Spell.singleton solo_tagEqual none).append
      (Lexed.Spell.singleton assignment.value.word.solo none))

/-- A spread assignment is read as a property. -/
theorem readsFrom (assignment : Assignment) (hrest : rest.Loose) :
    assignment.property.ReadsFrom (assignment.tree.spread ++ rest) rest where
  lexes := assignment.spell.lexes hrest
  ahead := by
    have hloose := Tree.loose_spread assignment.value.word.leaf hrest
    obtain ⟨gap, first, behind, -, hscan⟩ := Word.equal.next none hloose
    have hname := (Lexed.Spell.singleton (Lexed.solo_name assignment.tagName) none).lexes
      (Word.equal.loose none (assignment.value.word.leaf.spread ++ rest))
    rw [spread_tree, List.append_assoc, List.append_assoc]
    exact ⟨_, [], _, gap, first, behind, hname, .nil _, hscan⟩

/-- Some of them are properties that are written as spread trees. -/
theorem writes (assignments : List Assignment) :
    Property.Writes (assignments.map property) fun item => item.tree.spread where
  loose _ _ := ⟨_, rfl⟩
  reads := by
    intro item hmem more hmore
    obtain ⟨assignment, -, rfl⟩ := List.mem_map.mp hmem
    exact assignment.readsFrom hmore

/-- The trees of a list of properties are those of its items. Both sides have no
list node where there are no properties. -/
theorem listTrees_map (assignments : List Assignment) :
    Property.listTrees (assignments.map property) = propertyTrees "properties" assignments := by
  cases assignments with
  | nil => rfl
  | cons assignment others =>
    show [Tree.node _ _ (((assignment :: others).map property).map Property.tree)] = _
    rw [List.map_map]
    rfl

/-- The tokens of some of them. -/
theorem spell_flatMap (assignments : List Assignment) :
    Lexed.Spell ((assignments.map property).flatMap Property.tokens)
      (Tree.leavesList (assignments.map tree)) := by
  induction assignments with
  | nil => exact .nil
  | cons assignment assignments ih => exact assignment.spell.append ih

/-- The node of a list has the leaves of its properties. -/
theorem leavesList_propertyTrees (field : String) (assignments : List Assignment) :
    Tree.leavesList (propertyTrees field assignments) = Tree.leavesList (assignments.map tree) := by
  cases assignments with
  | nil => rfl
  | cons => exact List.append_nil _

/-- So a list is spread as its properties are. -/
theorem spread_propertyTrees (field : String) (assignments : List Assignment) :
    (assignments.map property).flatMap (fun item => item.tree.spread)
      = Tree.spreadList (propertyTrees field assignments) := by
  rw [Tree.spreadList, leavesList_propertyTrees, ← Tree.spreadList, Tree.spreadList_eq_flatMap,
    List.flatMap_map, List.flatMap_map]
  rfl

end Assignment

namespace Grammar

open Parse

variable {p q r : Parser} {descend : Descent} {bound : Nat} {rest text : Text} {token : Lexed}
  {kind : TokenKind} {field : Option String}

/-- A word of code is consumed. -/
theorem yields_bump_code {word : Word kind} (h : p.Faces [] ((word.leaf field).spread ++ rest))
    (hrest : rest.Loose) (hcontext : p.context = .normal) (after : LexContext) :
    Yields (bump after field) p fun _ q => Enters p [word.leaf field] after q ∧ q.Faces [] rest ∧
      q.memo = p.memo :=
  have h : p.Faces [] ((word.lexed.leaf field).spread ++ rest) := h
  yields_bump_solo h word.solo hrest hcontext after

/-- A word that is expected in code and spread there is taken, and the rest
comes next. The token behind it is read in the context that is given. -/
theorem yields_expect_code {word : Word kind} (h : p.Faces [] ((word.leaf field).spread ++ rest))
    (hrest : rest.Loose) (hcontext : p.context = .normal) (after : LexContext) :
    Yields (expect kind after field) p fun found q => found = true ∧
      Enters p [word.leaf field] after q ∧ q.Faces [] rest ∧ q.memo = p.memo :=
  have h : p.Faces [] ((word.lexed.leaf field).spread ++ rest) := h
  yields_expect_solo h word.solo hrest hcontext after

/-- A word of code is the current token. -/
theorem kind_of_code {word : Word kind} (h : p.Faces [] ((word.leaf field).spread ++ rest))
    (hrest : rest.Loose) (hcontext : p.context = .normal) : p.kind = kind :=
  have h : p.Faces [] ((word.lexed.leaf field).spread ++ rest) := h
  h.kind_solo word.solo hrest hcontext

/-- A literal, with a space in front of it. -/
theorem yields_literal_spread {value : Constant}
    (h : p.Faces [] (value.word.leaf.spread ++ rest)) (hrest : rest.Loose)
    (hcontext : p.context = .normal) (field : Option String) :
    Yields (literal field) p (CastsSome p ((Term.literal value).tree.withField field) .normal) := by
  have h : p.Faces [] ((value.word.lexed.leaf none).spread ++ rest) := h
  have hbefore : p.Before [value.word.token] := ⟨⟨rest, h.solo value.word.solo hrest⟩, hcontext⟩
  refine (yields_literal_word value hbefore field).mono ?_
  rintro (_ | node) q hq
  · exact hq.elim
  refine ⟨node, rfl, hq.casts fun word hmem => ?_⟩
  rw [Tree.leaves_withField] at hmem
  exact (Term.literal value).isWord_of_mem_words hmem

/-! ### Lists of properties -/

/-- Some spread properties are read as a list of them. -/
theorem yields_propertyList_assignments (hw : Works descend bound)
    (hbound : 4 * p.text.length ≤ bound) {first : Assignment} {others : List Assignment}
    {inArm : Bool} (h : p.Faces [] (Tree.spreadList ((first :: others).map (·.tree)) ++ rest))
    (hrest : rest.Loose) (hend : PropertiesEnd inArm rest) (field : String) :
    Yields (propertyList descend (some field) inArm) p fun answer q => ∃ node, answer = some node ∧
      Casts p (.node (some field) .propertyList ((first :: others).map (·.tree))) node .tag q := by
  have hsame : (first :: others).map (·.tree)
      = ((first :: others).map Assignment.property).map Property.tree := by
    rw [List.map_map]
    rfl
  rw [hsame, Tree.spreadList_eq_flatMap, List.flatMap_map] at h
  refine (yields_propertyList_tokens hw hbound (Assignment.writes (first :: others)) h hrest hend
    field).mono ?_
  rintro _ q ⟨node, rfl, hq⟩
  exact ⟨node, rfl, _, Assignment.spell_flatMap (first :: others), hsame ▸ hq⟩

/-! ### Empty elements -/

/-- The slash of a tag stands alone. -/
theorem solo_slash : Lexed.slash.Solo := Word.slash.solo_tag ⟨rfl, rfl, rfl⟩

/-- The `>` of a tag stands alone. -/
theorem solo_greaterThan : Lexed.greaterThan.Solo := Word.greaterThan.solo_tag ⟨rfl, rfl, rfl⟩

/-- The end of an empty element. -/
def emptyEnd : List Tree := [Word.slash.leaf, Word.greaterThan.leaf]

/-- The end of an empty element is spread, too. -/
theorem spell_emptyEnd : Lexed.Spell [.slash, .greaterThan] (Tree.leavesList emptyEnd) :=
  (Lexed.Spell.singleton solo_slash none).append (Lexed.Spell.singleton solo_greaterThan none)

/-- The tokens of an empty element are those of its tree. -/
theorem spell_closedTokens (empty : EmptyElement) :
    Lexed.Spell (empty.name.closedTokens (empty.properties.map Assignment.property))
      empty.tree.leaves := by
  have hproperties := Assignment.spell_flatMap empty.properties
  rw [← Assignment.leavesList_propertyTrees "properties"] at hproperties
  have hend := hproperties.append spell_emptyEnd
  rw [← Tree.leavesList_append] at hend
  exact (Lexed.Spell.singleton Word.lessThan.solo none).append
    ((empty.name.spell "name").append hend)

/-- The tree of an empty element is that of a tag that closes itself, with these
properties. -/
theorem closedTree_eq (empty : EmptyElement) (field : Option String) :
    empty.name.closedTree (empty.properties.map Assignment.property) field
      = empty.tree.withField field := by
  rw [MarkupName.closedTree, Assignment.listTrees_map]
  rfl

/-- An empty element starts with its mark and its name. -/
theorem faces_empty {empty : EmptyElement} (h : p.Faces [] (empty.tree.spread ++ rest))
    (hrest : rest.Loose) :
    p.Faces (.lessThan .normal :: empty.name.tokens)
      ((empty.properties.map Assignment.property).flatMap (fun item => item.tree.spread) ++
        (Tree.spreadList emptyEnd ++ rest)) := by
  have hspread : empty.tree.spread ++ rest = ((Lexed.lessThan .normal).leaf none).spread ++
      ((empty.name.tree "name").spread ++
        (Tree.spreadList (propertyTrees "properties" empty.properties) ++
          (Tree.spreadList emptyEnd ++ rest))) := by
    rw [EmptyElement.tree, Tree.spread_node]
    simp [emptyEnd]
    rfl
  have hloose := Tree.loose_spreadList (propertyTrees "properties" empty.properties)
    (Tree.loose_spreadList emptyEnd hrest)
  rw [hspread] at h
  rw [Assignment.spread_propertyTrees "properties"]
  exact (h.solo Word.lessThan.solo (Tree.loose_spread _ hloose)).append
    ((empty.name.spell "name").lexes hloose)

/-- An empty element, which is one level of nesting. -/
theorem yields_element_empty (hw : Works descend bound) (hbound : 4 * p.text.length ≤ bound)
    (hrest : rest.Loose) {empty : EmptyElement} (h : p.Faces [] (empty.tree.spread ++ rest))
    (hcontext : p.context = .normal) (hdepth : p.depth < p.options.maxNestingDepth)
    (field : Option String) :
    Yields (element descend field) p fun node q =>
      Casts p (empty.tree.withField field) node .normal q := by
  refine (yields_element_closed hw hbound (Assignment.writes empty.properties)
    (Tree.loose_spreadList emptyEnd hrest) (spell_emptyEnd.lexes hrest) (faces_empty h hrest)
    hcontext hdepth field).mono fun node q hq => ?_
  have hspell := spell_closedTokens empty
  rw [← Tree.leaves_withField empty.tree field] at hspell
  exact ⟨_, hspell, closedTree_eq empty field ▸ hq⟩

end Grammar

end MarkupSyntax
