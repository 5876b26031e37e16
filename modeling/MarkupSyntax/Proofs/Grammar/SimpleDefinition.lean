import MarkupSyntax.Grammar.Definitions
import MarkupSyntax.Proofs.Grammar.Roundtrip
import MarkupSyntax.Proofs.Token.Tags

/-!
# `MarkupSyntax.Proofs.Grammar.SimpleDefinition`: definitions of a line

A `SimpleDefinition` imports a module, defines a type by the name of
another one, or defines a value by a literal. It is written on one line,
with spaces where two words would run together without
(`SimpleDefinition.text`), and it is read as it is written
(`yields_moduleItem_definition`), whatever follows on the next line.

Nothing on the next line can be part of it but a dot, a question mark or
an opening bracket (`Leaf.StartsLine`): a dot would go on with a name, and
the others with a type.
-/

set_option autoImplicit false

namespace MarkupSyntax

open Grammar Parse

namespace Word

/-- The word in front of the definition of a type. -/
def typeKeyword : Word .typeKeyword := ⟨"type", ⟨⟨rfl, rfl, rfl⟩, rfl⟩⟩

/-- The word in front of an import. -/
def importKeyword : Word .importKeyword := ⟨"import", ⟨⟨rfl, rfl, rfl⟩, rfl⟩⟩

/-- The bracket that opens an array suffix. -/
def lBracket : Word .lBracket := ⟨"[", ⟨⟨rfl, rfl, rfl⟩, rfl⟩⟩

/-- The bracket that closes it. -/
def rBracket : Word .rBracket := ⟨"]", ⟨⟨rfl, rfl, rfl⟩, rfl⟩⟩

end Word

/-! ### Names and types -/

/-- A name with dots in it, or without any. -/
structure DottedName where
  first : Word .identifier
  others : List (Word .identifier)

namespace DottedName

/-- The tree of a name, in a field. -/
def tree (name : DottedName) (field : Option String) : Tree :=
  .node field .qualifiedName (name.first.leaf :: segmentTrees name.others)

/-- The words of the name. -/
def words (name : DottedName) : List Leaf :=
  name.first.token :: Tree.leavesList (segmentTrees name.others)

/-- The name as a text, without anything between its words. -/
def text (name : DottedName) : Text := name.words.flatMap (·.text)

/-- The leaves of a name are its words, in any field. -/
@[simp] theorem leaves_tree (name : DottedName) (field : Option String) :
    (name.tree field).leaves = name.words := rfl

/-- A built-in type has a name of one word. -/
def isPrimitive (name : DottedName) : Bool :=
  name.others.isEmpty && primitiveTypes.contains name.first.text

/-- The name as that of a type. -/
def typeTree (name : DottedName) : Tree :=
  if name.isPrimitive then .node none .primitiveType [name.first.leaf]
  else .node none .userDefinedType [name.tree (some "name")]

/-- So are those of a name that stands for a type. -/
@[simp] theorem leaves_typeTree (name : DottedName) : name.typeTree.leaves = name.words := by
  unfold typeTree
  split
  · rename_i hprimitive
    simp only [isPrimitive, Bool.and_eq_true, List.isEmpty_iff] at hprimitive
    rw [words, hprimitive.1]
    rfl
  · exact List.append_nil _

end DottedName

/-- What stands behind the name of a type. -/
inductive TypeSuffix where
  | none
  /-- `?` -/
  | nullable
  /-- `[]` -/
  | array

namespace TypeSuffix

/-- The trees of what may follow a type: `?`, `[` and `]`, or nothing. -/
def trees : TypeSuffix → List Tree
  | none => []
  | nullable => [Word.question.leaf (some "nullable")]
  | array => [Word.lBracket.leaf, Word.rBracket.leaf]

/-- The words of a suffix. -/
def words (suffix : TypeSuffix) : List Leaf := Tree.leavesList suffix.trees

/-- The text of a suffix, without spaces. -/
def text (suffix : TypeSuffix) : Text := suffix.words.flatMap (·.text)

end TypeSuffix

/-! ### Definitions -/

/-- A definition without braces and elements in it. -/
inductive SimpleDefinition where
  /-- `import name` -/
  | importing (name : DottedName)
  /-- `type name = base`, perhaps with something behind the base. -/
  | type (name : Word .identifier) (base : DottedName) (suffix : TypeSuffix)
  /-- `let name = literal` -/
  | value (name : Word .identifier) (literal : Constant)

namespace SimpleDefinition

/-- The tree of the definition, without trivia. -/
def tree : SimpleDefinition → Tree
  | importing name => .node none .importStatement [Word.importKeyword.leaf, name.tree (some "name")]
  | type name base suffix =>
    .node none .typeDefinition
      [Word.typeKeyword.leaf, name.leaf (some "name"), Word.equal.leaf,
        .node (some "type") .typeReference (base.typeTree :: suffix.trees)]
  | value name literal =>
    .node none .valueDefinition
      [Word.letKeyword.leaf, name.leaf (some "name"), Word.equal.leaf,
        (Term.literal literal).tree.withField (some "value")]

/-- The words that the definition is written as. -/
def words (definition : SimpleDefinition) : List Leaf := definition.tree.leaves

/-- The definition as a text. -/
def text : SimpleDefinition → Text
  | importing name => Text.ofString "import " ++ name.text
  | type name base suffix =>
    Text.ofString "type " ++ (name.text ++ (Text.ofString " = " ++ (base.text ++ suffix.text)))
  | value name literal =>
    Text.ofString "let " ++ (name.text ++ (Text.ofString " = " ++ literal.word.text))

variable (name : DottedName) (word : Word .identifier) (suffix : TypeSuffix) (literal : Constant)

/-- The words of an import. -/
@[simp] theorem words_importing :
    (importing name).words = Word.importKeyword.token :: name.words := by
  simp [words, tree, Tree.leaves, Tree.leavesList, Word.leaf]

/-- The words of the definition of a type. -/
@[simp] theorem words_type :
    (type word name suffix).words
      = Word.typeKeyword.token :: word.token :: Word.equal.token :: (name.words ++ suffix.words) := by
  simp [words, tree, Tree.leaves, Tree.leavesList, Word.leaf, TypeSuffix.words]

/-- The words of the definition of a value. -/
@[simp] theorem words_value :
    (value word literal).words
      = [Word.letKeyword.token, word.token, Word.equal.token, literal.word.token] := rfl

/-- A definition starts with a keyword. -/
theorem exists_words_eq_cons (definition : SimpleDefinition) :
    ∃ word rest, definition.words = word :: rest ∧ word.lexed.kind ∈ definitionKeywords := by
  cases definition with
  | importing name => exact ⟨_, _, words_importing name, by decide⟩
  | type name base suffix => exact ⟨_, _, words_type base name suffix, by decide⟩
  | value name literal => exact ⟨_, _, words_value name literal, by decide⟩

/-- The words of definitions that follow one another. -/
def wordsList (definitions : List SimpleDefinition) : List Leaf := definitions.flatMap words

/-- The words of some definitions, with those of the first one in front. -/
@[simp] theorem wordsList_cons (definition : SimpleDefinition)
    (definitions : List SimpleDefinition) :
    wordsList (definition :: definitions) = definition.words ++ wordsList definitions := rfl

/-- Each of them is a token by itself. -/
theorem isWord_of_mem_words (definition : SimpleDefinition) :
    ∀ word ∈ definition.words, word.IsWord := by
  have hname : ∀ name : DottedName, ∀ word ∈ name.words, word.IsWord := fun name =>
    List.forall_mem_cons.mpr ⟨name.first.spells, fun word hmem =>
      (isPart_of_mem_segmentTrees name.others word hmem).isWord⟩
  cases definition with
  | importing name =>
    rw [words_importing]
    exact List.forall_mem_cons.mpr ⟨Word.importKeyword.spells, hname name⟩
  | type name base suffix =>
    have hsuffix : ∀ word ∈ suffix.words, word.IsWord := by
      cases suffix with
      | none => exact nofun
      | nullable => exact List.forall_mem_singleton.mpr Word.question.spells
      | array =>
        exact List.forall_mem_cons.mpr ⟨Word.lBracket.spells,
          List.forall_mem_singleton.mpr Word.rBracket.spells⟩
    rw [words_type]
    refine List.forall_mem_cons.mpr ⟨Word.typeKeyword.spells, List.forall_mem_cons.mpr ⟨name.spells,
      List.forall_mem_cons.mpr ⟨Word.equal.spells, ?_⟩⟩⟩
    exact List.forall_mem_append.mpr ⟨hname base, hsuffix⟩
  | value name literal =>
    exact List.forall_mem_cons.mpr ⟨Word.letKeyword.spells, List.forall_mem_cons.mpr ⟨name.spells,
      List.forall_mem_cons.mpr ⟨Word.equal.spells,
        List.forall_mem_singleton.mpr literal.word.spells⟩⟩⟩

/-- The same of some definitions. -/
theorem isWord_of_mem_wordsList {definitions : List SimpleDefinition} :
    ∀ word ∈ wordsList definitions, word.IsWord := by
  intro word hmem
  obtain ⟨definition, -, hword⟩ := List.mem_flatMap.mp hmem
  exact definition.isWord_of_mem_words word hword

/-- There are no more definitions than words, which bounds the loop over the
module. -/
theorem length_le_wordsList (definitions : List SimpleDefinition) :
    definitions.length ≤ (wordsList definitions).length := by
  induction definitions with
  | nil => exact Nat.zero_le _
  | cons definition definitions ih =>
    obtain ⟨word, rest, hwords, -⟩ := definition.exists_words_eq_cons
    rw [wordsList_cons, List.length_append, List.length_cons, hwords, List.length_cons]
    omega

end SimpleDefinition

/-! ### Reading the words -/

section Lexing

variable {rest behind : Text} {tokens : List Lexed}

/-- Further segments of a name end where a name ends. -/
theorem continuesName_head?_segments (names : List (Word .identifier))
    (hrest : ∀ c ∈ rest.head?, Lexeme.continuesName false c = false) :
    ∀ c ∈ ((Tree.leavesList (segmentTrees names)).flatMap (·.text) ++ rest).head?,
      Lexeme.continuesName false c = false := by
  cases names with
  | nil => exact hrest
  | cons name names =>
    rintro c ⟨⟩
    decide

/-- A name is read in front of everything that does not continue it. -/
theorem lexes_segments (names : List (Word .identifier))
    (hrest : ∀ c ∈ rest.head?, Lexeme.continuesName false c = false)
    (later : Lexes rest tokens behind) :
    Lexes ((Tree.leavesList (segmentTrees names)).flatMap (·.text) ++ rest)
      ((Tree.leavesList (segmentTrees names)).map Leaf.lexed ++ tokens) behind := by
  induction names with
  | nil => exact later
  | cons name names ih =>
    have hname := (Lexeme.names_word name).splits_behind (continuesName_head?_segments names hrest)
    have hdot : ∀ t, Lexeme.Splits .normal .dot Word.dot.text t := fun _ => ⟨rfl, rfl, rfl⟩
    have hlexes := Lexes.word (hdot _) rfl (.word hname name.spells.solid ih)
    simpa only [leavesList_segmentTrees_cons, List.flatMap_cons, List.append_assoc, List.map_cons,
      List.cons_append, Word.lexed_token, Word.text_token] using hlexes

/-- So is a name with a space in front of it. -/
theorem DottedName.lexes (name : DottedName)
    (hrest : ∀ c ∈ rest.head?, Lexeme.continuesName false c = false)
    (later : Lexes rest tokens behind) :
    Lexes (CodePoint.ofChar ' ' :: (name.text ++ rest)) (name.words.map Leaf.lexed ++ tokens)
      behind := by
  have hfirst := (Lexeme.names_word name.first).splits_behind
    (continuesName_head?_segments name.others hrest)
  have hlexes := Lexes.spacedWord name.first.spells hfirst (lexes_segments name.others hrest later)
  rw [text, words, List.flatMap_cons, List.append_assoc]
  exact hlexes

/-- What stands behind the name of a type does not continue the name. -/
theorem TypeSuffix.continuesName_head? (suffix : TypeSuffix)
    (hrest : ∀ c ∈ rest.head?, Lexeme.continuesName false c = false) :
    ∀ c ∈ (suffix.text ++ rest).head?, Lexeme.continuesName false c = false := by
  cases suffix with
  | none => exact hrest
  | nullable | array =>
    rintro c ⟨⟩
    decide

/-- A suffix is read as its words, whatever is behind it. None of its words
needs a space behind it. -/
theorem TypeSuffix.lexes (suffix : TypeSuffix) (later : Lexes rest tokens behind) :
    Lexes (suffix.text ++ rest) (suffix.words.map Leaf.lexed ++ tokens) behind := by
  cases suffix with
  | none => exact later
  | nullable => exact .word ⟨rfl, rfl, rfl⟩ rfl later
  | array =>
    have hclosing : Lexeme.Splits .normal .rBracket Word.rBracket.text rest := ⟨rfl, rfl, rfl⟩
    have hopening : Lexeme.Splits .normal .lBracket Word.lBracket.text
        (Word.rBracket.text ++ rest) := ⟨rfl, rfl, rfl⟩
    exact .word hopening rfl (.word hclosing rfl later)

/-- A definition is read as its words in front of white space. -/
theorem SimpleDefinition.lexes (definition : SimpleDefinition)
    (hrest : ∀ c ∈ rest.head?, c.isWhitespace = true) (later : Lexes rest tokens behind) :
    Lexes (definition.text ++ rest) (definition.words.map Leaf.lexed ++ tokens) behind := by
  have hends : ∀ c ∈ rest.head?, Lexeme.continuesName false c = false :=
    fun c hc => Lexeme.continuesName_blank (hrest c hc)
  have hspace : ∀ {t : Text}, ∀ c ∈ (CodePoint.ofChar ' ' :: t).head?, c.isWhitespace = true := by
    rintro t c ⟨⟩
    rfl
  have hequals : Text.ofString " = "
      = CodePoint.ofChar ' ' :: (Word.equal.text ++ [CodePoint.ofChar ' ']) := rfl
  -- The words are put in front of each other from the last to the first: each ends at the space
  -- behind it, and the last one at `rest`.
  cases definition with
  | importing name =>
    have hkeyword : Text.ofString "import " = Word.importKeyword.text ++ [CodePoint.ofChar ' '] := rfl
    have hall := Lexes.word (Word.importKeyword.spells.splits_behind hspace) rfl
      (name.lexes hends later)
    simpa only [text, hkeyword, words_importing, List.map_cons, Word.lexed_token, List.append_assoc,
      List.cons_append, List.nil_append] using hall
  | type name base suffix =>
    have hkeyword : Text.ofString "type " = Word.typeKeyword.text ++ [CodePoint.ofChar ' '] := rfl
    have hbase := base.lexes (suffix.continuesName_head? hends) (suffix.lexes later)
    have hequal := Lexes.spacedWord Word.equal.spells (Word.equal.spells.splits_behind hspace) hbase
    have hname := Lexes.spacedWord name.spells (name.spells.splits_behind hspace) hequal
    have hall := Lexes.word (Word.typeKeyword.spells.splits_behind hspace) rfl hname
    simpa only [text, hkeyword, hequals, words_type, List.map_cons, List.map_append,
      Word.lexed_token, List.append_assoc, List.cons_append, List.nil_append] using hall
  | value name literal =>
    have hkeyword : Text.ofString "let " = Word.letKeyword.text ++ [CodePoint.ofChar ' '] := rfl
    have hvalue := Lexes.spacedWord literal.word.spells (literal.word.spells.splits_behind hrest) later
    have hequal := Lexes.spacedWord Word.equal.spells (Word.equal.spells.splits_behind hspace) hvalue
    have hname := Lexes.spacedWord name.spells (name.spells.splits_behind hspace) hequal
    have hall := Lexes.word (Word.letKeyword.spells.splits_behind hspace) rfl hname
    simpa only [text, hkeyword, hequals, words_value, List.map_cons, List.map_nil,
      Word.lexed_token, List.append_assoc, List.cons_append, List.nil_append] using hall

end Lexing

/-! ### Parsing the words -/

/-- These words start a line on which no definition of the line before
goes on. -/
structure Leaf.StartsLine (rest : List Leaf) : Prop where
  ne_nil : rest ≠ []
  kind : firstKind rest ∉ [TokenKind.dot, .question, .lBracket]

/-- Words that do not go on with a name. -/
structure Leaf.EndsName (rest : List Leaf) : Prop where
  ne_nil : rest ≠ []
  kind : firstKind rest ≠ .dot

/-- What starts a line does not go on with the name in front of it. -/
theorem Leaf.StartsLine.endsName {rest : List Leaf} (h : StartsLine rest) : EndsName rest :=
  ⟨h.ne_nil, fun hdot => h.kind (by rw [hdot]; decide)⟩

/-- What stands behind the name of a type does not go on with it. -/
theorem TypeSuffix.endsName (suffix : TypeSuffix) {rest : List Leaf} (hrest : Leaf.StartsLine rest) :
    Leaf.EndsName (suffix.words ++ rest) := by
  cases suffix with
  | none => exact hrest.endsName
  | nullable | array => exact ⟨List.cons_ne_nil _ _, TokenKind.noConfusion⟩

namespace Grammar

variable {p q r : Parser} {rest : List Leaf}

/-- Further segments of a name, one round for each. -/
theorem yields_segments_words {names : List (Word .identifier)} (hrest : Leaf.EndsName rest)
    (h : p.Before (Tree.leavesList (segmentTrees names) ++ rest)) {fuel : Nat}
    (enough : names.length < fuel) :
    Yields (rounds (fun _ => do
        if ← (do
          if !(← sees .dot) then return false
          if !(← nthIs 1 .identifier) then return false
          bump
          bump
          return true : Parse Bool) then return .again () else return .done ()) fuel ()) p
      fun _ q => Writes p (segmentTrees names) q := by
  -- Segment by segment: each round takes a dot and a name, and the fuel is more than the
  -- segments.
  induction names generalizing p fuel with
  | nil =>
    obtain ⟨fuel, rfl⟩ : ∃ n, fuel = n + 1 := ⟨fuel - 1, by omega⟩
    -- What is behind the name must not go on with it.
    have hkind : p.kind ≠ .dot := by
      rw [h.kind_of_ne_nil hrest.ne_nil]
      exact hrest.kind
    refine .rounds_done ?_
    refine .bind_known (.sees_false hkind (.ite_true rfl (.pure ⟨rfl, rfl⟩))) ?_
    exact .pure ⟨(), rfl, .nil h⟩
  | cons name names ih =>
    obtain ⟨fuel, rfl⟩ : ∃ n, fuel = n + 1 := ⟨fuel - 1, by omega⟩
    rw [leavesList_segmentTrees_cons] at h
    have hstep : Yields (do
        if !(← sees .dot) then return false
        if !(← nthIs 1 .identifier) then return false
        bump
        bump
        return true) p fun again q => again = true ∧ Writes p (Word.segment name) q := by
      refine .sees_true h.kind (.ite_false Bool.false_ne_true ?_)
      refine (yields_nthIs_words h (n := 1) (fun word hmem => ?_) (by simp) .identifier).bind ?_
      · rw [List.mem_singleton.mp hmem]
        exact Word.dot.spells
      rintro _ q ⟨rfl, hq⟩
      have h := h.same hq.toCovers
      refine .ite_false (show ¬(!true) = true from Bool.false_ne_true) ?_
      refine (yields_bump_word h (by decide) none).bind ?_
      intro _ r hr
      refine (yields_bump_word (h.tail hr.toCovers) (by decide) none).bind ?_
      intro _ s hs
      exact .pure ⟨rfl, (hq.trans hr).trans hs⟩
    refine .rounds_again (fun _ q => Writes p (Word.segment name) q) (hstep.bind ?_) ?_
    · rintro _ q ⟨rfl, hq⟩
      exact .pure ⟨(), rfl, hq⟩
    · intro _ q hq
      have h : p.Before ([Word.dot.token, name.token] ++
          (Tree.leavesList (segmentTrees names) ++ rest)) := h
      refine (ih (h.after hq.toCovers) (by
        rw [List.length_cons] at enough
        omega)).mono ?_
      exact fun _ r hr => hq.trans hr

/-- A name with dots in it. -/
theorem yields_qualifiedName_words {name : DottedName} (hrest : Leaf.EndsName rest)
    (h : p.Before (name.words ++ rest)) (field : Option String) :
    Yields (qualifiedName field) p (Answers p (name.tree field)) := by
  unfold qualifiedName
  refine .sees_true h.kind (.ite_false Bool.false_ne_true ?_)
  refine (yields_start_word h.live h.context).bind ?_
  intro marker q hq
  have h := h.same hq.toCovers
  refine (yields_bump_word h (by decide) none).bind ?_
  intro _ r hr
  have h := h.tail hr.toCovers
  have hsegments : Yields (whileTrue do
      if !(← sees .dot) then return false
      if !(← nthIs 1 .identifier) then return false
      bump
      bump
      return true) r fun _ s => Writes r (segmentTrees name.others) s := by
    have hfew : name.others.length ≤ r.text.length := by
      have hwords := h.length_le fun word hmem => (isPart_of_mem_segmentTrees _ word hmem).isWord
      rw [length_leavesList_segmentTrees] at hwords
      omega
    unfold whileTrue loop
    exact .get (yields_segments_words hrest h (by omega))
  refine hsegments.bind ?_
  intro _ s hs
  refine (((hq.writes hr).writes hs).complete rfl (Outline.fits_of_isLoose rfl)).bind ?_
  intro node t ht
  refine (ht.setField field).bind ?_
  rintro _ u ⟨rfl, hu⟩
  exact .pure hu

/-- The name of a type. -/
theorem yields_typeName_words {name : DottedName} (hrest : Leaf.EndsName rest)
    (h : p.Before (name.words ++ rest)) :
    Yields typeName p fun _ q => Writes p [name.typeTree] q := by
  have htext : p.currentText = name.first.text := by
    obtain ⟨behind, hfaces⟩ := h.faces
    exact hfaces.currentText h.context
  -- Whether the name is primitive is decided before the marker is started, so the rest is shown
  -- for either answer, if it is the right one.
  have hnode : ∀ isPrimitive q, isPrimitive = name.isPrimitive → Writes p [] q →
      Yields (do
        let marker ← start
        if isPrimitive then
          bump
          let _ ← marker.complete .primitiveType
        else
          let _ ← qualifiedName (some "name")
          let _ ← marker.complete .userDefinedType) q fun _ r => Writes p [name.typeTree] r := by
    rintro _ q rfl hq
    have h := h.same hq.toCovers
    refine (yields_start_word h.live h.context).bind ?_
    intro marker r hr
    have h := h.same hr.toCovers
    rw [DottedName.typeTree]
    by_cases hprimitive : name.isPrimitive = true
    · rw [if_pos hprimitive, if_pos hprimitive]
      refine (yields_bump_word h (by decide) none).bind ?_
      intro _ s hs
      refine ((hr.writes hs).complete rfl (Outline.fits_of_isLoose rfl)).bind ?_
      exact fun node t ht => .pure (hq.trans ht.writes)
    · rw [if_neg hprimitive, if_neg hprimitive]
      refine (yields_qualifiedName_words hrest h (some "name")).bind ?_
      rintro (_ | node) s hs
      · exact hs.elim
      refine ((hr.writes hs.writes).complete rfl (Outline.fits_of_isLoose rfl)).bind ?_
      exact fun node t ht => .pure (hq.trans ht.writes)
  unfold typeName
  refine .get ?_
  rw [htext]
  -- A name with dots is not primitive, even if its first part is the name of a primitive type. So
  -- the token behind that is looked at.
  by_cases hmem : primitiveTypes.contains name.first.text = true
  · refine .ite_true hmem ?_
    have hpos : 0 < (Tree.leavesList (segmentTrees name.others) ++ rest).length :=
      List.length_pos_iff.mpr (List.append_ne_nil_of_right_ne_nil _ hrest.ne_nil)
    refine (yields_nthIs_words h (n := 1) (fun word hword => ?_) (Nat.succ_lt_succ hpos) .dot).bind ?_
    · rw [List.mem_singleton.mp hword]
      exact name.first.spells
    rintro _ q ⟨rfl, hq⟩
    refine hnode _ q ?_ hq
    rw [DottedName.isPrimitive, hmem, Bool.and_true]
    show (!decide (Leaf.firstKind (Tree.leavesList (segmentTrees name.others) ++ rest) = .dot)) = _
    cases name.others with
    | nil => simpa [segmentTrees, Tree.leavesList] using hrest.kind
    | cons => rfl
  · refine .ite_false hmem (.bind_known (.pure ⟨rfl, rfl⟩) (hnode false p ?_ (.nil h)))
    rw [DottedName.isPrimitive, Bool.eq_false_iff.mpr hmem, Bool.and_false]

/-- A type, into a field. -/
theorem yields_expectType_words {name : DottedName} {suffix : TypeSuffix}
    (hrest : Leaf.StartsLine rest) (h : p.Before (name.words ++ (suffix.words ++ rest))) :
    Yields (expectType (some "type")) p fun _ q =>
      Writes p [.node (some "type") .typeReference (name.typeTree :: suffix.trees)] q := by
  have htype : Yields (Grammar.type (some "type")) p
      (Answers p (.node (some "type") .typeReference (name.typeTree :: suffix.trees))) := by
    unfold Grammar.type
    refine .sees_true h.kind (.ite_false Bool.false_ne_true ?_)
    refine (yields_start_word h.live h.context).bind ?_
    intro marker q hq
    have h := h.same hq.toCovers
    refine (yields_typeName_words (suffix.endsName hrest) h).bind ?_
    intro _ r hr
    have hconsumes := hr.toCovers
    rw [Tree.leavesList, Tree.leavesList, List.append_nil, DottedName.leaves_typeTree] at hconsumes
    have h := h.after hconsumes
    -- All three suffixes end in the same way.
    have hend : ∀ s, Writes r suffix.trees s → Yields (do
        let node ← marker.complete .typeReference
        return some (← node.setField (some "type"))) s
        (Answers p (.node (some "type") .typeReference (name.typeTree :: suffix.trees))) := by
      intro s hs
      refine (((hq.writes hr).writes hs).complete rfl (Outline.fits_of_isLoose rfl)).bind ?_
      intro node t ht
      refine (ht.setField (some "type")).bind ?_
      rintro _ u ⟨rfl, hu⟩
      exact .pure hu
    -- Without a suffix, what comes next must be none: this is what `StartsLine` is for.
    cases suffix with
    | none =>
      have hkind : r.kind ∉ [TokenKind.dot, .question, .lBracket] := by
        rw [h.kind_of_ne_nil hrest.ne_nil]
        exact hrest.kind
      refine .sees_false (fun heq => hkind (by rw [heq]; decide)) (.ite_false Bool.false_ne_true ?_)
      refine (yields_eat_other (fun heq => hkind (by rw [heq]; decide)) .normal none).bind ?_
      rintro _ s ⟨rfl, hs⟩
      rw [hs]
      exact .ite_false Bool.false_ne_true (hend r (.nil h))
    | nullable =>
      refine .sees_true h.kind (.ite_true rfl ?_)
      refine (yields_bump_word h (by decide) (some "nullable")).bind ?_
      exact fun _ s hs => hend s hs
    | array =>
      have hkind : r.kind = .lBracket := h.kind
      refine .sees_false (by rw [hkind]; decide) (.ite_false Bool.false_ne_true ?_)
      refine (yields_eat_word h (by decide) none).bind ?_
      rintro _ s ⟨rfl, hs⟩
      refine .ite_true rfl ?_
      refine (yields_expect_word (h.tail hs.toCovers) (by decide) none).bind ?_
      exact fun _ t ht => hend t (hs.trans ht)
  unfold expectType
  refine htype.bind ?_
  rintro (_ | node) q hq
  · exact hq.elim
  · exact .pure hq.writes

/-! ### Parsing definitions -/

/-- `import name` -/
theorem yields_importStatement_words {name : DottedName} (hrest : Leaf.EndsName rest)
    (h : p.Before ((SimpleDefinition.importing name).words ++ rest)) :
    Yields importStatement p fun node q =>
      Draws p (SimpleDefinition.importing name).tree node q := by
  rw [SimpleDefinition.words_importing] at h
  unfold importStatement
  refine (yields_start_word h.live h.context).bind ?_
  intro marker q hq
  have h := h.same hq.toCovers
  refine (yields_bump_word h (by decide) none).bind ?_
  intro _ r hr
  refine (yields_qualifiedName_words hrest (h.tail hr.toCovers) (some "name")).bind ?_
  rintro (_ | node) s hs
  · exact hs.elim
  refine .ite_false Bool.false_ne_true ?_
  exact ((hq.writes hr).writes hs.writes).complete rfl (Outline.fits_of_isLoose rfl)

/-- A name is expected where one stands. -/
theorem yields_expectNameInto_word {name : Word .identifier} (h : p.Before (name.token :: rest))
    (field : String) :
    Yields (expectNameInto field) p fun _ q => Writes p [name.leaf (some field)] q := by
  unfold expectNameInto
  exact .sees_true h.kind (.ite_true rfl (yields_bump_word h (by decide) (some field)))

/-- `type name = base` -/
theorem yields_typeDefinition_words {name : Word .identifier} {base : DottedName}
    {suffix : TypeSuffix} (hrest : Leaf.StartsLine rest)
    (h : p.Before ((SimpleDefinition.type name base suffix).words ++ rest)) :
    Yields typeDefinition p fun node q =>
      Draws p (SimpleDefinition.type name base suffix).tree node q := by
  rw [SimpleDefinition.words_type] at h
  simp only [List.cons_append, List.append_assoc] at h
  unfold typeDefinition
  refine (yields_start_word h.live h.context).bind ?_
  intro marker q hq
  have h := h.same hq.toCovers
  refine (yields_bump_word h (by decide) none).bind ?_
  intro _ r hr
  have h := h.tail hr.toCovers
  refine (yields_expectNameInto_word h "name").bind ?_
  intro _ s hs
  have h := h.tail hs.toCovers
  refine (yields_expect_word h (by decide) none).bind ?_
  intro _ t ht
  refine (yields_expectType_words hrest (h.tail ht.toCovers)).bind ?_
  intro _ u hu
  exact ((((hq.writes hr).writes hs).writes ht).writes hu).complete rfl (Outline.fits_of_isLoose rfl)

/-- A literal as what is defined. -/
theorem yields_rightSide_literal {descend : Descent} {literal : Constant}
    (h : p.Before (literal.word.token :: rest)) (field : Option String) :
    Yields (rightSide descend field) p fun _ q =>
      Writes p [(Term.literal literal).tree.withField field] q := by
  have hkind : p.kind = literal.token := h.kind
  have hother : ∀ kind, literal.token = kind → literalKind? kind ≠ none := by
    rintro _ rfl
    rw [literal.isLiteral]
    exact Option.some_ne_none _
  unfold rightSide
  refine .modify ?_
  rw [Parser.relex_of_context h.context]
  refine .get ?_
  rw [hkind]
  split
  · exact absurd rfl (hother .lessThan ‹_›)
  · exact absurd rfl (hother .lBrace ‹_›)
  · refine (yields_literal_word literal h field).bind ?_
    rintro (_ | node) q hq
    · exact hq.elim
    · exact .pure hq.writes

/-- `let name = value`, for a value whose words are read as this tree. -/
theorem yields_valueDefinition_of_rightSide {descend : Descent} {name : Word .identifier}
    {words : List Leaf} {tree : Tree}
    (h : p.Before (Word.letKeyword.token :: name.token :: Word.equal.token :: words))
    (hvalue : ∀ q, Calm p q → q.Before words → Yields (rightSide descend (some "value")) q fun _ r =>
      Writes q [tree] r) :
    Yields (valueDefinition descend) p fun node q =>
      Draws p (.node none .valueDefinition
        [Word.letKeyword.leaf, name.leaf (some "name"), Word.equal.leaf, tree]) node q := by
  unfold valueDefinition
  refine (yields_start_word h.live h.context).bind ?_
  intro marker q hq
  have h := h.same hq.toCovers
  refine (yields_bump_word h (by decide) none).bind ?_
  intro _ r hr
  have h := h.tail hr.toCovers
  refine (yields_expectNameInto_word h "name").bind ?_
  intro _ s hs
  have h := h.tail hs.toCovers
  -- No type is written: the `=` is seen at once.
  have hannotation : Yields ( typeAnnotation "type") s fun _ t => t = s := by
    unfold typeAnnotation
    have hkind : s.kind = .equal := h.kind
    refine (yields_eat_other (by rw [hkind]; decide) .normal none).bind ?_
    rintro _ _ ⟨rfl, rfl⟩
    exact .ite_false Bool.false_ne_true (.pure rfl)
  refine hannotation.bind ?_
  rintro _ _ rfl
  refine (yields_expect_word h (by decide) none).bind ?_
  intro _ t ht
  have hcalm := ((hq.calm.trans hr.calm).trans hs.calm).trans ht.calm
  refine (hvalue t hcalm (h.tail ht.toCovers)).bind ?_
  intro _ u hu
  exact ((((hq.writes hr).writes hs).writes ht).writes hu).complete (by decide)
    (Outline.fits_of_isLoose rfl)

/-- Behind `let` and a name no parenthesis stands, so the definition is
not one of a function. -/
theorem yields_seesFunctionHead_words {name : Word .identifier} {words : List Leaf}
    (h : p.Before (Word.letKeyword.token :: name.token :: Word.equal.token :: words)) :
    Yields seesFunctionHead p fun answer q => answer = false ∧ Writes p [] q := by
  have hlet : ∀ word ∈ [Word.letKeyword.token], word.IsWord :=
    List.forall_mem_singleton.mpr Word.letKeyword.spells
  have hname : ∀ word ∈ [Word.letKeyword.token, name.token], word.IsWord :=
    List.forall_mem_cons.mpr ⟨Word.letKeyword.spells, List.forall_mem_singleton.mpr name.spells⟩
  unfold seesFunctionHead
  refine (yields_nthIs_words h (n := 1) hlet (by simp) .lessThan).bind ?_
  rintro _ q ⟨rfl, hq⟩
  refine .ite_false (show ¬false = true from Bool.false_ne_true) ?_
  have h := h.same hq.toCovers
  refine (yields_nthIs_words h (n := 1) hlet (by simp) .identifier).bind ?_
  rintro _ r ⟨rfl, hr⟩
  refine .ite_true (show true = true from rfl) ?_
  have h := h.same hr.toCovers
  refine (yields_nthIs_words h (n := 2) hname (by simp) .lParen).mono ?_
  rintro _ s ⟨rfl, hs⟩
  exact ⟨show false = false from rfl, (hq.trans hr).trans hs⟩

/-- A definition is an item of a module. -/
theorem yields_moduleItem_definition {descend : Descent} (definition : SimpleDefinition)
    (hrest : Leaf.StartsLine rest) (h : p.Before (definition.words ++ rest)) :
    Yields (moduleItem descend) p (Answers p definition.tree) := by
  unfold moduleItem
  refine .get ?_
  cases definition with
  | importing name =>
    have hkind : p.kind = .importKeyword := h.kind
    rw [hkind]
    refine (yields_importStatement_words hrest.endsName h).bind ?_
    exact fun node q hq => .pure hq
  | type name base suffix =>
    have hkind : p.kind = .typeKeyword := h.kind
    rw [hkind]
    refine (yields_typeDefinition_words hrest h).bind ?_
    exact fun node q hq => .pure hq
  | value name literal =>
    have hkind : p.kind = .letKeyword := h.kind
    rw [hkind]
    refine (yields_seesFunctionHead_words h).bind ?_
    rintro _ q ⟨rfl, hq⟩
    refine .ite_false Bool.false_ne_true ?_
    refine (yields_valueDefinition_of_rightSide (h.same hq.toCovers) fun r _ hr =>
      yields_rightSide_literal hr (some "value")).bind ?_
    exact fun node r hr => .pure (hr.after hq)

end Grammar

end MarkupSyntax
