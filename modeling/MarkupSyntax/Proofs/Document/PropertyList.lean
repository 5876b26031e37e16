import MarkupSyntax.Proofs.Document.Element
import MarkupSyntax.Proofs.Grammar.PropertyList
import MarkupSyntax.Proofs.Token.Literal

/-!
# `MarkupSyntax.Proofs.Document.PropertyList`: property lists are read back

The properties of a tag can be written without any space in them and with
single spaces between them (`MarkupName.closedSource`). They are read back
with their names and the values of their literals, in order
(`Document.parse_closedSource`), if the names can be read ahead: in front
of a `=` the lookahead reads as outside tags, where a hyphen and a digit
behind it are no part of a name. In the first segment of a name this does
no harm, since that one was read in the tag.
-/

set_option autoImplicit false

namespace MarkupSyntax

open Grammar

/-! ### Properties without spaces -/

/-- A literal starts with no mark. -/
theorem Constant.exists_cons (value : Constant) :
    ∃ c tail, value.word.text = c :: tail ∧ c ≠ '=' ∧ c ≠ '>' := by
  obtain ⟨c, tail, htext, -⟩ := value.word.spells.exists_cons
  have hsplits := value.word.spells.splits
  rw [htext, Lexeme.splits_cons] at hsplits
  have hmark : ∀ d : CodePoint, c = d →
      (∀ rest, Lexeme.next .normal d rest = Lexeme.mark false d rest) → False := by
    rintro d rfl hnext
    have hkind := hsplits.1
    rw [hnext] at hkind
    exact Lexeme.kind_mark (List.mem_append_left _ (hkind ▸ value.token_mem))
  exact ⟨c, tail, htext, fun h => hmark _ h fun _ => rfl, fun h => hmark _ h fun _ => rfl⟩

/-- A name with dots has a leaf for each of its tokens. -/
theorem MarkupName.length_leaves_tree (name : MarkupName) (field : String) :
    (name.tree field).leaves.length = name.tokens.length := by
  simpa using congrArg List.length (name.texts_tree field)

namespace Property

variable {property : Property} {rest : Text}

/-- `name=literal` without spaces in it, and with one in front. -/
def touching (property : Property) : Text :=
  CodePoint.ofChar ' ' :: (property.name.text ++ CodePoint.ofChar '=' :: property.value.word.text)

/-- Where the parts of such a property begin, in front of any rest. -/
theorem touching_append (property : Property) (rest : Text) :
    property.touching ++ rest = [CodePoint.ofChar ' '] ++ (property.name.text ++
      CodePoint.ofChar '=' :: (property.value.word.text ++ rest)) := by
  simp [touching]

/-- What is behind the name. -/
theorem lexes_equal (property : Property) (hrest : rest.Loose) :
    Lexes (CodePoint.ofChar '=' :: (property.value.word.text ++ rest))
      [tagEqual, property.value.word.lexed] rest := by
  have hsplits := property.value.word.spells.splits_behind hrest.head?
  have hvalue := Lexes.word hsplits property.value.word.spells.solid (.nil rest)
  have hequal : Lexeme.Splits .tag .equal [CodePoint.ofChar '=']
      (property.value.word.text ++ rest) := ⟨rfl, rfl, rfl⟩
  exact @Lexes.cons tagEqual _ [] _ _ _ (.token hequal rfl) hvalue

/-- A property without spaces is read in front of a space. -/
theorem readsFrom_touching (h : property.name.Resumes) (hrest : rest.Loose) :
    property.ReadsFrom (property.touching ++ rest) rest := by
  have hspace : Text.White [CodePoint.ofChar ' '] := by decide
  have hhead : ∀ c ∈ (CodePoint.ofChar '=' :: (property.value.word.text ++ rest)).head?,
      Lexeme.continuesName true c = false := by
    rintro c ⟨⟩
    decide
  rw [touching_append]
  refine ⟨(property.name.lexes_white hspace hhead).append (property.lexes_equal hrest), ?_⟩
  -- The first segment is read in the tag, the others are looked at as code.
  have hfirst := property.name.first.dotted.lexes_white hspace
    (MarkupName.head_further property.name.others hhead)
  rw [TagName.dotted, MarkupName.text, MarkupName.furtherText, List.flatMap_nil, List.append_nil]
    at hfirst
  obtain ⟨tokens, hahead⟩ := h.exists_ahead hhead
  obtain ⟨c, tail, htext, hne⟩ := property.value.exists_cons
  have hequal : Scans .normal (CodePoint.ofChar '=' :: (property.value.word.text ++ rest)) [] .equal
      [CodePoint.ofChar '='] (property.value.word.text ++ rest) := by
    rw [htext]
    exact .token (Lexeme.splits_equal hne) rfl
  rw [MarkupName.text, List.append_assoc]
  exact ⟨_, tokens, _, [], _, _, hfirst, hahead, hequal⟩

/-- Some properties without spaces in them are read one by one, each in front of
the next. -/
theorem writes_touching {properties : List Property}
    (h : ∀ property ∈ properties, property.name.Resumes) : Writes properties touching where
  loose _ _ := ⟨_, rfl⟩
  reads property hmem _ hmore := readsFrom_touching (h property hmem) hmore

/-- The leaves of a property have the texts of its tokens. -/
theorem texts_tree (property : Property) :
    property.tree.leaves.map (·.text) = property.tokens.map (·.text) := by
  simp [tree, tokens, Tree.leaves, Tree.leavesList, property.name.texts_tree, Term.tree,
    Tree.withField, Lexed.leaf, Word.leaf, Word.lexed]

/-- There is no element in a property. -/
theorem element_notMem_kinds (property : Property) : SyntaxKind.element ∉ property.tree.kinds := by
  have hname := property.name.element_notMem_kinds "name"
  have hvalue := (Term.literal property.value).element_notMem_kinds
  simp [tree, Lexed.leaf, hname, hvalue]

/-- A name has a leaf for each token. -/
theorem length_leaves_tree (property : Property) :
    property.tree.leaves.length = property.tokens.length := by
  simpa using congrArg List.length property.texts_tree

/-- The same for properties one after another. -/
theorem texts_trees (properties : List Property) :
    (Tree.leavesList (properties.map tree)).map (·.text)
      = (properties.flatMap tokens).map (·.text) := by
  induction properties with
  | nil => rfl
  | cons property properties ih =>
    rw [List.map_cons, Tree.leavesList, List.map_append, texts_tree, ih, List.flatMap_cons,
      List.map_append]

/-- The list of the properties is left out where there are none, which leaves
the texts as they are. -/
theorem texts_listTrees (properties : List Property) :
    (Tree.leavesList (listTrees properties)).map (·.text)
      = (properties.flatMap tokens).map (·.text) := by
  cases properties with
  | nil => rfl
  | cons property others =>
    rw [listTrees, Tree.leavesList, Tree.leavesList, List.append_nil]
    exact texts_trees (property :: others)

end Property

/-! ### Elements that close themselves -/

namespace MarkupName

variable {name : MarkupName} {properties : List Property}

/-- An element that closes itself, with properties without spaces in them
and nothing else. -/
def closedSource (name : MarkupName) (properties : List Property) : Text :=
  CodePoint.ofChar '<' :: (name.text ++ (properties.flatMap Property.touching ++ selfClosing))

/-- The tag is read up to the end of its name. -/
theorem lexes_tagName (name : MarkupName) {rest : Text} (hrest : rest.Loose) :
    Lexes (CodePoint.ofChar '<' :: (name.text ++ rest)) (.lessThan .normal :: name.tokens) rest := by
  have hhead : ∀ c ∈ rest.head?, Lexeme.continuesName true c = false := fun c hc =>
    Lexeme.continuesName_of_isWhitespace (hrest.head? c hc) true
  have htag := (Consists.token (.lessThan .normal) (name.splits_start rest) rfl
    (name.consists_name hhead (.nil rest))).lexes
  rwa [List.append_nil, ← List.map_cons, Lexed.map_lexed_piece] at htag

/-- The source is read as the element. -/
theorem lexes_closedSource (h : ∀ property ∈ properties, property.name.Resumes) :
    Lexes (name.closedSource properties) (name.closedTokens properties) [] := by
  obtain ⟨hproperties, hloose⟩ := (Property.writes_touching h).lexes ⟨_, rfl⟩
  have htag := (name.lexes_tagName hloose).append (hproperties.append (lexes_selfClosing []))
  rwa [List.cons_append] at htag

/-- The leaves of the whole element have the texts of its tokens. -/
theorem texts_closedTree (name : MarkupName) (properties : List Property) (field : Option String) :
    (name.closedTree properties field).leaves.map (·.text)
      = (name.closedTokens properties).map (·.text) := by
  simp [closedTree, closedTokens, Tree.leaves, Tree.leavesList, Tree.leavesList_append,
    name.texts_tree, Property.texts_listTrees, Lexed.leaf]

/-- It has no closing tag, and no element is inside. -/
theorem closed_closedTree (name : MarkupName) (properties : List Property) (field : Option String) :
    (name.closedTree properties field).Closed := by
  have hname := name.closed_tree "name"
  have hlist : ∀ tree ∈ Property.listTrees properties,
      tree.Closed ∧ tree.field? = some "properties" := by
    cases properties with
    | nil => exact List.forall_mem_nil _
    | cons property others =>
      have hkind : SyntaxKind.propertyList ≠ .element := by decide
      refine List.forall_mem_singleton.mpr
        ⟨Tree.closed_node (fun h => absurd h hkind) fun tree hmem => ?_, rfl⟩
      obtain ⟨property, -, rfl⟩ := List.mem_map.mp hmem
      exact Tree.closed_of_notMem_kinds property.element_notMem_kinds
  refine Tree.closed_element name.text ?_ ?_
  · simp only [List.forall_mem_cons, List.forall_mem_append]
    exact ⟨Tree.closed_leaf _ _, hname, fun tree hmem => (hlist tree hmem).1, Tree.closed_leaf _ _,
      Tree.closed_leaf _ _, List.forall_mem_nil _⟩
  · simp only [List.forall_mem_cons, List.forall_mem_append]
    refine ⟨?_, fun _ => name.name_tree "name", fun tree hmem => ?_, ?_, ?_, List.forall_mem_nil _⟩
    · simp [Lexed.leaf, Tree.field?]
    · simp [(hlist tree hmem).2]
    · simp [Lexed.leaf, Tree.field?]
    · simp [Lexed.leaf, Tree.field?]

end MarkupName

/-! ### What is read back -/

/-- The part is a property of this name, and its value is a literal for
which reading gives this answer: a value, or the reason why there is none. -/
structure Located.IsProperty (part : Located) (name : Text)
    (value : Except LiteralFault LiteralValue) : Prop where
  kind : part.kind = .propertyValue
  name : (⟨part⟩ : PropertyValue).name? = some name
  value : ∃ literal, (⟨part⟩ : PropertyValue).value? = some (.literal literal) ∧ literal.value = value

namespace LiteralSpelling

/-- The literal as the value of a property. -/
def constant (literal : LiteralSpelling) : Constant where
  token := literal.token
  kind := literal.kind
  isLiteral := by rcases literal with _ | _ | (_ | _) | _ <;> rfl
  word := literal.word

variable {literal : LiteralSpelling} {part : Located} {field : Option String} {pieces : List Piece}

/-- The node of a literal is read as what was written. -/
theorem literalValue_eq
    (h : Located.Spans [part] [(Term.literal literal.constant).tree.withField field] pieces) :
    part.literalValue = literal.value := by
  obtain ⟨first, hfirst, hkind, htext⟩ := h.exists_firstToken?
  have hnode : part.kind = literal.kind := h.kind_eq
  have htoken : first.kind = .token literal.token := hkind
  have hwritten : first.text = literal.text := htext
  simp only [Located.literalValue, hfirst, hnode, hwritten]
  rcases literal with ⟨digit, others⟩ | content | (_ | _) | _
  · by_cases hmany : Text.maxDecimalDigits < (digit :: others).length <;>
      simp only [kind, text, value, Text.decimalInteger_ofDigits, hmany, if_true, if_false]
  · simp only [kind, text, value, StringLiteral.value_ofContent]
    rfl
  · simp [kind, value, htoken, token]
  · simp [kind, value, htoken, token]
  · rfl

/-- The node of a literal is seen as one. -/
theorem view?_eq
    (h : Located.Spans [part] [(Term.literal literal.constant).tree.withField field] pieces) :
    part.nodeView? = some (.literal ⟨part⟩) := by
  have hnode : part.kind = literal.kind := h.kind_eq
  have hisNode : part.isNode = true := Located.Spans.isNode_eq_true h
  rw [Located.nodeView?, hisNode, if_pos rfl, Located.view?, hnode]
  rcases literal with _ | _ | _ | _ <;> rfl

end LiteralSpelling

/-- A property whose value is a literal. -/
def Property.ofPair (pair : MarkupName × LiteralSpelling) : Property := ⟨pair.1, pair.2.constant⟩

/-- A property is read back: its name is joined from the segments, and its value
is a literal that stands for what was written. -/
theorem Property.isProperty {pair : MarkupName × LiteralSpelling} {part : Located}
    {pieces : List Piece} (hpieces : pieces.map (·.lexed) = (ofPair pair).tokens)
    (h : Located.Spans [part] [(ofPair pair).tree] pieces) :
    part.IsProperty pair.1.text pair.2.value := by
  obtain ⟨name, literal⟩ := pair
  have hchildren := h.children
  obtain ⟨front, back, rfl, hfront, hback⟩ := List.map_eq_append_iff.mp hpieces
  obtain ⟨equal, behind, rfl, -, hbehind⟩ := List.map_eq_cons_iff.mp hback
  have hone : behind.length = 1 := by simpa using congrArg List.length hbehind
  have hname : (name.tree "name").leaves.length = front.length := by
    rw [name.length_leaves_tree, ← List.length_map (f := Piece.lexed), hfront]
    rfl
  have hspans : Located.Spans part.children
      ([name.tree "name", tagEqual.leaf none] ++ (Term.literal literal.constant).tree.withField
        (some "value") :: []) ((front ++ [equal]) ++ (behind ++ [])) := by
    rw [List.append_nil, List.append_assoc]
    exact hchildren
  obtain ⟨value, hvalue, hliteral⟩ := hspans.exists_child? "value"
    (by simp [MarkupName.tree, Lexed.leaf, Tree.field?]) rfl
    (by simp [Tree.leavesList, Tree.leaves, hname, Lexed.leaf])
    (by simpa [Term.tree, Tree.withField, Tree.leaves, Tree.leavesList, Word.leaf] using hone.symm)
  refine ⟨h.kind_eq, ?_, ⟨value⟩, ?_, LiteralSpelling.literalValue_eq hliteral⟩
  · rw [PropertyValue.name?, hchildren.nameIn?_eq "name"]
    exact congrArg some (name.name_tree "name")
  · rw [PropertyValue.value?, Located.fieldView?, hvalue]
    exact LiteralSpelling.view?_eq hliteral

/-- The properties of an element that closes itself, if there are any. -/
theorem MarkupName.exists_propertyList {name : MarkupName} {property : Property}
    {others : List Property} {element : Located} {pieces : List Piece} {field : Option String}
    (hpieces : pieces.map (·.lexed) = name.closedTokens (property :: others))
    (h : Located.Spans [element] [name.closedTree (property :: others) field] pieces) :
    ∃ list inner, element.child? "properties" = some list ∧
      inner.map (·.lexed) = (property :: others).flatMap Property.tokens ∧
      Located.Spans [list] [.node (some "properties") .propertyList
        ((property :: others).map Property.tree)] inner := by
  -- In front of the list stand the `<` and the name, behind it the end of the tag.
  obtain ⟨front, back, rfl, hfront, hback⟩ := List.map_eq_append_iff.mp
    (show pieces.map (·.lexed) = (.lessThan .normal :: name.tokens) ++ _ from hpieces)
  obtain ⟨inner, behind, rfl, hinner, -⟩ := List.map_eq_append_iff.mp hback
  have hspans : Located.Spans element.children
      ([(Lexed.lessThan .normal).leaf none, name.tree "name"] ++
        .node (some "properties") .propertyList ((property :: others).map Property.tree) ::
          [Lexed.slash.leaf none, Lexed.greaterThan.leaf none]) (front ++ (inner ++ behind)) :=
    h.children
  have hname := name.length_leaves_tree "name"
  have hlength := congrArg List.length hfront
  have hlength' := congrArg List.length hinner
  have hlist := congrArg List.length (Property.texts_trees (property :: others))
  rw [List.length_map] at hlength hlength'
  rw [List.length_map, List.length_map] at hlist
  obtain ⟨list, hchild, hlist⟩ := hspans.exists_child? "properties"
    (by simp [Lexed.leaf, Tree.field?, MarkupName.tree]) rfl
    (by simp [Tree.leavesList, Lexed.leaf, Tree.leaves, hname, hlength])
    (hlist.trans hlength'.symm)
  exact ⟨list, inner, hchild, hinner, hlist⟩

/-! ### The document -/

namespace Grammar

open Parse

variable {p : Parser} {name : MarkupName} {properties : List Property}

/-- The pieces and the tree of an element that closes itself. -/
def ClosedWritten (name : MarkupName) (properties : List Property) (pieces : List Piece)
    (tree : Tree) : Prop :=
  pieces.map (·.lexed) = name.closedTokens properties ∧
    tree = name.closedTree properties (some "element")

/-- The parse of a source that is one element that closes itself. -/
theorem yields_module_closed (hnames : ∀ property ∈ properties, property.name.Resumes)
    (h : p.Faces [] (name.closedSource properties)) (hcontext : p.context = .normal)
    (hdepth : p.depth < p.options.maxNestingDepth) :
    Yields (module descent) p fun node q => ∃ pieces tree, ClosedWritten name properties pieces tree ∧
      Consists (name.closedSource properties) pieces [] ∧
        Shapes p (pieces.map (·.lexed)) (.node none .moduleDefinition [tree]) node .normal q := by
  obtain ⟨pieces, hpieces, hconsists⟩ := (name.lexes_closedSource hnames).exists_consists
  have hwrites := Property.writes_touching hnames
  have hloose : selfClosing.Loose := ⟨_, rfl⟩
  have hsource : name.closedSource properties = CodePoint.ofChar '<' :: (name.first.text ++
      (MarkupName.furtherText name.others ++ (properties.flatMap Property.touching ++ selfClosing))) := by
    rw [MarkupName.closedSource, MarkupName.text, List.append_assoc]
  refine yields_module_element h hcontext hsource fun q hq _ => ?_
  have htag := (h.same hq).append (name.lexes_tagName (hwrites.lexes hloose).2)
  have hbound : 4 * q.text.length ≤ 4 * p.text.length + 7 := by
    rw [hq.text h.live]
    omega
  refine (yields_element_closed (works_descentTo _) hbound hwrites hloose (lexes_selfClosing []) htag
    hq.context (by rwa [hq.calm.depth, hq.calm.options]) (some "element")).mono ?_
  intro node r hr
  exact ⟨pieces, _, ⟨hpieces, rfl⟩, hconsists, hpieces ▸ hr⟩

end Grammar

namespace Document

open MarkupName

/-- Properties with literal values are read back: their names and values, in
order, and nothing is reported. There is at least one pair, and the names and
the spellings of the values are arbitrary but for `Resumes`: in the segments of
a name behind the first, a hyphen must be followed by one more or by what can
start a name. The lookahead reads those segments as outside tags, and fails on
others (`exists_property_unseen`).

Reading a value gives what was written. For an integer with too many digits it
fails, as `LiteralSpelling.value` says, though the property itself is parsed
like any other. -/
theorem parse_closedSource (tag : MarkupName) (pairs : List (MarkupName × LiteralSpelling))
    (nonempty : pairs ≠ []) (resumes : ∀ pair ∈ pairs, pair.1.Resumes) (options : Options)
    (file : Text) (deepEnough : 1 ≤ options.maxNestingDepth) :
    ∃ document element list,
      parse (.ofText (tag.closedSource (pairs.map Property.ofPair))) options file = .ok document ∧
      document.IsElement element ∧ (⟨element⟩ : Element).name? = some tag.text ∧
      (⟨element⟩ : Element).properties? = some list ∧ list.node.kind = .propertyList ∧
      List.Forall₂ (fun pair part => part.IsProperty pair.1.text pair.2.value) pairs
        list.node.children := by
  have hnames : ∀ property ∈ pairs.map Property.ofPair, property.name.Resumes := by
    intro property hmem
    obtain ⟨pair, hpair, rfl⟩ := List.mem_map.mp hmem
    exact resumes pair hpair
  have hrun := yields_module_closed hnames (faces_ofText (.nil (tag.closedSource _))) rfl
    (show (parser _ options file).depth < options.maxNestingDepth from deepEnough)
  obtain ⟨document, element, pieces, tree, hparse, helement, ⟨hpieces, rfl⟩, hspans⟩ :=
    exists_parse_of_element hrun (by
      rintro pieces _ ⟨hpieces, rfl⟩
      refine ⟨tag.closed_closedTree _ _, ?_, _, rfl⟩
      rw [MarkupName.texts_closedTree, ← hpieces, List.map_map]
      rfl)
  -- An element without properties has no list, which is why there has to be one pair.
  obtain ⟨pair, others, rfl⟩ := List.exists_cons_of_ne_nil nonempty
  obtain ⟨list, inner, hchild, hinner, hlist⟩ := exists_propertyList hpieces hspans
  have hnode : list.isNode = true := hlist.isNode_eq_true
  refine ⟨document, element, ⟨list⟩, hparse, helement, ?_, ?_, hlist.kind_eq, ?_⟩
  · exact (hspans.children.nameIn?_eq "name").trans (congrArg some (tag.name_tree "name"))
  · simp [Element.properties?, Located.nodeIn?, hchild, hnode]
  · have hitems := hlist.children
    rw [← List.map_cons, List.map_map] at hitems
    rw [← List.map_cons, List.flatMap_map] at hinner
    refine (hitems.forall₂ (fun pair => (Property.ofPair pair).length_leaves_tree) hinner).imp ?_
    rintro pair part ⟨pieces, hpieces, hpart⟩
    exact Property.isProperty hpieces hpart

/-- Names with keywords and with hyphens, in the first segment also in
front of a digit, and a literal of each kind. -/
theorem parse_closedSource_four :
    let letter : TagName := .ofText 'a' "" (by decide) (by decide)
    let keyword : TagName := .ofText 'i' "f" (by decide) (by decide)
    let numbered : TagName := .ofText '_' "-1" (by decide) (by decide)
    let hyphens : TagName := .ofText 'l' "et--x2-" (by decide) (by decide)
    let tag : MarkupName := ⟨letter, [numbered]⟩
    let pairs : List (MarkupName × LiteralSpelling) :=
      [(⟨numbered, [letter]⟩, .integer 0 [4, 2]), (⟨keyword, []⟩, .string "\\u\"\n=\x7b"),
        (⟨letter, [hyphens, keyword]⟩, .boolean true), (⟨numbered, []⟩, .null)]
    pairs ≠ [] ∧ (∀ pair ∈ pairs, pair.1.Resumes) ∧ (1 : Int) ≤ ({} : Options).maxNestingDepth ∧
      tag.closedSource (pairs.map Property.ofPair) = Text.ofString
        "<a._-1 _-1.a=042 if=\"\\\\u\\\"\n=\x7b\" a.let--x2-.if=true _-1=null />" ∧
      ∃ document element list,
        parse (.ofText (tag.closedSource (pairs.map Property.ofPair))) {} "f" = .ok document ∧
        document.IsElement element ∧ (⟨element⟩ : Element).name? = some tag.text ∧
        (⟨element⟩ : Element).properties? = some list ∧ list.node.kind = .propertyList ∧
        List.Forall₂ (fun pair part => part.IsProperty pair.1.text pair.2.value) pairs
          list.node.children := by
  intro letter keyword numbered hyphens tag pairs
  have nonempty : pairs ≠ [] := List.cons_ne_nil _ _
  have resumes : ∀ pair ∈ pairs, pair.1.Resumes := by decide
  have deepEnough : (1 : Int) ≤ ({} : Options).maxNestingDepth := by decide
  exact ⟨nonempty, resumes, deepEnough, by decide,
    parse_closedSource tag pairs nonempty resumes {} "f" deepEnough⟩

/-- A digit behind a hyphen stops the lookahead in a segment that is not the
first, though the name is read as one in a tag. So no property is seen, and the
tag is said to end in front of it. -/
theorem exists_property_unseen :
    let letter : TagName := .ofText 'a' "" (by decide) (by decide)
    let numbered : TagName := .ofText 'b' "-1" (by decide) (by decide)
    let property : Property := .ofPair (⟨letter, [numbered]⟩, .integer 1 [])
    letter.dotted.closedSource [property] = Text.ofString "<a a.b-1=1 />" ∧
      ¬ property.name.Resumes ∧
      ∃ document, parse (.ofText (letter.dotted.closedSource [property])) {} "f" = .ok document ∧
        document.diagnostics.map (fun diagnostic => (diagnostic.code, diagnostic.range))
          = [(.expectedToken, .ofLength 3 1)] ∧
        ∀ node ∈ document.root.nodes, node.kind ≠ .propertyList := by
  intro letter numbered property
  have hsource : letter.dotted.closedSource [property] = Text.ofString "<a a.b-1=1 />" := by decide
  have hany : (parse (.ofText "<a a.b-1=1 />") {} "f").toOption.any (fun document =>
      (document.diagnostics.map (fun diagnostic => (diagnostic.code, diagnostic.range))
        = [(.expectedToken, .ofLength 3 1)]) &&
      document.root.nodes.all fun node => node.kind ≠ .propertyList) = true := by
    decide +kernel
  obtain ⟨document, hparse, hcheck⟩ := exists_ok_of_any hany
  rw [Bool.and_eq_true, decide_eq_true_eq, List.all_eq_true] at hcheck
  refine ⟨hsource, by decide, document, hsource ▸ hparse, hcheck.1, fun node hmem => ?_⟩
  exact of_decide_eq_true (hcheck.2 node hmem)

end Document

end MarkupSyntax
