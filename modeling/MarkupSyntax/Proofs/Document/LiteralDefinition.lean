import MarkupSyntax.Proofs.Document.PropertyList
import MarkupSyntax.Proofs.Document.Strays

/-!
# `MarkupSyntax.Proofs.Document.LiteralDefinition`: literals are read back

A source with one definition on one line is a module with this definition
alone (`Document.exists_parse_of_definition`). Where the definition gives
a name to a literal, the literal is found behind the name, and it stands
for the value that was written (`Document.exists_parse_of_literal`).

So a string can be written down and read back, whatever characters are in
it (`Document.parse_stringDefinition`): with a backslash in front of each
backslash and each quote, it is one token.
-/

set_option autoImplicit false

namespace MarkupSyntax

open Grammar Parse

/-! ### The run of the parser -/

/-- A definition is read as its words. -/
theorem SimpleDefinition.lexes_text (definition : SimpleDefinition) :
    Lexes definition.text (definition.words.map Leaf.lexed) [] := by
  have hlexes := @SimpleDefinition.lexes [] [] [] definition (by simp) (.nil [])
  rwa [List.append_nil, List.append_nil] at hlexes

namespace Grammar

variable {p : Parser}

/-- A definition is all of a source. -/
theorem yields_module_definition (definition : SimpleDefinition) {seam : Seam} (hp : p.At seam)
    (hsource : seam.behind = definition.text) (hcontext : p.context = .normal) :
    Yields (module descent) p fun node q =>
      Shapes p (definition.words.map Leaf.lexed) (.node none .moduleDefinition [definition.tree])
        node .normal q := by
  have hlexes := definition.lexes_text
  have hbefore : p.Before (definition.words ++ [Leaf.endOfSource]) := by
    refine ⟨⟨[], seam, hp, ?_⟩, hcontext⟩
    rw [hsource, List.map_append]
    exact hlexes.append (.cons .eof (.nil []))
  have hkind : p.kind ≠ .eof := by
    obtain ⟨word, rest, hwords, hkeyword⟩ := definition.exists_words_eq_cons
    rw [hwords] at hbefore
    have hfirst : p.kind = word.lexed.kind := hbefore.kind
    rw [hfirst]
    intro hend
    rw [hend] at hkeyword
    exact absurd hkeyword (by decide)
  have hfaces : p.Faces [] definition.text := ⟨seam, hp, hsource ▸ .nil _⟩
  refine (yields_module_single (fun _ => True)
    (fun tokens tree => tokens = definition.words.map Leaf.lexed ∧ tree = definition.tree)
    hfaces hcontext hkind fun q hq _ _ => ?_).mono ?_
  · refine (yields_moduleItem_definition definition startsLine_endOfSource
      (hbefore.same hq)).mono ?_
    rintro (_ | node) r hr
    · exact hr.elim
    have hrecords := hr.writes.toRecords
    rw [Tree.leavesList, Tree.leavesList, List.append_nil] at hrecords
    exact ⟨rfl, trivial, _, _, ⟨rfl, rfl⟩, hlexes, hrecords⟩
  · rintro node q ⟨-, _, _, ⟨rfl, rfl⟩, -, hq⟩
    exact hq

end Grammar

/-! ### The document -/

/-- The literal that a definition gives a name to is found behind it: as the
node of the value, with one token, which has the text that was written and the
value of the spelling. -/
theorem SimpleDefinition.exists_value {name : Word .identifier} {literal : LiteralSpelling}
    {item : Located} {pieces : List Piece}
    (hpieces : pieces.map (·.lexed) = (value name literal.constant).words.map Leaf.lexed)
    (h : Located.Spans [item] [(value name literal.constant).tree] pieces) :
    (⟨item⟩ : ValueDefinition).name? = some name.text ∧
      ∃ part token, (⟨item⟩ : ValueDefinition).value? = some (.literal ⟨part⟩) ∧
        part.kind = literal.kind ∧ part.children = [token] ∧ token.kind = .token literal.token ∧
        token.text = literal.text ∧ part.literalValue = literal.value := by
  have hchildren := h.children
  constructor
  · rw [ValueDefinition.name?, hchildren.nameIn?_eq "name"]
    simp [Word.leaf, Tree.field?, Tree.name, Tree.leaves]
  -- Three words stand in front of the literal.
  obtain ⟨front, back, rfl, hfront, hback⟩ := List.map_eq_append_iff.mp
    (show pieces.map (·.lexed) = [Word.letKeyword.lexed, name.lexed, Word.equal.lexed] ++
      [literal.constant.word.lexed] from hpieces)
  have hspans : Located.Spans item.children
      ([Word.letKeyword.leaf, name.leaf (some "name"), Word.equal.leaf] ++
        (Term.literal literal.constant).tree.withField (some "value") :: [])
      (front ++ (back ++ [])) := by
    rw [List.append_nil]
    exact hchildren
  obtain ⟨part, hpart, hliteral⟩ := hspans.exists_child? "value"
    (by simp [Word.leaf, Tree.field?]) rfl
    (by simpa [Tree.leavesList, Tree.leaves, Word.leaf] using (congrArg List.length hfront).symm)
    (by simpa [Term.tree, Tree.withField, Tree.leaves, Tree.leavesList, Word.leaf] using
      (congrArg List.length hback).symm)
  obtain ⟨token, htoken⟩ := hliteral.children.exists_eq_singleton
  have hone := hliteral.children
  rw [htoken] at hone
  refine ⟨part, token, ?_, hliteral.kind_eq, htoken, hone.kind_eq, ?_,
    LiteralSpelling.literalValue_eq hliteral⟩
  · rw [ValueDefinition.value?, Located.fieldView?, hpart]
    exact LiteralSpelling.view?_eq hliteral
  · have htexts := hone.map_text_tokens
    rw [Located.tokens_of_isNode_eq_false hone.isNode_eq_false] at htexts
    exact (List.cons.inj htexts).1

namespace Document

variable (options : Options) (file : Text)

/-- A source with one definition is a module with this definition alone. -/
theorem exists_parse_of_definition (definition : SimpleDefinition) :
    ∃ document module item pieces, parse (.ofText definition.text) options file = .ok document ∧
      document.diagnostics = [] ∧ document.root.module = .ok module ∧
      module.node.childNodes = [item] ∧ pieces.map (·.lexed) = definition.words.map Leaf.lexed ∧
      Located.Spans [item] [definition.tree] pieces := by
  obtain ⟨pieces, hpieces, hconsists⟩ := definition.lexes_text.exists_consists
  have htexts : (Tree.leavesList [definition.tree]).map (·.text) = pieces.map (·.lexed.text) := by
    have hwords := congrArg (List.map Lexed.text) hpieces
    rw [List.map_map, List.map_map] at hwords
    rw [Tree.leavesList, Tree.leavesList, List.append_nil]
    exact hwords.symm
  have hrun :=
    yields_module_definition definition (at_ofSource definition.text options file) rfl rfl
  rw [← hpieces] at hrun
  replace hrun := hrun.mono fun node q hq =>
    (⟨.normal, hq⟩ : ∃ context, Shapes _ _ _ node context q)
  obtain ⟨document, module, last, hparse, hbare, hmodule, hspans, hchecked⟩ :=
    exists_parse_of_pieces hconsists htexts hrun
  obtain ⟨item, others, hchildren, hitem, hothers⟩ :=
    @Located.Spans.cons _ [endLeaf] _ _ _ hspans (by
      have hlength := congrArg List.length hpieces
      rw [List.length_map, List.length_map] at hlength
      exact hlength.symm)
  obtain ⟨last, rfl⟩ := hothers.exists_eq_singleton
  have hnode : item.isNode = true := by
    cases definition <;> exact hitem.isNode_eq_true
  refine ⟨document, module, item, pieces, hparse, hchecked ?_, hmodule, ?_, hpieces, hitem⟩
  · refine check_eq_nil_of_items hbare (List.forall_mem_singleton.mpr ?_) fun _ =>
      List.countP_le_length
    exact Tree.closed_of_notMem_kinds definition.element_notMem_kinds
  · simp [Located.childNodes, hchildren, hnode, hothers.isNode_eq_false]

/-- A literal that is given a name is read back, whichever kind it is of: the
definition has its name, and the value is one literal node with one token.
Reading the literal gives the value of its spelling. For an integer with too
many digits that is a fault, while all the rest is the same. -/
theorem exists_parse_of_literal (name : Word .identifier) (literal : LiteralSpelling) :
    ∃ document module definition value token,
      parse (.ofText (SimpleDefinition.value name literal.constant).text) options file = .ok document ∧
      document.diagnostics = [] ∧ document.root.module = .ok module ∧
      module.items = [.valueDefinition definition] ∧ definition.name? = some name.text ∧
      definition.value? = some (.literal value) ∧ value.node.kind = literal.kind ∧
      value.node.children = [token] ∧ token.kind = .token literal.token ∧
      token.text = literal.text ∧ value.value = literal.value := by
  obtain ⟨document, module, item, pieces, hparse, hnone, hmodule, hitems, hpieces, hspans⟩ :=
    exists_parse_of_definition options file (.value name literal.constant)
  obtain ⟨hname, part, token, hvalue, hpart⟩ := SimpleDefinition.exists_value hpieces hspans
  refine ⟨document, module, ⟨item⟩, ⟨part⟩, token, hparse, hnone, hmodule, ?_, hname, hvalue, hpart⟩
  have hkind : item.kind = .valueDefinition := hspans.kind_eq
  rw [Module.items, Located.itemViews, hitems]
  simp [Located.view?, hkind]

/-- A string is read back, whatever characters are in it. It is written with a
backslash in front of each backslash and each quote, so it is one token, nothing
is reported, and reading the literal gives the characters again. No character is
excluded, not even a line break. -/
theorem parse_stringDefinition (content : Text) :
    ∃ document module definition value token,
      parse (.ofText (Text.ofString "let s = " ++ content.ofContent)) options file = .ok document ∧
      document.diagnostics = [] ∧ document.root.module = .ok module ∧
      module.items = [.valueDefinition definition] ∧ definition.name? = some "s" ∧
      definition.value? = some (.literal value) ∧ value.node.kind = .stringLiteral ∧
      value.node.children = [token] ∧ token.kind = .token .string ∧
      token.text = content.ofContent ∧ value.value = .ok (.text content) :=
  exists_parse_of_literal options file ⟨"s", ⟨⟨rfl, rfl, rfl⟩, rfl⟩⟩ (.string content)

end Document

end MarkupSyntax
