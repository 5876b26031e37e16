import MarkupSyntax.Proofs.Document.Clean
import MarkupSyntax.Proofs.Document.Source
import MarkupSyntax.Proofs.Tree.Lookup

/-!
# `MarkupSyntax.Proofs.Document.Diagnostics`: the diagnostics of a document point into it

Four stages report: the decoder, the lexer, the parser and the checks on
the finished tree. Whatever the source is, all their diagnostics are
placed in its text, in the order of their starts
(`Document.parse_places_diagnostics`).

* The decoder reports one of the characters.
* What the lexer has at the end are defects of tokens and trivia of the
  tree, and these are cut from the source (`Seam.Shows.stop_le`).
* The parser reports current tokens, and a range that it remembers. A
  report may come long after its range was taken, from a decision that
  was made on a detour. So every state of a parse is `Parser.Placed`,
  memo included, and every step of the grammar keeps that
  (`Moves.placed`).
* The checks report parts of the tree, which is as long as the source.

An error node is never left without a diagnostic of the grammar. The
parser drops an error at the offset of the one before, but never the
first, and a parse that counted no error makes no error node.
-/

set_option autoImplicit false

namespace MarkupSyntax

/-! ### The decoder -/

/-- What is wrong with bytes is placed at one of the characters. -/
theorem Decoded.isPlaced_ofBytes (bytes : List UInt8) (file : Text) :
    ∀ diagnostic ∈ (ofBytes bytes file).diagnostics,
      diagnostic.IsPlaced (ofBytes bytes file).text.length file := by
  intro diagnostic hmem
  obtain ⟨offset, hoffset, rfl⟩ := Option.map_eq_some_iff.mp (Option.mem_toList.mp hmem)
  obtain ⟨hlt, -⟩ := List.findIdx?_eq_some_iff_getElem.mp hoffset
  have hlength : (ofBytes bytes file).text.length = (Utf8.pieces bytes).length := List.length_map _
  exact .ofCode .invalidUtf8 (hlength ▸ hlt)

/-! ### The lexer -/

/-- What is wrong with a token is placed where the token is. -/
theorem Token.isPlaced_of_defect? {source file : Text} {token : Token} {diagnostic : Diagnostic}
    {length : Nat} (hdefect : token.defect? source file = some diagnostic)
    (h : token.range.IsIn length) : diagnostic.IsPlaced length file := by
  obtain ⟨code, -, rfl⟩ := Option.map_eq_some_iff.mp hdefect
  unfold Diagnostic.ofDefect
  split
  · exact (Diagnostic.IsPlaced.ofCode code h).withMessage _
  · exact .ofCode code h

/-! ### The checks -/

namespace Located

variable {part child : Located} {length : Nat}

/-- The range of a part without the trivia in front of its first token. -/
theorem tokenRange_isIn (h : part.range.IsIn length) : part.tokenRange.IsIn length := by
  obtain ⟨source, tree, start, above⟩ := part
  cases tree with
  | node field kind children =>
    exact Nat.le_trans (Nat.add_le_add_left (Nat.zero_le _) start) h
  | leaf field token =>
    have hstop : start + (TriviaPiece.totalLength token.leading + token.text.length
        + TriviaPiece.totalLength token.trailing) ≤ length := h
    show start + TriviaPiece.totalLength token.leading + token.text.length ≤ length
    omega

/-- A child lies within its parent, so within the source. -/
theorem isIn_of_mem_children (h : part.range.IsIn length) (hmem : child ∈ part.children) :
    child.range.IsIn length := by
  obtain ⟨source, tree, start, above⟩ := part
  cases tree with
  | node field kind children =>
    exact Nat.le_trans ((tile_children rfl).within _ (List.mem_map_of_mem hmem)).2 h
  | leaf => cases hmem

/-- So does the child in a field. -/
theorem isIn_of_child? {name : String} (h : part.range.IsIn length)
    (hchild : part.child? name = some child) : child.range.IsIn length :=
  isIn_of_mem_children h (List.mem_of_find?_eq_some hchild)

/-- Without the trivia at its ends a part lies where it lay. -/
theorem trimmedRange_isIn (h : part.range.IsIn length) : part.trimmedRange.IsIn length := by
  have hstart : (TextRange.empty part.start).IsIn length :=
    Nat.le_trans (Nat.le_add_right part.start part.tree.length) h
  unfold trimmedRange
  split
  · rename_i first last hfirst hlast
    have hstop : last.range.IsIn length := (part.ends.stop last hlast).symm.le.trans h
    unfold TextRange.ofBounds?
    split
    · exact tokenRange_isIn hstop
    · exact hstart
  · exact hstart

end Located

namespace Checks

open Located Diagnostic

variable {length : Nat} {file : Text}

/-- A closing tag that does not match is reported at its own range, with a label
at the opening tag. Both are parts of the element. -/
theorem isPlaced_of_tagMismatch? {severity : Severity} {element : Located} {diagnostic : Diagnostic}
    (h : element.range.IsIn length) (hmismatch : tagMismatch? severity file element = some diagnostic) :
    diagnostic.IsPlaced length file := by
  unfold tagMismatch? at hmismatch
  obtain ⟨name, hname, hmismatch⟩ := Option.bind_eq_some_iff.mp hmismatch
  obtain ⟨closeName, hclose, hmismatch⟩ := Option.bind_eq_some_iff.mp hmismatch
  dsimp only at hmismatch
  split at hmismatch
  · cases hmismatch
  · cases hmismatch
    have hopening := trimmedRange_isIn (isIn_of_child? h hname)
    refine (((((IsPlaced.ofCode _ (trimmedRange_isIn (isIn_of_child? h hclose))).withMessage _
      ).withLabel _).withSecondary fun label hlabel => ?_).withNote _).withSeverity _
    rw [List.mem_singleton.mp hlabel]
    exact hopening

/-- A definition too many is reported at its range, with a label at the first
one. -/
theorem isPlaced_duplicateRoot {range first : TextRange} (h : range.IsIn length)
    (hfirst : first.IsIn length) (label firstLabel note : String) :
    (duplicateRoot file range first label firstLabel note).IsPlaced length file := by
  refine (((IsPlaced.ofCode _ h).withLabel _).withSecondary fun other hother => ?_).withNote _
  rw [List.mem_singleton.mp hother]
  exact hfirst

/-- The ranges of definitions by `let` are those of their names. -/
theorem isIn_of_mem_explicitRoots {module : Located} (h : module.range.IsIn length) :
    ∀ range ∈ explicitRoots module, range.IsIn length := by
  intro range hmem
  obtain ⟨node, hnode, hrange⟩ := List.mem_filterMap.mp hmem
  have hchild := isIn_of_mem_children h (List.mem_of_mem_filter hnode)
  split at hrange
  · obtain ⟨name, hname, hrange⟩ := Option.bind_eq_some_iff.mp hrange
    split at hrange
    · cases hrange
      exact trimmedRange_isIn (isIn_of_child? hchild hname)
    · cases hrange
  · cases hrange

/-- The range of the element that defines `root` is its own. -/
theorem isIn_of_implicitRoot? {module : Located} (h : module.range.IsIn length) :
    ∀ range ∈ implicitRoot? module, range.IsIn length := by
  intro range hmem
  obtain ⟨element, helement, rfl⟩ := Option.map_eq_some_iff.mp hmem
  have hnode := List.mem_of_mem_filter (List.mem_of_getLast? helement)
  exact trimmedRange_isIn (isIn_of_mem_children h (List.mem_of_mem_filter hnode))

/-- So all that the check on `root` reports is placed in the source. -/
theorem isPlaced_of_mem_roots {module : Located} (h : module.range.IsIn length) :
    ∀ diagnostic ∈ roots module file, diagnostic.IsPlaced length file := by
  intro diagnostic hmem
  have hexplicit := isIn_of_mem_explicitRoots h
  unfold roots at hmem
  split at hmem
  · cases hmem
  · rename_i first rest hroots
    rw [hroots] at hexplicit
    have hfirst := hexplicit first List.mem_cons_self
    simp only [List.mem_append, Option.mem_toList, Option.map_eq_some_iff] at hmem
    rcases hmem with ⟨range, hrange, rfl⟩ | ⟨range, hrange, rfl⟩
    · have hrest := hexplicit range (List.mem_cons_of_mem first (List.mem_of_head? hrange))
      exact isPlaced_duplicateRoot hrest hfirst ..
    · exact isPlaced_duplicateRoot (isIn_of_implicitRoot? h range hrange) hfirst ..

end Checks

/-- What the checks report is placed in the source if the tree lies in it. -/
theorem Located.isPlaced_check {root : Located} {options : Options} {file : Text} {length : Nat}
    (h : root.range.IsIn length) :
    ∀ diagnostic ∈ root.check options file, diagnostic.IsPlaced length file := by
  intro diagnostic hmem
  rcases List.mem_append.mp hmem with hmem | hmem
  · split at hmem
    · obtain ⟨element, helement, hmismatch⟩ := List.mem_filterMap.mp hmem
      have hwithin := within_of_mem_nodes (List.mem_of_mem_filter helement)
      exact Checks.isPlaced_of_tagMismatch? (Nat.le_trans hwithin.2.1 h) hmismatch
    · cases hmem
  · split at hmem
    · split at hmem
      · rename_i module hmodule
        have hchild := List.mem_of_mem_filter (List.mem_of_find?_eq_some hmodule)
        exact Checks.isPlaced_of_mem_roots (isIn_of_mem_children h hchild) diagnostic hmem
      · cases hmem
    · cases hmem

/-! ### Documents -/

namespace Document

variable {source file : Text} {options : Options} {final : Parser} {sprout : Sprout}
  {before : List Diagnostic}

/-- A parse starts with nothing reported or remembered. -/
theorem isPlaced_ofSource (source : Text) (options : Options) (file : Text) :
    (parser source options file).Placed where
  diagnostics := fun _ hmem => nomatch hmem
  memo := fun _ hmem => nomatch hmem

namespace Finished

/-- All stages report places in the source. -/
theorem isPlaced (h : Finished source options file final sprout)
    (hbefore : ∀ diagnostic ∈ before, diagnostic.IsPlaced source.length file) :
    ∀ diagnostic ∈ (ofTree final before (treeOf final sprout)).diagnostics,
      diagnostic.IsPlaced source.length file := by
  -- Lexical diagnostics are those of the tokens, which end within the source.
  have hlexical : ∀ diagnostic ∈ final.source.finish.2.1.toList,
      diagnostic.IsPlaced source.length file := by
    intro diagnostic hmem
    obtain ⟨contexts, way⟩ := h.moves.reaches
    rw [h.lexical] at hmem
    obtain ⟨token, htoken, hdefect⟩ := List.mem_filterMap.mp hmem
    have hstop := (h.shows way).stop_le (Nat.zero_le _) (Seam.trailing_ofSource source file _)
    exact Token.isPlaced_of_defect? hdefect (hstop token htoken)
  -- Those of the parser are placed by an invariant of its state.
  have hparser : ∀ diagnostic ∈ final.diagnostics.toList,
      diagnostic.IsPlaced source.length file := by
    have hplaced := (h.moves.placed (isPlaced_ofSource source options file)).diagnostics
    rw [h.text, h.moves.file] at hplaced
    exact hplaced
  -- Those of the checks stand at parts of the tree, which is as long as the source.
  have hchecks : ∀ diagnostic ∈ (Located.ofTree (treeOf final sprout) final.text).check
      final.options final.file, diagnostic.IsPlaced source.length file := by
    rw [h.moves.file]
    have hlength : (Located.ofTree (treeOf final sprout) final.text).tree.length
        = source.length := by
      rw [← h.length_eq, Tree.length_eq, Tree.length_eq]
      exact congrArg Located.totalLength (Tree.leaves_withField _ none)
    exact Located.isPlaced_check (Nat.le_of_eq ((Nat.zero_add _).trans hlength))
  intro diagnostic hmem
  have hmem := (Diagnostic.perm_sort _).mem_iff.mp hmem
  simp only [List.flatten_cons, List.flatten_nil, List.append_nil, List.mem_append] at hmem
  rcases hmem with hmem | hmem | hmem | hmem
  · exact hbefore diagnostic hmem
  · exact hlexical diagnostic hmem
  · exact hparser diagnostic hmem
  · exact hchecks diagnostic hmem

/-- An error node has a diagnostic of the parser to show for it. -/
theorem exists_isGrammatical (h : Finished source options file final sprout) {node : Located}
    (hmem : node ∈ (ofTree final before (treeOf final sprout)).root.nodes)
    (herror : node.kind = .error) :
    ∃ diagnostic ∈ (ofTree final before (treeOf final sprout)).diagnostics,
      diagnostic.isGrammatical = true := by
  have hsome : final.diagnostics.toList ≠ [] := by
    intro hnone
    -- No children are right for an error node.
    have hword := Located.map_role_children_mem ((h.obeys hnone).withField none) hmem
    rw [herror] at hword
    exact hword
  obtain ⟨diagnostic, hmem⟩ := List.exists_mem_of_ne_nil _ hsome
  obtain ⟨hcode, hcategory⟩ := h.ofGrammar_of_mem diagnostic hmem
  rw [Code.isOfGrammar, Bool.and_eq_true, Bool.and_eq_true] at hcode
  refine ⟨diagnostic, (Diagnostic.perm_sort _).mem_iff.mpr (by simp [hmem]), ?_⟩
  rw [Diagnostic.isGrammatical, hcategory]
  exact hcode.1.1

end Finished

/-- Every diagnostic of a document points into its text: its range and the
ranges of its labels lie there, and its first label is the primary one, at its
own range and with the name of the file. The diagnostics are ordered by their
starts. Where the tree has an error node, one of them is of the grammar.

The document is that of a text, or of bytes of which nothing is known. Without
the hypothesis on `decoded` the diagnostics of decoding could be anything. -/
theorem parse_places_diagnostics (decoded : Decoded) (options : Options) (file : Text)
    (hdecoded : (∃ text, decoded = .ofText text) ∨ ∃ bytes, decoded = .ofBytes bytes file) :
    ∃ document, parse decoded options file = .ok document ∧
      (∀ diagnostic ∈ document.diagnostics, diagnostic.IsPlaced decoded.text.length file) ∧
      document.diagnostics.Pairwise Diagnostic.StartsBefore ∧
      ((∃ node ∈ document.root.nodes, node.kind = .error) →
        ∃ diagnostic ∈ document.diagnostics, diagnostic.isGrammatical = true) := by
  obtain ⟨final, sprout, h⟩ := exists_finished decoded.text options file
  have hbefore : ∀ diagnostic ∈ decoded.diagnostics,
      diagnostic.IsPlaced decoded.text.length file := by
    rcases hdecoded with ⟨text, rfl⟩ | ⟨bytes, rfl⟩
    · exact fun _ hmem => nomatch hmem
    · exact Decoded.isPlaced_ofBytes bytes file
  refine ⟨_, h.parse_eq, h.isPlaced hbefore, Diagnostic.pairwise_sort _, ?_⟩
  rintro ⟨node, hmem, herror⟩
  exact h.exists_isGrammatical hmem herror

/-- A parenthesis and a byte that is no UTF-8, each with a diagnostic of
its own. -/
theorem parse_places_diagnostics_stray :
    ∃ document, parse (.ofBytes [0x29, 0xFF] "f") {} "f" = .ok document ∧
      document.diagnostics.map (·.code) = [.unexpectedToken, .invalidUtf8] ∧
      (∀ diagnostic ∈ document.diagnostics, diagnostic.IsPlaced 2 "f") ∧
      (∃ node ∈ document.root.nodes, node.kind = .error) ∧
      ∃ diagnostic ∈ document.diagnostics, diagnostic.isGrammatical = true := by
  obtain ⟨document, hparse, hplaced, -, herror⟩ :=
    parse_places_diagnostics (.ofBytes [0x29, 0xFF] "f") {} "f" (.inr ⟨_, rfl⟩)
  have hresult : (parse (.ofBytes [0x29, 0xFF] "f") {} "f").toOption.any (fun document =>
      document.diagnostics.map (·.code) = [.unexpectedToken, .invalidUtf8] &&
        document.root.nodes.any fun node => node.kind = .error) = true := by
    decide +kernel
  rw [hparse] at hresult
  obtain ⟨hcodes, hnodes⟩ := Bool.and_eq_true_iff.mp hresult
  have hnode : ∃ node ∈ document.root.nodes, node.kind = .error := by simpa using hnodes
  exact ⟨document, hparse, of_decide_eq_true hcodes, hplaced, hnode, herror hnode⟩

end Document

end MarkupSyntax
