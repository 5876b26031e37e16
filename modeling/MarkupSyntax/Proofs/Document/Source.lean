import MarkupSyntax.Proofs.Diagnostic.Merge
import MarkupSyntax.Proofs.Document.Parse
import MarkupSyntax.Proofs.Tree.Lexemes

/-!
# `MarkupSyntax.Proofs.Document.Source`: what a document keeps of its source

A document keeps its source to the last character
(`parse_keeps_source`): the texts of its tokens and their trivia are the
source, every token is a lexeme in the context in which the parse
consumed it, and its trivia is split at line breaks.

It also keeps what the lexer had to report (`parse_keeps_defects`). A
parse reads most characters more than once, in various contexts, and
takes back what it reads on a detour. The lexical diagnostics of the
document are those that the tokens and the trivia of its tree ask for,
each once and in order. What the lexer reports on a detour is not kept,
but the parse goes by it, so an element may be read in another way when
more source follows (`exists_parse_append_ne`), and a control construct
in text may go unreported (`exists_control_in_text_unreported`).
-/

set_option autoImplicit false

namespace MarkupSyntax

/-- The end of the source is the only token that the lexer calls so. -/
theorem SyntaxKind.eq_eof_of_lexeme? {kind : SyntaxKind} (h : kind.lexeme? = some .eof) :
    kind = .token .eof := by
  cases kind <;> simp_all [lexeme?]

namespace Diagnostic

/-- A defect is reported with its code. -/
theorem code_ofDefect (code : Code) (range : TextRange) (text file : Text) :
    (ofDefect code range text file).code = code := by
  unfold ofDefect
  split <;> rfl

/-- A defect is reported where it is. -/
theorem range_ofDefect (code : Code) (range : TextRange) (text file : Text) :
    (ofDefect code range text file).range = range := by
  unfold ofDefect
  split <;> rfl

/-- The category of a diagnostic is that of its code. -/
theorem category_ofDefect (code : Code) (range : TextRange) (text file : Text) :
    (ofDefect code range text file).category = code.category? := by
  unfold ofDefect
  split <;> rfl

/-- What the grammar reports is not lexical. -/
theorem OfGrammar.isLexical {diagnostic : Diagnostic} (h : diagnostic.OfGrammar) :
    diagnostic.isLexical = false := by
  have hcode := h.code
  rw [Code.isOfGrammar, Bool.and_eq_true, Bool.and_eq_true, decide_eq_true_eq] at hcode
  rw [Diagnostic.isLexical, h.category, hcode.1.1]
  rfl

end Diagnostic

/-- What is wrong with a token is a matter of the lexer. -/
theorem Token.isLexical_of_defect? {source file : Text} {token : Token} {diagnostic : Diagnostic}
    (h : token.defect? source file = some diagnostic) :
    diagnostic.isLexical = true ∧ diagnostic.range = token.range ∧
      diagnostic.code.category? = some .lexical := by
  obtain ⟨code, hcode, rfl⟩ := Option.map_eq_some_iff.mp h
  have hcategory : code.category? = some .lexical := by
    unfold Lexeme.defect? at hcode
    split at hcode <;> simp_all [Code.category?]
    all_goals
      obtain ⟨-, rfl⟩ := hcode
      rfl
  refine ⟨?_, Diagnostic.range_ofDefect .., ?_⟩
  · rw [Diagnostic.isLexical, Diagnostic.category_ofDefect, hcategory]
    rfl
  · rw [Diagnostic.code_ofDefect]
    exact hcategory

namespace Document

namespace Finished

variable {source file : Text} {options : Options} {final : Parser} {sprout : Sprout}
  {contexts : List LexContext}

/-- With the end of the source, the whole source is consumed. -/
theorem position (h : Finished source options file final sprout)
    (way : Trace (parser source options file) contexts final) :
    ((Seam.ofSource source file).along (contexts ++ [final.context])).lexer.position
      = source.length := by
  have inside : (Seam.ofSource source file).lexer.IsInside := Nat.zero_le _
  have hrange := Seam.range_current_of_eof (Seam.isInside_along inside contexts) (h.current way)
  have hsource : ((Seam.ofSource source file).along contexts).lexer.source = source :=
    (Seam.reads_legs inside contexts).extends_.source
  rw [Seam.along_concat, Seam.position_pass, hrange, hsource]
  rfl

/-- The tree is as long as the source. -/
theorem length_eq (h : Finished source options file final sprout) :
    (treeOf final sprout).length = source.length := by
  obtain ⟨contexts, way⟩ := h.moves.reaches
  have hlength : (sprout.tokens.map (·.1) ++ [SyntaxKind.token .eof]).length
      = (contexts ++ [final.context]).length := by
    have htokens := congrArg List.length (h.tokens way)
    rw [List.length_map, Seam.length_takes] at htokens
    simp [htokens]
  have inside : (Seam.ofSource source file).lexer.IsInside := Nat.zero_le _
  have hall := Seam.add_length_leaves inside hlength
  rw [← h.leaves way, Seam.supply_ofSource, h.position way] at hall
  rw [Tree.length_eq, ← hall]
  exact (Nat.zero_add _).symm

/-- The texts of the tokens with their trivia are the source. -/
theorem flatMap_text (h : Finished source options file final sprout) :
    ((Located.ofTree (treeOf final sprout) source).tokens.flatMap fun token =>
      token.leadingTrivia.flatMap (·.2) ++ token.text ++ token.trailingTrivia.flatMap (·.2))
      = source := by
  obtain ⟨contexts, way⟩ := h.moves.reaches
  rw [(h.shows way).flatMap_text (Nat.zero_le _), h.position way, Seam.supply_ofSource]
  show (source.drop 0).take (source.length - 0) = source
  simp

/-- The tokens are lexemes in the contexts in which the parse consumed
them, up to the last, which is the end of the source. -/
theorem isLexeme (h : Finished source options file final sprout)
    (way : Trace (parser source options file) contexts final) :
    ∃ tokens last, (Located.ofTree (treeOf final sprout) source).tokens = tokens ++ [last] ∧
      List.Forall₂ (Located.IsLexeme source) contexts tokens ∧
      last.kind = .token .eof ∧ last.text = [] := by
  have inside : (Seam.ofSource source file).lexer.IsInside := Nat.zero_le _
  have hpasses := (way.at_ (at_ofSource source options file)).2.1
  obtain ⟨tokens, last, hparts, hall, hlast⟩ := (h.shows way).isLexeme inside hpasses
  have hkind := h.current way
  have hrange := Seam.range_current_of_eof (Seam.isInside_along inside contexts) hkind
  refine ⟨tokens, last, hparts, hall, ?_, ?_⟩
  · apply SyntaxKind.eq_eof_of_lexeme?
    rw [hlast.lexeme?, hkind]
  · rw [hlast.text, hrange]
    simp [Text.sliceRange, Text.slice, TextRange.empty]

/-- Each of them is a lexeme in some context. The end of the source is apart,
since it has no text. -/
theorem exists_isLexeme (h : Finished source options file final sprout) {token : Located}
    (hmem : token ∈ (Located.ofTree (treeOf final sprout) source).tokens)
    (hkind : token.kind ≠ .token .eof) : ∃ context, token.IsLexeme source context := by
  obtain ⟨contexts, way⟩ := h.moves.reaches
  obtain ⟨tokens, last, htokens, hall, hlast, -⟩ := h.isLexeme way
  rw [htokens] at hmem
  rcases List.mem_append.mp hmem with hinside | hend
  · obtain ⟨i, hi, rfl⟩ := List.mem_iff_getElem.mp hinside
    have hlength := hall.length_eq
    exact ⟨_, hall.get (by omega) hi⟩
  · rw [List.mem_singleton.mp hend] at hkind
    exact absurd hlast hkind

/-- The diagnostics of the lexer are those that the tree asks for. -/
theorem lexical (h : Finished source options file final sprout) :
    final.source.finish.2.1.toList
      = ((Located.ofTree (treeOf final sprout) source).tokens.flatMap Located.lexemes).filterMap
          (Token.defect? source file) := by
  obtain ⟨contexts, way⟩ := h.moves.reaches
  have hdrop := (way.at_ (at_ofSource source options file)).1.stands.buffer.drop
  have hstart : (Seam.ofSource source file).trailing (contexts ++ [final.context]) = [] :=
    Seam.trailing_ofSource source file _
  have hdiagnostics := (h.shows way).diagnostics (Nat.zero_le _) hstart
  show final.source.buffer.drop.lexer.diagnostics.toList = _
  rw [hdrop]
  rw [Seam.along_concat] at hdiagnostics
  exact hdiagnostics

/-- They are in order. -/
theorem pairwise_lexical (h : Finished source options file final sprout) :
    final.source.finish.2.1.toList.Pairwise Diagnostic.StartsBefore := by
  obtain ⟨contexts, way⟩ := h.moves.reaches
  have hpairwise := (h.shows way).pairwise (Nat.zero_le _) (Seam.trailing_ofSource source file _)
  rw [h.lexical]
  refine hpairwise.filterMap _ ?_
  intro token later hle diagnostic hdiagnostic other hother
  show diagnostic.range.start ≤ other.range.start
  rw [(Token.isLexical_of_defect? hdiagnostic).2.1, (Token.isLexical_of_defect? hother).2.1]
  exact hle

/-- The parser reports what is wrong with the grammar, and nothing of the
lexer's or of the checks'. -/
theorem ofGrammar_of_mem (h : Finished source options file final sprout) :
    ∀ diagnostic ∈ final.diagnostics.toList, diagnostic.OfGrammar := by
  obtain ⟨fresh, hfinal, hfresh⟩ := h.moves.diagnostics
  rw [hfinal]
  exact hfresh

end Finished

end Document

/-! ### Checks -/

namespace Checks

/-- The check on tags has a code of its own, which is not lexical. -/
theorem code_of_mem_tags {root : Located} {severity : Severity} {file : Text} :
    ∀ diagnostic ∈ tags root severity file,
      diagnostic.code = .tagMismatch ∧ diagnostic.isLexical = false := by
  intro diagnostic hmem
  obtain ⟨element, -, h⟩ := List.mem_filterMap.mp hmem
  unfold tagMismatch? at h
  obtain ⟨name, -, h⟩ := Option.bind_eq_some_iff.mp h
  obtain ⟨closeName, -, h⟩ := Option.bind_eq_some_iff.mp h
  dsimp only at h
  split at h
  · cases h
  · cases h
    exact ⟨rfl, rfl⟩

/-- So does the check on `root`. -/
theorem code_of_mem_roots {module : Located} {file : Text} :
    ∀ diagnostic ∈ roots module file,
      diagnostic.code = .duplicateRoot ∧ diagnostic.isLexical = false := by
  intro diagnostic hmem
  unfold roots at hmem
  split at hmem
  · cases hmem
  · -- Both reports are of the same kind.
    simp only [List.mem_append, Option.mem_toList, Option.map_eq_some_iff] at hmem
    rcases hmem with ⟨range, -, rfl⟩ | ⟨range, -, rfl⟩
    · exact ⟨rfl, rfl⟩
    · exact ⟨rfl, rfl⟩

end Checks

/-- The checks on a tree report nothing of the lexer's. -/
theorem Located.isLexical_check {root : Located} {options : Options} {file : Text} :
    ∀ diagnostic ∈ root.check options file, diagnostic.isLexical = false := by
  intro diagnostic hmem
  unfold check at hmem
  rcases List.mem_append.mp hmem with hmem | hmem
  · split at hmem
    · exact (Checks.code_of_mem_tags diagnostic hmem).2
    · cases hmem
  · split at hmem
    · split at hmem
      · exact (Checks.code_of_mem_roots diagnostic hmem).2
      · cases hmem
    · cases hmem

/-! ### Documents -/

namespace Document

/-- Of the diagnostics of a document those of the lexer are what the lexer
reported, if nothing was wrong with the bytes of the source. -/
theorem filter_isLexical {source file : Text} {options : Options} {final : Parser}
    {sprout : Sprout} (h : Finished source options file final sprout) (tree : Tree) :
    (ofTree final [] tree).diagnostics.filter (·.isLexical) = final.source.finish.2.1.toList := by
  have hlexical : ∀ diagnostic ∈ final.source.finish.2.1.toList,
      diagnostic.isLexical = true := by
    intro diagnostic hmem
    rw [h.lexical] at hmem
    obtain ⟨token, -, hdefect⟩ := List.mem_filterMap.mp hmem
    exact (Token.isLexical_of_defect? hdefect).1
  have hgroups : ([[], final.source.finish.2.1.toList, final.diagnostics.toList,
      (Located.ofTree tree final.text).check final.options final.file].flatten.filter
        (·.isLexical)) = final.source.finish.2.1.toList := by
    have hparser : final.diagnostics.toList.filter (·.isLexical) = [] := by
      simpa using fun diagnostic hmem => (h.ofGrammar_of_mem diagnostic hmem).isLexical
    have hchecks : ((Located.ofTree tree final.text).check final.options final.file).filter
        (·.isLexical) = [] := by
      simpa using Located.isLexical_check
    simp [List.filter_append, List.filter_eq_self.mpr hlexical, hparser, hchecks]
  have hpairwise := h.pairwise_lexical
  rw [← hgroups] at hpairwise
  exact (Diagnostic.filter_sort hpairwise).trans hgroups

/-- Parsing loses nothing of the source, whatever it is and whatever is
reported:

- the tree is as long as the source, and the texts of its tokens and the trivia
  around them spell it;
- the last token is the end of the source, and no other one is;
- every other token is the lexeme that the lexer reads at its offset in the
  context in which the parse consumed it, on whatever way the parse came to its
  end;
- trailing trivia ends before a line break, and leading trivia starts with one,
  except at the start of the source.

The ways are all traces of the one run, since a detour that is taken back leaves
no token. That there is one is part of the statement. -/
theorem parse_keeps_source (decoded : Decoded) (options : Options) (file : Text) :
    ∃ document, parse decoded options file = .ok document ∧
      document.tree.length = decoded.text.length ∧
      (document.root.tokens.flatMap fun token =>
        token.leadingTrivia.flatMap (·.2) ++ token.text ++ token.trailingTrivia.flatMap (·.2))
        = decoded.text ∧
      (∃ tokens last final, document.root.tokens = tokens ++ [last] ∧
        last.kind = .token .eof ∧ last.text = [] ∧
        (∀ token ∈ tokens, token.kind ≠ .token .eof) ∧
        run (parser decoded.text options file) = .ok final ∧
        (∃ contexts, Trace (parser decoded.text options file) contexts final) ∧
        ∀ contexts, Trace (parser decoded.text options file) contexts final →
          List.Forall₂ (Located.IsLexeme decoded.text) contexts tokens) ∧
      (∀ token ∈ document.root.tokens, ∀ piece ∈ token.trailingTrivia, piece.1 ≠ .newline) ∧
      ∀ token ∈ document.root.tokens.tail, ∀ piece ∈ token.leadingTrivia.head?,
        piece.1 = .newline := by
  obtain ⟨final, sprout, h⟩ := exists_finished decoded.text options file
  obtain ⟨contexts, way⟩ := h.moves.reaches
  have inside : (Seam.ofSource decoded.text file).lexer.IsInside := Nat.zero_le _
  have hpasses := (way.at_ (at_ofSource decoded.text options file)).2.1
  have hroot : (ofTree final decoded.diagnostics (treeOf final sprout)).root
      = Located.ofTree (treeOf final sprout) decoded.text := by
    rw [← h.text]
    rfl
  obtain ⟨tokens, last, htokens, hall, hkind, htext⟩ := h.isLexeme way
  refine ⟨_, h.parse_eq, h.length_eq, ?_, ⟨tokens, last, final, ?_, hkind, htext, ?_, h.run,
    ⟨contexts, way⟩, ?_⟩, ?_, ?_⟩
  · rw [hroot]
    exact h.flatMap_text
  · rw [hroot]
    exact htokens
  · exact Located.kind_ne_eof_of_forall₂ hall
  · intro contexts' way'
    -- Another way shows the same tokens, so it has as many contexts.
    obtain ⟨tokens', last', htokens', hall', -⟩ := h.isLexeme way'
    have hsame := List.append_inj_left' (htokens.symm.trans htokens') rfl
    rw [hsame]
    exact hall'
  · rw [hroot]
    exact (h.shows way).trailingTrivia inside
  · rw [hroot]
    exact (h.shows way).leadingTrivia_tail inside hpasses

/-- The lexical diagnostics of a document are, in order, those that the tokens
of its tree and the trivia around them ask for, each once. What the lexer met on
a detour is neither added nor missing. The source is a text, since decoding
bytes may report defects of its own. -/
theorem parse_keeps_defects (source : Text) (options : Options) (file : Text) :
    ∃ document, parse (.ofText source) options file = .ok document ∧
      document.diagnostics.filter (·.isLexical)
        = (document.root.tokens.flatMap Located.lexemes).filterMap
            (Token.defect? source file) := by
  obtain ⟨final, sprout, h⟩ := exists_finished source options file
  have hroot : (ofTree final [] (treeOf final sprout)).root
      = Located.ofTree (treeOf final sprout) source := by
    rw [← h.text]
    rfl
  have hparse : parse (.ofText source) options file
      = .ok (ofTree final [] (treeOf final sprout)) := @Finished.parse_eq file options final sprout (.ofText source) h
  refine ⟨_, hparse, ?_⟩
  rw [filter_isLexical h, h.lexical, hroot]

/-- What the lexer reports on a detour is not in the document, but the parse
looks at it. The quote in the element is text. When the body is read as code the
quote opens a string, and an open string is an error behind the control
construct, which then is not reported as misplaced. With more source behind the
element the string is closed, and the report appears. So a document of two parts
can have a diagnostic that neither part has. -/
theorem exists_parse_append_ne :
    ∃ first second both,
      parse (.ofText "<p>if a\x7b<b/>\x7d\"</p>") { reportDuplicateRoot := false } "f"
        = .ok first ∧
      parse (.ofText "\x7b\"\"\x7d") { reportDuplicateRoot := false } "f" = .ok second ∧
      parse (.ofText "<p>if a\x7b<b/>\x7d\"</p>\n\x7b\"\"\x7d")
        { reportDuplicateRoot := false } "f" = .ok both ∧
      first.diagnostics = [] ∧ second.diagnostics = [] ∧
      both.diagnostics.map (·.code) = [.controlInMixedContent] := by
  have hdiagnostics : ∀ source : String, ∀ codes : List Code,
      (parse (.ofText source) { reportDuplicateRoot := false } "f").toOption.map
        (·.diagnostics.map (·.code)) = some codes →
      ∃ document, parse (.ofText source) { reportDuplicateRoot := false } "f" = .ok document ∧
        document.diagnostics.map (·.code) = codes := by
    intro source codes h
    generalize parse (.ofText source) { reportDuplicateRoot := false } "f" = result at h ⊢
    cases result with
    | error => cases h
    | ok document => exact ⟨document, rfl, Option.some.inj h⟩
  obtain ⟨first, hfirst, hnone⟩ := hdiagnostics "<p>if a\x7b<b/>\x7d\"</p>" []
    (by decide +kernel)
  obtain ⟨second, hsecond, hnone'⟩ := hdiagnostics "\x7b\"\"\x7d" [] (by decide +kernel)
  obtain ⟨both, hboth, hcodes⟩ := hdiagnostics "<p>if a\x7b<b/>\x7d\"</p>\n\x7b\"\"\x7d"
    [.controlInMixedContent] (by decide +kernel)
  exact ⟨first, second, both, hfirst, hsecond, hboth, List.map_eq_nil_iff.mp hnone,
    List.map_eq_nil_iff.mp hnone', hcodes⟩

/-- A control construct alone is the content of `p`. With a quote behind it the
content is mixed, and the construct is misplaced there. But the quote, read as
code, is an open string, and the construct in front of it counts as one with
errors of its own: nothing is reported. -/
theorem exists_control_in_text_unreported :
    ∃ alone mixed,
      parse (.ofText "<p>if a \x7b <b/> \x7d</p>") {} "f" = .ok alone ∧
      parse (.ofText "<p>if a \x7b <b/> \x7d \"</p>") {} "f" = .ok mixed ∧
      alone.diagnostics = [] ∧
      (∃ content ∈ alone.root.nodes, content.field? = some "content" ∧
        content.kind = .elementsExpression ∧
        content.childNodes.map (fun node => (node.kind, node.range.start))
          = [(.control .elements .ifSimple, 3)]) ∧
      mixed.diagnostics = [] ∧
      ∃ content ∈ mixed.root.nodes, content.field? = some "content" ∧
        content.kind = .mixedContent := by
  have halone : (parse (.ofText "<p>if a \x7b <b/> \x7d</p>") {} "f").toOption.any
      (fun document => document.diagnostics.isEmpty && document.root.nodes.any fun content =>
        content.field? = some "content" ∧ content.kind = .elementsExpression ∧
          content.childNodes.map (fun node => (node.kind, node.range.start))
            = [(.control .elements .ifSimple, 3)]) = true := by
    decide +kernel
  have hmixed : (parse (.ofText "<p>if a \x7b <b/> \x7d \"</p>") {} "f").toOption.any
      (fun document => document.diagnostics.isEmpty && document.root.nodes.any fun content =>
        content.field? = some "content" ∧ content.kind = .mixedContent) = true := by
    decide +kernel
  obtain ⟨alone, hparse, hchecked⟩ := exists_ok_of_any halone
  obtain ⟨mixed, hparse', hchecked'⟩ := exists_ok_of_any hmixed
  simp only [Bool.and_eq_true, List.any_eq_true, decide_eq_true_eq, List.isEmpty_iff]
    at hchecked hchecked'
  exact ⟨alone, mixed, hparse, hparse', hchecked.1, hchecked.2, hchecked'.1, hchecked'.2⟩

end Document

end MarkupSyntax
