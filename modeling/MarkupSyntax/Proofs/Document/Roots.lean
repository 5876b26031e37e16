import MarkupSyntax.Proofs.Document.Checks
import MarkupSyntax.Proofs.Document.Domains
import MarkupSyntax.Proofs.Document.Source

/-!
# `MarkupSyntax.Proofs.Document.Roots`: definitions of `root` that are too many

A module has one `root` at most, which is defined by `let` or by an
element of the module. In any document, errors or not, a module that
defines it more often is reported if one of the definitions is by `let`,
and no other module is (`Document.parse_reports_roots`): neither the
lexer nor the grammar reports such a thing, so it is up to the check on
the finished tree.

The check keeps the last element of a module only, so two elements pass
for one (`Document.exists_roots_unreported`).
-/

set_option autoImplicit false

namespace MarkupSyntax

namespace Diagnostic

/-- The grammar reports codes of its own category, and this is not one of them. -/
theorem OfGrammar.code_ne_duplicateRoot {diagnostic : Diagnostic} (h : diagnostic.OfGrammar) :
    diagnostic.code ≠ .duplicateRoot := by
  intro hcode
  have hgrammar := h.code
  rw [hcode] at hgrammar
  cases hgrammar

end Diagnostic

/-- Decoding reports invalid bytes only, so a definition of `root` is never
reported there. -/
theorem Decoded.code_ofBytes {bytes : List UInt8} {file : Text} :
    ∀ diagnostic ∈ (ofBytes bytes file).diagnostics, diagnostic.code = .invalidUtf8 := by
  intro diagnostic hmem
  obtain ⟨offset, -, rfl⟩ := Option.map_eq_some_iff.mp (Option.mem_toList.mp hmem)
  rfl

/-! ### The check on a tree -/

namespace Located

variable {root : Located} {module : Module}

/-- The module of a tree is its child of that kind. The check looks for it that
way. -/
theorem nodeOfKind?_of_module (hroot : root.kind = .root) (h : root.module = .ok module) :
    root.nodeOfKind? .moduleDefinition = some module.node := by
  unfold Located.module at h
  rw [hroot, if_neg (by decide)] at h
  split at h
  · cases h
    assumption
  · cases h

/-- The check on a tree reports the definitions of `root` of its module. -/
theorem exists_duplicateRoot_check_iff {options : Options} {file : Text} (hroot : root.kind = .root)
    (hmodule : root.module = .ok module) (hreport : options.reportDuplicateRoot = true) :
    (∃ diagnostic ∈ root.check options file, diagnostic.code = .duplicateRoot) ↔
      Checks.roots module.node file ≠ [] := by
  have hchecks : root.check options file
      = (if options.reportTagMismatch then Checks.tags root options.tagMismatchSeverity file
          else []) ++ Checks.roots module.node file := by
    rw [check, if_pos hreport, nodeOfKind?_of_module hroot hmodule]
  rw [hchecks]
  constructor
  · rintro ⟨diagnostic, hmem, hcode⟩
    rcases List.mem_append.mp hmem with hmem | hmem
    · split at hmem
      · rw [(Checks.code_of_mem_tags diagnostic hmem).1] at hcode
        cases hcode
      · cases hmem
    · exact List.ne_nil_of_mem hmem
  · intro hroots
    obtain ⟨diagnostic, hmem⟩ := List.exists_mem_of_ne_nil _ hroots
    exact ⟨diagnostic, List.mem_append_right _ hmem, (Checks.code_of_mem_roots diagnostic hmem).1⟩

end Located

/-! ### Documents -/

namespace Document

variable {source file : Text} {options : Options} {final : Parser} {sprout : Sprout}

/-- It is up to the checks to report definitions of `root`: of the four sources
of diagnostics, which are decoding, the lexer, the grammar and the checks, the
first three have other codes. What decoding reports is `before`, on which this
is asked as a hypothesis. -/
theorem Finished.exists_duplicateRoot_iff {before : List Diagnostic}
    (h : Finished source options file final sprout)
    (hbefore : ∀ diagnostic ∈ before, diagnostic.code ≠ .duplicateRoot) :
    let document := ofTree final before (treeOf final sprout)
    (∃ diagnostic ∈ document.diagnostics, diagnostic.code = .duplicateRoot) ↔
      ∃ diagnostic ∈ document.root.check options file, diagnostic.code = .duplicateRoot := by
  intro document
  -- The lexer reports defects of tokens, and these are of the lexical category.
  have hlexical : ∀ diagnostic ∈ final.source.finish.2.1.toList,
      diagnostic.code ≠ .duplicateRoot := by
    intro diagnostic hmem hcode
    rw [h.lexical] at hmem
    obtain ⟨token, -, hdefect⟩ := List.mem_filterMap.mp hmem
    have hcategory := (Token.isLexical_of_defect? hdefect).2.2
    rw [hcode] at hcategory
    cases hcategory
  have hparser : ∀ diagnostic ∈ final.diagnostics.toList, diagnostic.code ≠ .duplicateRoot :=
    fun diagnostic hmem => (h.ofGrammar_of_mem diagnostic hmem).code_ne_duplicateRoot
  have hchecks : document.root.check options file
      = (Located.ofTree (treeOf final sprout) final.text).check final.options final.file := by
    rw [h.moves.options, h.moves.file]
    rfl
  have hdiagnostics : ∀ diagnostic, diagnostic ∈ document.diagnostics ↔
      diagnostic ∈ before ∨ diagnostic ∈ final.source.finish.2.1.toList ∨
        diagnostic ∈ final.diagnostics.toList ∨ diagnostic ∈ document.root.check options file := by
    intro diagnostic
    rw [hchecks]
    exact (Diagnostic.perm_sort _).mem_iff.trans (by simp)
  constructor
  · rintro ⟨diagnostic, hmem, hcode⟩
    rcases (hdiagnostics diagnostic).mp hmem with hmem | hmem | hmem | hmem
    · exact absurd hcode (hbefore diagnostic hmem)
    · exact absurd hcode (hlexical diagnostic hmem)
    · exact absurd hcode (hparser diagnostic hmem)
    · exact ⟨diagnostic, hmem, hcode⟩
  · rintro ⟨diagnostic, hmem, hcode⟩
    exact ⟨diagnostic, (hdiagnostics diagnostic).mpr (.inr (.inr (.inr hmem))), hcode⟩

/-- The document of a parse has a module under its root, errors or not, so the
statements about the module below are about something. -/
theorem Finished.exists_module (h : Finished source options file final sprout)
    (before : List Diagnostic) :
    let document := ofTree final before (treeOf final sprout)
    document.root.kind = .root ∧ ∃ module, document.root.module = .ok module := by
  intro document
  obtain ⟨-, parts, houtline⟩ := h.housed_treeOf
  have hwhole : document.root.outline = .node none .root [.node none .moduleDefinition parts] := by
    rw [← houtline]
    exact congrArg Tree.outline (Tree.withField_rooted _)
  obtain ⟨module, hmodule, -⟩ := Located.exists_module_of_outline hwhole
  refine ⟨?_, module, hmodule⟩
  rw [← Located.kind_outline, hwhole]
  rfl

/-- In any document, from a text or from bytes and with errors or without, too
many definitions of `root` are reported if and only if there is more than one
and one of them is by `let`. The definitions are counted in the module of the
document itself (`Located.definesRoot`): those by `let` with that name, and the
elements.

The hypothesis on `decoded` says that it comes from decoding, which alone keeps
other diagnostics in front of those of the parse out. -/
theorem parse_reports_roots (decoded : Decoded) (options : Options) (file : Text)
    (hdecoded : (∃ text, decoded = .ofText text) ∨ ∃ bytes, decoded = .ofBytes bytes file)
    (hreport : options.reportDuplicateRoot = true) :
    ∃ document module, parse decoded options file = .ok document ∧
      document.root.module = .ok module ∧
      ((∃ diagnostic ∈ document.diagnostics, diagnostic.code = .duplicateRoot) ↔
        1 < module.node.childNodes.countP Located.definesRoot ∧
          ∃ item ∈ module.node.childNodes, item.definesRoot = true ∧ item.kind ≠ .element) := by
  obtain ⟨final, sprout, h⟩ := exists_finished decoded.text options file
  have hbefore : ∀ diagnostic ∈ decoded.diagnostics, diagnostic.code ≠ .duplicateRoot := by
    intro diagnostic hmem hcode
    rcases hdecoded with ⟨text, rfl⟩ | ⟨bytes, rfl⟩
    · cases hmem
    · rw [Decoded.code_ofBytes diagnostic hmem] at hcode
      cases hcode
  obtain ⟨hroot, module, hmodule⟩ := h.exists_module decoded.diagnostics
  refine ⟨_, module, h.parse_eq, hmodule, ?_⟩
  refine (h.exists_duplicateRoot_iff hbefore).trans ?_
  rw [Located.exists_duplicateRoot_check_iff hroot hmodule hreport, Checks.roots_ne_nil_iff]

/-- An element between two definitions by `let`: the count is three, and one of
them is by `let`. -/
theorem parse_reports_roots_three :
    ({} : Options).reportDuplicateRoot = true ∧
      ∃ document, parse (.ofText "let root = 1\n<a/>\nlet root = 2") {} "f" = .ok document ∧
        ∃ diagnostic ∈ document.diagnostics, diagnostic.code = .duplicateRoot := by
  refine ⟨rfl, ?_⟩
  obtain ⟨document, module, hparse, hmodule, hiff⟩ :=
    parse_reports_roots (.ofText "let root = 1\n<a/>\nlet root = 2") {} "f" (.inl ⟨_, rfl⟩) rfl
  have hcount : (parse (.ofText "let root = 1\n<a/>\nlet root = 2") {} "f").toOption.any
      (fun document => document.root.module.toOption.any fun module =>
        1 < module.node.childNodes.countP Located.definesRoot &&
          module.node.childNodes.any fun item => item.definesRoot && item.kind ≠ .element)
      = true := by
    decide +kernel
  rw [hparse] at hcount
  simp only [Except.toOption, Option.any_some, hmodule] at hcount
  exact ⟨document, hparse, hiff.mpr (by simpa using hcount)⟩

/-- Two elements define `root` twice, and nothing is reported: no definition is
by `let`, and the check keeps the last element only. -/
theorem exists_roots_unreported :
    ({} : Options).reportDuplicateRoot = true ∧
      ∃ document module, parse (.ofText "<a/>\n<b/>") {} "f" = .ok document ∧
        document.root.module = .ok module ∧ document.diagnostics = [] ∧
        module.node.childNodes.countP Located.definesRoot = 2 := by
  refine ⟨rfl, ?_⟩
  have hparse : (parse (.ofText "<a/>\n<b/>") {} "f").toOption.any (fun document =>
      document.diagnostics = [] && document.root.module.toOption.any fun module =>
        module.node.childNodes.countP Located.definesRoot = 2) = true := by
    decide +kernel
  obtain ⟨document, hdocument, hcheck⟩ := exists_ok_of_any hparse
  obtain ⟨hdiagnostics, hmodule⟩ := Bool.and_eq_true_iff.mp hcheck
  cases hroot : document.root.module with
  | error fault =>
    rw [hroot] at hmodule
    cases hmodule
  | ok module =>
    rw [hroot] at hmodule
    exact ⟨document, module, hdocument, hroot, of_decide_eq_true hdiagnostics,
      of_decide_eq_true hmodule⟩

end Document

end MarkupSyntax
