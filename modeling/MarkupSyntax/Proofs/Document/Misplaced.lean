import MarkupSyntax.Proofs.Diagnostic.Merge
import MarkupSyntax.Proofs.Document.Construct
import MarkupSyntax.Proofs.Document.Precedence
import MarkupSyntax.Proofs.Grammar.Misplaced

/-!
# `MarkupSyntax.Proofs.Document.Misplaced`: misplaced constructs are reported

A source starts with an element that has a control construct in its body
and text behind that. Where nothing is wrong with the rest of the source
when it is read as code, and the text starts neither with a letter nor with
markup, the body is mixed content, and the construct is reported where it
starts (`Document.parse_misplaced`).

An error in what looks like code behind the construct counts as one of
its own, so then it may go unreported
(`Document.exists_control_in_text_unreported`).
-/

set_option autoImplicit false

namespace MarkupSyntax

open Grammar Parse
open Sprout hiding node token

namespace Grammar

variable {p q r : Parser} {start : Nat} {name : TagName} {construct : Construct .elements}
  {rest : Text}

/-- The record grew by an element whose body is mixed content, with anything
behind it, and a control construct that starts at this offset was reported. -/
def StartsMixed (p : Parser) (start : Nat) (q : Parser) : Prop :=
  ∃ element others, Grows p q (element :: others) ∧ element.outline.HasMixedContent ∧
    q.Misplaces start

/-- What comes behind the element does not take back the report. -/
theorem StartsMixed.grows {sprouts : List Sprout} (h : StartsMixed p start q)
    (h' : Grows q r sprouts) : StartsMixed p start r := by
  obtain ⟨element, others, hgrows, helement, hmisplaced⟩ := h
  exact ⟨element, others ++ sprouts, hgrows.trans h', helement, hmisplaced.moves h'.toMoves⟩

section Start

variable (h : Awaits p p.text.length .normal (name.opening ++ (construct.text ++ rest)))
  (hmemo : p.memo = []) (first : p.diagnostics = #[]) (hrest : rest.Interrupts)
  (noElse : construct.IsOpen → NoElse rest)
  (hsource : p.text = name.opening ++ (construct.text ++ rest))

include h hmemo first hrest noElse hsource

/-- The element is the first item of the module. -/
theorem yields_moduleRound_misplaced :
    Yields (moduleRound descent {}) p fun next q => ∃ progress, next = .again progress ∧
      StartsMixed p name.opening.length q ∧ Behind progress q := by
  have hfaces := h.faces
  rw [TagName.opening_append] at hfaces
  have hless : p.kind = .lessThan := (faces_start h.context (.inl rfl) hfaces).2
  have hitem : Yields (moduleItem descent) p fun answer q => answer.isSome = true ∧
      StartsMixed p name.opening.length q := by
    refine (yields_moduleItem_element hfaces h.context fun q hq hsame =>
      yields_element_misplaced (by omega) (h.later hq.calm ⟨_, hq.way⟩ (h.faces.same hq) hq.context)
        (hsame.trans hmemo) (hq.calm.diagnostics.trans first) hrest noElse
        ((hq.text h.live).trans hsource) (some "element")).mono ?_
    rintro _ r ⟨q, node, rfl, hq, element, hr, -, helement, hmisplaced⟩
    obtain ⟨sprouts, hgrows, hnone⟩ := hq.grown
    cases sprouts with
    | nil => exact ⟨rfl, element, [], hgrows.trans hr, helement, hmisplaced⟩
    | cons => cases hnone
  have hround : Yields (moduleRound descent {}) p fun next q => ∃ progress, next = .again progress ∧
      StartsMixed p name.opening.length q := by
    unfold moduleRound
    refine .sees_false (by rw [hless]; decide) (.ite_false Bool.false_ne_true ?_)
    refine .mustProgress h.live (behind_first p) fun progress _ => ?_
    refine hitem.bind ?_
    rintro answer q ⟨hanswer, hq⟩
    exact .ite_true hanswer (.pure ⟨progress, rfl, hq⟩)
  refine (hround.and (yields_moduleRound (works_descent (4 * p.room + 1)) h.live (by omega)
    (behind_first p))).mono ?_
  rintro _ q ⟨⟨progress, rfl, hq⟩, -, hbehind, -⟩
  exact ⟨progress, rfl, hq, hbehind⟩

/-- The items behind it may be anything. -/
theorem yields_module_misplaced :
    Yields (module descent) p fun _ q => ∃ sprout element others, Grows p q [sprout] ∧
      sprout.outline = .node none .moduleDefinition (element :: others) ∧
      element.HasMixedContent ∧ q.Misplaces name.opening.length := by
  unfold module
  refine (yields_start_node h.live h.context).bind ?_
  rintro marker q ⟨hq, hmarks⟩
  have htext : q.text = p.text := hq.toCovers.text h.live
  have h := h.later hq.calm ⟨_, hq.way⟩ (h.faces.same hq.toCovers) hq.context
  -- The rest of the module may be anything. It only adds items behind the element and diagnostics
  -- behind its own.
  have keeps : RoundKeeps (moduleRound descent)
      (fun progress r => StartsMixed q name.opening.length r ∧ Behind progress r)
      (fun _ r => r.room) fun _ r => StartsMixed q name.opening.length r := by
    rintro progress r ⟨hr, hbehind⟩
    obtain ⟨_, _, hgrows, -⟩ := id hr
    refine (yields_moduleRound (works_descent (4 * r.room + 1)) hgrows.live (by omega)
      hbehind).mono ?_
    rintro (next | _) s hs
    · obtain ⟨⟨_, hgrows, -⟩, hbehind, hless⟩ := hs
      exact ⟨⟨hr.grows hgrows, hbehind⟩, hless⟩
    · obtain ⟨⟨_, hgrows, -⟩, -⟩ := hs
      exact hr.grows hgrows
  have hloop : Yields (loop (moduleRound descent) {}) q fun _ r =>
      StartsMixed q name.opening.length r := by
    unfold loop
    refine .get (.rounds_again _ (yields_moduleRound_misplaced (htext ▸ h) (hmarks.memo.trans hmemo)
      (hq.calm.diagnostics.trans first) hrest noElse (htext.trans hsource)) ?_)
    intro progress r hr
    obtain ⟨⟨_, _, hgrows, -⟩, -⟩ := id hr
    have hle := hgrows.toMoves.room_le
    exact yields_rounds keeps hr (by unfold Parser.room at *; omega)
  refine hloop.bind ?_
  rintro _ r ⟨element, others, hr, helement, hmisplaced⟩
  refine (hq.completeGrows hr (by decide) (Outline.fits_of_isLoose rfl)).mono ?_
  rintro node s ⟨sprout, hs, -, houtline, hmarks⟩
  refine ⟨sprout, element.outline, outlines others, hs, houtline, helement, ?_⟩
  rw [Parser.Misplaces, hmarks.calm.diagnostics]
  exact hmisplaced

end Start

end Grammar

/-! ### Documents -/

namespace Located

variable {part : Located} {outline : Outline} {others : List Outline}

/-- The first child is the first part. -/
theorem exists_head?_children (h : part.outline.parts = outline :: others) :
    ∃ child, part.children.head? = some child ∧ child.outline = outline := by
  rw [← map_outline_children] at h
  obtain ⟨child, rest, hchildren, hchild, -⟩ := List.map_eq_cons_iff.mp h
  exact ⟨child, by rw [hchildren, List.head?_cons], hchild⟩

end Located

namespace Document

/-- A control construct in text is reported, whatever construct of elements it
is: the element's body is mixed content, and the diagnostic starts where the
construct does. The source goes on behind the construct with white space and a
character that is neither a letter nor the start of markup, and then with
anything, closing tag or not.

The rest of the source is asked to be without a fault when it is read as code.
The parse needs this of the tokens that it has read ahead when the construct
ends, whose faults it takes for faults of the construct
(`exists_control_in_text_unreported`). Behind an open construct the text may not
go on with `else`, either, as it could behind a comment. The construct is
written with single spaces between its tokens, and a level of nesting for each
character is more than enough. -/
theorem parse_misplaced (name : TagName) (construct : Construct .elements) (white tail : Text)
    (c : CodePoint) (options : Options) (file : Text) (blank : white.White)
    (black : c.isWhitespace = false) (notLetter : c.isLetter = false) (notAngle : c ≠ '<')
    (notBrace : c ≠ '\x7b') (clean : Text.Clean (white ++ c :: tail))
    (noElse : construct.IsOpen → NoElse (white ++ c :: tail)) (colons : options.allowColonArms = true)
    (arrows : options.allowArrowArms = true)
    (deepEnough : ((name.opening ++ (construct.text ++ (white ++ c :: tail))).length : Int) ≤
      options.maxNestingDepth) :
    ∃ document module element content,
      parse (.ofText (name.opening ++ (construct.text ++ (white ++ c :: tail)))) options file
        = .ok document ∧
      document.root.module = .ok module ∧ module.node.children.head? = some element ∧
      element.kind = .element ∧ element.child? "content" = some content ∧
      content.kind = .mixedContent ∧
      ∃ diagnostic ∈ document.diagnostics, diagnostic.code = .controlInMixedContent ∧
        diagnostic.range.start = name.opening.length := by
  -- All that the parse asks of what stands behind the construct is that text is found there,
  -- without a diagnostic of the lexer.
  have hrest := Text.interrupts_of_first blank black notLetter notAngle notBrace clean
  generalize white ++ c :: tail = rest at hrest noElse deepEnough ⊢
  have htext := (at_ofSource (name.opening ++ (construct.text ++ rest)) options file).text
  have hrun := yields_module_misplaced (awaits_ofText colons arrows deepEnough) rfl rfl hrest
    noElse htext
  generalize name.opening ++ (construct.text ++ rest) = source at hrun ⊢
  obtain ⟨final, sprout, h⟩ := exists_finished source options file
  obtain ⟨-, sprout', first, others, hgrows, houtline, ⟨hkind, content, hcontent, hmixed⟩,
    diagnostic, hmem, hcode, hstart⟩ := h.exists_of_yields hrun
  -- The element is found in the finished tree by its outline.
  have hwhole : (ofTree final [] (treeOf final sprout)).root.outline = .node none .root
      [.node none .moduleDefinition (first :: others ++ [.leaf none (.token .eof)])] :=
    (congrArg Tree.outline (Tree.withField_rooted _)).trans
      (h.outline_treeOf hgrows houtline (by decide))
  obtain ⟨module, hmodule, hparts⟩ := Located.exists_module_of_outline hwhole
  obtain ⟨element, helement, rfl⟩ := @Located.exists_head?_children module.node first _
    (by rw [hparts]; rfl)
  obtain ⟨content, hchild, rfl⟩ := Located.exists_child?_of_outline hcontent
  rw [Located.kind_outline] at hkind hmixed
  refine ⟨_, module, element, content, @Finished.parse_eq file options final sprout (.ofText source) h,
    hmodule, helement, hkind, hchild, hmixed, diagnostic, ?_, hcode, hstart⟩
  refine (Diagnostic.perm_sort _).mem_iff.mpr (List.mem_flatten.mpr ⟨_, ?_, hmem⟩)
  simp

/-- A dash and a word behind an `if`. -/
theorem parse_misplaced_if :
    let line : EmptyElement := ⟨⟨⟨"br", .identifier, ⟨rfl, rfl, rfl⟩, by decide⟩, []⟩, []⟩
    let condition : ProperTerm := ⟨.identifier ⟨"a", ⟨⟨rfl, rfl, rfl⟩, rfl⟩⟩, trivial⟩
    let construct : Construct .elements := .ifSimple condition (.elements line []) none
    TagName.outer.opening ++ (construct.text ++ ([CodePoint.ofChar ' '] ++ CodePoint.ofChar '-' ::
        Text.ofString " hi</a>")) = Text.ofString "<a>if a \x7b < br / > \x7d - hi</a>" ∧
      Text.Clean (Text.ofString " - hi</a>") ∧ NoElse (Text.ofString " - hi</a>") ∧
      ∃ document module element content,
        parse (.ofText "<a>if a \x7b < br / > \x7d - hi</a>") {} "f" = .ok document ∧
        document.root.module = .ok module ∧ module.node.children.head? = some element ∧
        element.kind = .element ∧ element.child? "content" = some content ∧
        content.kind = .mixedContent ∧
        ∃ diagnostic ∈ document.diagnostics, diagnostic.code = .controlInMixedContent ∧
          diagnostic.range.start = 3 := by
  intro line condition construct
  have htext : TagName.outer.opening ++ (construct.text ++ ([CodePoint.ofChar ' '] ++
      CodePoint.ofChar '-' :: Text.ofString " hi</a>"))
        = Text.ofString "<a>if a \x7b < br / > \x7d - hi</a>" := by
    decide
  have hblank : Lexeme.Splits .normal .whitespace [CodePoint.ofChar ' '] (Text.ofString "- hi</a>") :=
    ⟨rfl, rfl, rfl⟩
  have hminus : Lexeme.Splits .normal .minus [CodePoint.ofChar '-'] (Text.ofString " hi</a>") :=
    ⟨rfl, rfl, rfl⟩
  have hspace : Lexeme.Splits .normal .whitespace [CodePoint.ofChar ' '] (Text.ofString "hi</a>") :=
    ⟨rfl, rfl, rfl⟩
  have hword : Lexeme.Splits .normal .identifier (Text.ofString "hi") (Text.ofString "</a>") :=
    ⟨rfl, rfl, rfl⟩
  have hless : Lexeme.Splits .normal .lessThan [CodePoint.ofChar '<'] (Text.ofString "/a>") :=
    ⟨rfl, rfl, rfl⟩
  have hclean : Text.Clean (Text.ofString " - hi</a>") :=
    .cons hblank (.cons hminus (.cons hspace (.cons hword (.cons hless clean_closing))))
  have hnoElse : NoElse (Text.ofString " - hi</a>") :=
    ⟨_, _, _, _, .trivia hblank rfl (.token hminus rfl), by decide⟩
  refine ⟨htext, hclean, hnoElse, ?_⟩
  have hparse := parse_misplaced .outer construct [CodePoint.ofChar ' '] (Text.ofString " hi</a>")
    (CodePoint.ofChar '-') {} "f" (by decide) (by decide) (by decide) (by decide) (by decide) hclean
    (fun _ => hnoElse) rfl rfl (by rw [htext]; decide)
  rw [htext] at hparse
  exact hparse

end Document

end MarkupSyntax
