import MarkupSyntax.Proofs.Parse.Draws

/-!
# `MarkupSyntax.Proofs.Parse.Reports`: parses that report something

The relations of `MarkupSyntax.Proofs.Parse.Records` say that nothing is
reported. Where a source has a defect that is known, too, what is known
of its parse is `Reports p tokens trees context fresh q`: these tokens
were consumed, the record grew by these trees, and these diagnostics are
new.

A diagnostic is about the current token, and where that token stands is
known from the text behind it (`Parser.range_of_scans`).
-/

set_option autoImplicit false

namespace MarkupSyntax

open Sprout hiding node token

/-- These tokens are consumed, the record grows by these trees, these
diagnostics are reported, and the next token is read in `context`. -/
structure Reports (p : Parser) (tokens : List Lexed) (trees : List Tree) (context : LexContext)
    (fresh : List Diagnostic) (q : Parser) : Prop where
  way : Trace p (tokens.map (·.context)) q
  context : q.context = context
  grown : ∃ sprouts, Grows p q sprouts ∧ outlines sprouts = Tree.outlines trees
  diagnostics : q.diagnostics.toList = p.diagnostics.toList ++ fresh

variable {p q r : Parser} {tokens tokens' : List Lexed} {trees trees' : List Tree}
  {context context' : LexContext} {fresh fresh' : List Diagnostic} {marker : Marker}

/-- Nothing may be reported, too. -/
theorem Records.reports (h : Records p tokens trees context q) :
    Reports p tokens trees context [] q :=
  ⟨h.way, h.context, h.grown, by rw [h.calm.diagnostics, List.append_nil]⟩

namespace Reports

/-- Tokens, trees and diagnostics are added one after another. -/
theorem trans (h : Reports p tokens trees context fresh q)
    (h' : Reports q tokens' trees' context' fresh' r) :
    Reports p (tokens ++ tokens') (trees ++ trees') context' (fresh ++ fresh') r where
  way := by
    rw [List.map_append]
    exact h.way.trans h'.way
  context := h'.context
  grown := by
    obtain ⟨sprouts, hgrows, houtlines⟩ := h.grown
    obtain ⟨sprouts', hgrows', houtlines'⟩ := h'.grown
    refine ⟨sprouts ++ sprouts', hgrows.trans hgrows', ?_⟩
    simp only [outlines_append, houtlines, houtlines', Tree.outlines_eq_map, List.map_append]
  diagnostics := by rw [h'.diagnostics, h.diagnostics, List.append_assoc]

/-- Where tokens are consumed, the first of them the current one, that one
is taken. -/
theorem takes {token : Lexed} (h : Reports p (token :: tokens) trees context fresh q)
    (hcontext : p.context = token.context) : Takes p q := by
  have hway := h.way
  rw [List.map_cons, ← hcontext] at hway
  exact ⟨_, hway⟩

/-- The parse stays out of speculation. -/
theorem isSpeculative (h : Reports p tokens trees context fresh q) :
    q.isSpeculative = p.isSpeculative := by
  obtain ⟨_, hgrows, -⟩ := h.grown
  exact hgrows.notes.isSpeculative

end Reports

/-- Behind the tokens that were consumed stand the others, whatever was
reported. -/
theorem Parser.Faces.later {rest : List Lexed} {behind : Text} (h : p.Faces (tokens ++ rest) behind)
    (h' : Reports p tokens trees context fresh q) : q.Faces rest behind := by
  obtain ⟨seam, hp, hlexes⟩ := h
  exact ⟨_, (h'.way.at_ hp).1, Seam.lexes_along hp.inside hlexes⟩

/-- A node is completed whose children were read with reports. -/
theorem Holds.completeReports {kind : SyntaxKind} (h : Holds p marker tokens trees context q)
    (h' : Reports q tokens' trees' context' fresh r) (real : kind.isNode = true)
    (hfits : (Tree.node none kind (trees ++ trees')).outline.Fits) :
    Parse.Yields (marker.complete kind) r fun _ s =>
      Reports p (tokens ++ tokens') [.node none kind (trees ++ trees')] context' fresh s := by
  obtain ⟨hcovers, first, rest, hopened, houtlines⟩ := h
  obtain ⟨sprouts, hgrows, houtlines'⟩ := h'.grown
  have houtline : (close first kind (rest ++ sprouts)).outline
      = (Tree.node none kind (trees ++ trees')).outline := by
    have hall : outlines (first.toList ++ (rest ++ sprouts)) = Tree.outlines (trees ++ trees') := by
      rw [← List.append_assoc, outlines_append, houtlines, houtlines']
      simp only [Tree.outlines_eq_map, List.map_append]
    rw [Tree.outline, ← hall]
    cases first <;> rfl
  refine (Marker.yields_close (hopened.grows hgrows) real (houtline ▸ hfits)).mono ?_
  rintro node s ⟨hnode, -, hstill, hmarks, -⟩
  refine ⟨?_, hstill.context.trans h'.context, ⟨_, hnode, congrArg (fun outline => [outline]) houtline⟩,
    ?_⟩
  · have hway := (hcovers.way.trans h'.way).trans hstill.way
    rwa [List.append_nil, ← List.map_append] at hway
  · rw [hmarks.calm.diagnostics, h'.diagnostics, hcovers.calm.diagnostics]

/-! ### Reporting -/

namespace Parser

/-- The place of the current token, in front of a known text. -/
theorem range_of_scans {text before token rest : Text} {gap : List (TriviaKind × Text)}
    {kind : TokenKind} (h : p.Faces [] text) (hcontext : p.context = context)
    (hscan : Scans context text gap kind token rest) (hsource : p.text = before ++ (token ++ rest)) :
    p.range = .ofLength before.length token.length := by
  obtain ⟨hstart, hstop⟩ := h.range_add hcontext hscan
  have hwhole := congrArg List.length hsource
  rw [List.length_append, List.length_append] at hwhole
  cases hrange : p.range with
  | mk start stop _ =>
    rw [hrange] at hstart hstop
    dsimp only at hstart hstop
    obtain rfl : start = before.length := by omega
    subst hstart
    rfl

end Parser

namespace Parse

/-- The first report of a parse is recorded. -/
theorem yields_report_first {diagnostic : Diagnostic} (hp : p.Live) (hcontext : p.context = context)
    (first : p.diagnostics = #[]) (hown : diagnostic.OfGrammar)
    (hplaced : diagnostic.IsPlaced p.text.length p.file) :
    Yields (report diagnostic) p fun _ q => Reports p [] [] context [diagnostic] q := by
  have hrecorded : (p.report diagnostic).diagnostics = #[diagnostic] := by
    rw [Parser.report, first]
    rfl
  show Reports p [] [] context [diagnostic] (p.report diagnostic)
  have hgrows := (Parser.grows_report hp hown fun _ => hplaced).1
  refine ⟨.other (.refl p) rfl rfl id, hcontext, ⟨[], hgrows, rfl⟩, ?_⟩
  rw [hrecorded, first]
  rfl

end Parse

end MarkupSyntax
