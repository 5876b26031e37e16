import MarkupSyntax.Document.Basic
import MarkupSyntax.Proofs.Grammar.Descent
import MarkupSyntax.Proofs.Tree.Places

/-!
# `MarkupSyntax.Proofs.Document.Parse`: the parse of a whole source

Every source has a document. The grammar comes to the end of the source
without a fault (`yields_descent_module`), its record is that of one
node, and the record of a node replays to a tree (`Tree.ofEvents_eq`).
`Finished` keeps what is known of the parse then, and `parse_eq` writes
down the document that it makes.

The tokens of that document are those of the source along the contexts
in which the parse consumed them (`Finished.shows`). Any way from the
start of the parse to its end will do: whatever was read on a detour and
taken back leaves no token behind.
-/

set_option autoImplicit false

namespace MarkupSyntax.Document

open Grammar
open Sprout hiding node token

variable {source file : Text} {options : Options}

/-- Before its first token a parse stands at the start of its source. -/
theorem at_ofSource (source : Text) (options : Options) (file : Text) :
    (parser source options file).At (.ofSource source file) :=
  ⟨Nat.zero_le _, TokenSource.standsAt_ofLexer source file⟩

/-- A parse that came to the end of its source, with the node that it recorded.
`run` is the run itself. The other fields are what the grammar keeps along every
run, read off at its end: the way there (`moves`), the record, which is that of
one node (`events` to `kind`), and that the node obeys the grammar if no error
was counted (`clean`). -/
structure Finished (source : Text) (options : Options) (file : Text) (final : Parser)
    (sprout : Sprout) : Prop where
  run : Document.run (parser source options file) = .ok final
  moves : Moves (parser source options file) final
  events : final.events.toList = eventsList [sprout]
  sound : sprout.Sound
  orderly : sprout.Orderly
  isNode : sprout.isNode = true
  kind : sprout.kind = .moduleDefinition
  atEnd : final.kind = .eof
  clean : final.errorCount = 0 → sprout.Obeys production

/-- Every parse comes to the end of its source. There is no hypothesis: neither
the source nor the options can make a parse fail or run out of fuel. -/
theorem exists_finished (source : Text) (options : Options) (file : Text) :
    ∃ final sprout, Finished source options file final sprout := by
  have hlive : (parser source options file).Live := ⟨_, at_ofSource source options file⟩
  obtain ⟨answer, final, hrun, hbuilds, hend⟩ := (yields_descent_module hlive).exists_ok
  obtain ⟨sprout, hgrows, hpoints, -, hkind, hclean⟩ := hbuilds
  have hrun' : Document.run (parser source options file) = .ok final := by
    unfold Document.run
    rw [hrun]
  -- The record is empty at the start, so it is that of the node alone.
  have hevents : final.events.toList = eventsList [sprout] := hgrows.events
  exact ⟨final, sprout, hrun', hgrows.toMoves, hevents, hgrows.sound.1,
    (orderlyList_cons.mp hgrows.orderly).1, hpoints.isNode, hkind, hend, hclean⟩

/-- The tree that a finished parse makes of its node. -/
def treeOf (final : Parser) (sprout : Sprout) : Tree :=
  (Tree.outermost final.text sprout ⟨final.source.trivia.toList, 0⟩).rooted

/-- The document of a finished parse with this tree. -/
def ofTree (final : Parser) (before : List Diagnostic) (tree : Tree) : Document where
  file := final.file
  options := final.options
  source := final.text
  tree := tree
  diagnostics := Diagnostic.merge [before, final.source.finish.2.1.toList,
    final.diagnostics.toList, (Located.ofTree tree final.text).check final.options final.file]

namespace Finished

variable {final : Parser} {sprout : Sprout} {contexts : List LexContext}

/-- The parse of the module comes to the end without a fault. -/
theorem exists_module_eq_ok (h : Finished source options file final sprout) :
    ∃ node, Grammar.module descent (parser source options file) = .ok node final := by
  have hrun := h.run
  unfold Document.run at hrun
  split at hrun
  · rename_i node q heq
    exact ⟨node, by rw [heq, Except.ok.inj hrun]⟩
  · cases hrun

/-- What is known of the parse of the module holds at the end. -/
theorem exists_of_yields (h : Finished source options file final sprout)
    {post : Completed → Parser → Prop}
    (hrun : Parse.Yields (Grammar.module descent) (parser source options file) post) :
    ∃ node, post node final := by
  obtain ⟨node, hok⟩ := h.exists_module_eq_ok
  obtain ⟨node', q, hok', hpost⟩ := hrun.exists_ok
  rw [hok] at hok'
  cases hok'
  exact ⟨node, hpost⟩

/-- The source does not change. -/
theorem text (h : Finished source options file final sprout) : final.text = source := by
  have hstart := at_ofSource source options file
  rw [h.moves.reaches.text ⟨_, hstart⟩, hstart.text]
  rfl

/-- The tokens of the record are those along the contexts of any way to
the end. -/
theorem tokens (h : Finished source options file final sprout)
    (way : Trace (parser source options file) contexts final) :
    (sprout.tokens.map fun token => (token.1.lexeme?, token.2))
      = (Seam.ofSource source file).takes contexts := by
  have htaken := (way.at_ (at_ofSource source options file)).2.2
  rw [h.events, taken_eventsList, tokensList, tokensList, List.append_nil] at htaken
  exact htaken

/-- The parse never records the end of the source as a token. -/
theorem notEnd (h : Finished source options file final sprout) :
    ∀ token ∈ sprout.tokens, token.1 ≠ .token .eof := by
  obtain ⟨contexts, way⟩ := h.moves.reaches
  have hpasses := (way.at_ (at_ofSource source options file)).2.1
  intro token hmem heof
  have hmem' : (token.1.lexeme?, token.2) ∈ (Seam.ofSource source file).takes contexts := by
    rw [← h.tokens way]
    exact List.mem_map_of_mem hmem
  rw [heof] at hmem'
  exact hpasses.ne_of_mem_takes hmem' rfl

/-- The record replays to the tree of its node, without a fault. -/
theorem ofEvents (h : Finished source options file final sprout) :
    Tree.ofEvents final.text final.source.trivia final.events = .ok (treeOf final sprout) :=
  Tree.ofEvents_eq h.events h.sound h.isNode h.notEnd

/-- A record is that of one tree. -/
theorem treeOf_eq (h : Finished source options file final sprout) {sprout' : Sprout}
    (hevents : final.events.toList = eventsList [sprout']) (hsound : sprout'.Sound)
    (hnode : sprout'.isNode = true) : treeOf final sprout = treeOf final sprout' := by
  have htokens : sprout'.tokens.map (fun token => (token.1.lexeme?, token.2))
      = sprout.tokens.map fun token => (token.1.lexeme?, token.2) := by
    have htaken := congrArg Event.taken (hevents.symm.trans h.events)
    simpa only [taken_eventsList, tokensList, List.append_nil] using htaken
  have notEnd : ∀ token ∈ sprout'.tokens, token.1 ≠ .token .eof := by
    intro token hmem heof
    have hmem' := List.mem_map_of_mem (f := fun token => (token.1.lexeme?, token.2)) hmem
    rw [htokens, heof] at hmem'
    obtain ⟨token', hmem', heq⟩ := List.mem_map.mp hmem'
    refine h.notEnd token' hmem' ?_
    have hkind : token'.1.lexeme? = some .eof := (Prod.mk.inj heq).1
    revert hkind
    generalize token'.1 = kind
    cases kind <;> intro hkind <;> cases hkind
    rfl
  have hassembly : Tree.ofEvents final.text final.source.trivia final.events
      = .ok (treeOf final sprout') := Tree.ofEvents_eq hevents hsound hnode notEnd
  exact Except.ok.inj (h.ofEvents.symm.trans hassembly)

/-- The document of the parse. -/
theorem parse_eq {decoded : Decoded} (h : Finished decoded.text options file final sprout) :
    parse decoded options file
      = .ok (ofTree final decoded.diagnostics (treeOf final sprout)) := by
  have hdocument : ofParser final decoded.diagnostics
      = .ok (ofTree final decoded.diagnostics (treeOf final sprout)) := by
    show (Tree.ofEvents final.text final.source.trivia final.events >>= _) = _
    rw [h.ofEvents]
    rfl
  unfold parse
  rw [h.run]
  exact hdocument

/-- At the end the parse stands in front of the end of the source. -/
theorem current (h : Finished source options file final sprout)
    (way : Trace (parser source options file) contexts final) :
    (((Seam.ofSource source file).along contexts).current final.context).kind = .eof := by
  rw [← (way.at_ (at_ofSource source options file)).1.kind]
  exact h.atEnd

/-- The tokens of the tree are those along the contexts in which the parse
consumed them, with the end of the source behind. -/
theorem leaves (h : Finished source options file final sprout)
    (way : Trace (parser source options file) contexts final) :
    (treeOf final sprout).leaves
      = (Seam.ofSource source file).leaves (sprout.tokens.map (·.1) ++ [.token .eof])
          (contexts ++ [final.context]) := by
  obtain ⟨hat, hpasses, -⟩ := way.at_ (at_ofSource source options file)
  have htrivia : final.source.trivia.toList
      = (Seam.ofSource source file).ahead (contexts ++ [final.context]) := by
    have hstands := hat.stands.trivia
    rw [hstands]
    show (((Seam.ofSource source file).along contexts).pass final.context).trivia.toList = _
    rw [← Seam.along_concat, Seam.trivia_along]
    rfl
  rw [treeOf, Tree.leaves_rooted, h.text, htrivia]
  exact Seam.leaves_outermost h.isNode hpasses (h.current way) (h.tokens way)

/-- The tokens of a walk over the tree are those along the contexts in
which the parse consumed them, with the end of the source behind. -/
theorem shows (h : Finished source options file final sprout)
    (way : Trace (parser source options file) contexts final) :
    (Seam.ofSource source file).Shows (contexts ++ [final.context])
      (Located.ofTree (treeOf final sprout) source).tokens := by
  have hkinds : (sprout.tokens.map (·.1) ++ [SyntaxKind.token .eof]).map SyntaxKind.lexeme?
      = ((Seam.ofSource source file).takes (contexts ++ [final.context])).map (·.1) := by
    rw [Seam.takes_concat, ← h.tokens way, h.current way]
    simp [SyntaxKind.lexeme?]
  have hplaces := Located.map_tokens (Located.ofTree (treeOf final sprout) source)
  have hleaves : (Located.ofTree (treeOf final sprout) source).tree.leaves
      = (Seam.ofSource source file).leaves (sprout.tokens.map (·.1) ++ [.token .eof])
          (contexts ++ [final.context]) := by
    rw [← h.leaves way]
    exact Tree.leaves_withField _ none
  rw [hleaves] at hplaces
  apply Seam.shows_of_map_place (Nat.zero_le _) hkinds
  rw [Seam.supply_ofSource]
  exact hplaces

end Finished

/-- Parsing never fails, whatever the source and the options are. The result
type has faults for misuse of the parser, for a record that does not replay, and
for the end of the fuel, and none of them comes up.

The second part says that the fuel hides nothing. The grammar comes to an end to
any depth that is large enough for the source, so the bound with which `parse`
calls it plays no part. -/
theorem exists_parse_eq_ok (decoded : Decoded) (options : Options) (file : Text) :
    (∃ document, parse decoded options file = .ok document) ∧
      ∀ depth, 4 * decoded.text.length < depth →
        ∃ node final, Grammar.module (descentTo depth) (parser decoded.text options file)
          = .ok node final := by
  constructor
  · obtain ⟨final, sprout, h⟩ := exists_finished decoded.text options file
    exact ⟨_, h.parse_eq⟩
  · intro depth hdepth
    have hat := at_ofSource decoded.text options file
    have hroom : (parser decoded.text options file).room ≤ decoded.text.length := by
      unfold Parser.room
      rw [hat.text]
      exact Nat.sub_le _ _
    obtain ⟨node, final, hrun, -⟩ :=
      (yields_module (works_descentTo depth) ⟨_, hat⟩ (by omega)).exists_ok
    exact ⟨node, final, hrun⟩

/-- Where the check of a result is computed, there is a result, and it passes
the check. Theorems about fixed sources compute the check and take the document
from here. -/
theorem exists_ok_of_any {α : Type} {result : Except Fault α} {check : α → Bool}
    (h : result.toOption.any check = true) :
    ∃ answer, result = .ok answer ∧ check answer = true := by
  cases result with
  | error => cases h
  | ok answer => exact ⟨answer, rfl, h⟩

end MarkupSyntax.Document
