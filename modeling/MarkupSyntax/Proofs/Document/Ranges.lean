import MarkupSyntax.Proofs.Document.Parse
import MarkupSyntax.Proofs.Grammar.Routine
import MarkupSyntax.Proofs.Parse.Extends

/-!
# `MarkupSyntax.Proofs.Document.Ranges`: the ranges of handles and of nodes

A rule answers with a handle, and the handle knows the range of its node
while the tree is not built yet. `exists_range_of_returns` says what range
that is: it runs from the start of the first token that was consumed for
the node to the end of the last. These are the tokens of the document
between the two states. Where the record is kept up to the end (`Extends`),
the tree has a node of this kind with these tokens, so with this trimmed
range. Every rule keeps it (`Returns.extends`), and so does each of the
steps that rules are made of, except for those that take back what was
read.

Two kinds of nodes are apart. The module holds a token that no rule
consumes, the end of the source, and its trimmed range goes that far, but
its handle's does not (`exists_range_ne_trimmedRange`). Mixed content is
read as text, but its marker is started where code would begin, so the
theorem asks that these are one place.
-/

set_option autoImplicit false

namespace MarkupSyntax

/-! ### Tokens that a seam shows -/

namespace Seam

variable {seam : Seam} {contexts front back : List LexContext} {parts others : List Located}

/-- The tokens stop where the lexer's tokens do. -/
theorem Shows.map_stop (h : seam.Shows contexts parts) (inside : seam.lexer.IsInside) :
    parts.map (fun part => part.tokenRange.stop) = (seam.takes contexts).map (·.2) := by
  induction h with
  | done seam => rfl
  | @next seam context rest part parts first later ih =>
    rw [List.map_cons, ih (isInside_pass inside context), first.tokenRange inside]
    rfl

/-- A token for each context. -/
theorem Shows.length (h : seam.Shows contexts parts) : parts.length = contexts.length := by
  induction h with
  | done seam => rfl
  | next _ _ ih => exact congrArg Nat.succ ih

/-- The tokens along the first contexts, and those along the others. -/
theorem Shows.exists_append (h : seam.Shows (front ++ back) parts) :
    ∃ first later, parts = first ++ later ∧ first.length = front.length ∧
      (seam.along front).Shows back later := by
  have hlength : (parts.take front.length).length = front.length := by
    have hparts := h.length
    rw [List.length_append] at hparts
    rw [List.length_take]
    omega
  rw [← List.take_append_drop front.length parts] at h
  exact ⟨_, _, (List.take_append_drop ..).symm, hlength, h.split hlength⟩

/-- The first tokens that a seam shows reach up to the seam behind them. -/
theorem Shows.getLast?_stop (h : seam.Shows (front ++ back) (parts ++ others))
    (inside : seam.lexer.IsInside) (hlength : parts.length = front.length) (hfront : front ≠ []) :
    parts.getLast?.map (fun part => part.tokenRange.stop)
      = some (seam.along front).lexer.position := by
  have hstops := h.map_stop inside
  have htakes : ∀ (seam : Seam) (front back : List LexContext),
      seam.takes (front ++ back) = seam.takes front ++ (seam.along front).takes back := by
    intro seam front
    induction front generalizing seam with
    | nil => exact fun _ => rfl
    | cons context front ih => exact fun back => congrArg (_ :: ·) (ih _ back)
  rw [htakes, List.map_append, List.map_append] at hstops
  have hfirst := List.append_inj_left hstops (by
    rw [List.length_map, List.length_map, length_takes, hlength])
  rw [← List.getLast?_map, hfirst, List.getLast?_map]
  exact getLast?_takes hfront

/-- The first token that a seam shows is its current one. -/
theorem Shows.head?_start {context : LexContext} (h : seam.Shows (context :: back) parts)
    (inside : seam.lexer.IsInside) :
    parts.head?.map (fun part => part.tokenRange.start)
      = some (seam.current context).range.start := by
  cases h with
  | next first later => exact congrArg (fun range => some range.start) (first.tokenRange inside)

end Seam

namespace Located

variable {part : Located} {range : TextRange}

/-- The range between the ends of the tokens is the trimmed range. -/
theorem trimmedRange_eq
    (hstart : part.tokens.head?.map (fun token => token.tokenRange.start) = some range.start)
    (hstop : part.tokens.getLast?.map (fun token => token.tokenRange.stop) = some range.stop) :
    part.trimmedRange = range := by
  obtain ⟨first, hfirst, hstart⟩ := Option.map_eq_some_iff.mp hstart
  obtain ⟨last, hlast, hstop⟩ := Option.map_eq_some_iff.mp hstop
  unfold trimmedRange
  rw [firstToken?_eq_head?, lastToken?_eq_getLast?, hfirst, hlast]
  show (TextRange.ofBounds? first.tokenRange.start last.tokenRange.stop).getD _ = range
  rw [hstart, hstop, TextRange.ofBounds?, dif_pos range.start_le_stop]
  rfl

end Located

/-! ### Handles -/

/-- What a handle tells of the node that the record grew by between two
states. The range begins with the first token that was consumed since `p`,
read in the context in which it was consumed, and ends where the source is
consumed up to in `q`. Neither the range nor the text fails. -/
structure Completed.Tells (source : Text) (p : Parser) (node : Completed) (q : Parser)
    (range : TextRange) : Prop where
  /-- The record grew by this node and nothing else. -/
  grown : node.GrownFrom p q
  range_eq : node.range q = .ok range q
  text_eq : node.text q = .ok (source.sliceRange range) q
  /-- At least one token was consumed, the first of them in this context. -/
  start : ∃ context contexts, Trace p (context :: contexts) q ∧
    range.start = (p.relex context).position
  stop : range.stop = q.done

/-- The kind that a handle tells is that of the node in the record. -/
theorem Completed.kind_of_events {p q : Parser} {node : Completed} {sprout : Sprout}
    (hevents : q.events.toList = p.events.toList ++ sprout.events none)
    (hpoints : node.PointsAt p.events.toList.length sprout) :
    node.kind q = .ok sprout.kind q := by
  have hkind : node.IsOf sprout.kind q := by
    refine ⟨none, sprout.field, ?_⟩
    rw [← Array.getElem?_toList, hevents]
    exact hpoints.getElem? none
  exact hkind.kind_eq

/-- A rule keeps the record that it was called with. -/
theorem Grammar.Returns.extends {descend : Descent} {p q : Parser} {node : Completed}
    (h : Returns descend p node q) (hd : Descends p descend) (hp : p.Live) : Extends p q := by
  obtain ⟨bound, hw, hready⟩ := hd.exists_ready hp
  cases h with
  | rule routine awaits run =>
    have hgrown := (Routine.leaves_parse_grown hd.bearing awaits).ok run node rfl
    rcases (Routine.leaves_parse_beginsIn hw hready awaits).ok run node rfl with
      hway | ⟨-, hway, -⟩
    · exact hgrown.extends hway.reaches
    · exact hgrown.extends hway.reaches
  | operand built =>
    exact (Routine.grown_of_bears (built.bears hd.bearing)).extends (built.onward hw hready).reaches

namespace Grammar.Routine

variable {rule : Routine} {p : Parser}

/-- What the rule answers, where that is a node. -/
def answer? (rule : Routine) (p : Parser) : Option (Completed × Parser) :=
  match rule.parse descent p with
  | .ok part q => part.map (·, q)
  | .error _ _ => none

/-- Where the answer of a rule is computed, it is a run of the rule. -/
theorem exists_of_any_answer? {check : Completed × Parser → Bool}
    (h : (rule.answer? p).any check = true) :
    ∃ node q, rule.parse descent p = .ok (some node) q ∧ check (node, q) = true := by
  unfold answer? at h
  split at h
  · rename_i part q hrun
    cases part with
    | none => cases h
    | some node => exact ⟨node, q, hrun, h⟩
  · cases h

end Grammar.Routine

namespace Document

open Grammar
open Sprout hiding node token

variable {source file : Text} {options : Options} {p q final : Parser} {node : Completed}
  {range : TextRange}

/-- The tokens of the document that were consumed between two states of its
parse, and the range from the first to the last. The counts of tokens say which
ones: as many stand in front of them as were consumed up to `p`, and together
with those as many as up to `q`. -/
structure Covered (root : Located) (p q : Parser) (range : TextRange) (own : List Located) :
    Prop where
  split : ∃ front back, root.tokens = front ++ (own ++ back) ∧
    front.length = (Event.taken p.events.toList).length
  length : (Event.taken p.events.toList).length + own.length = (Event.taken q.events.toList).length
  start : own.head?.map (fun token => token.tokenRange.start) = some range.start
  stop : own.getLast?.map (fun token => token.tokenRange.stop) = some range.stop

namespace Finished

variable {sprout : Sprout}

/-- What is consumed between two states on the way to the end are tokens of
the document. -/
theorem exists_covered (h : Finished source options file final sprout)
    (hp : Reaches (parser source options file) p) (hq : node.Tells source p q range)
    (hfinal : Reaches q final) :
    ∃ own, Covered (Located.ofTree (treeOf final sprout) source) p q range own := by
  obtain ⟨before, hp⟩ := hp
  obtain ⟨context, contexts, hway, hstart⟩ := hq.start
  obtain ⟨after, hfinal⟩ := hfinal
  have hshows := h.shows ((hp.trans hway).trans hfinal)
  rw [List.append_assoc, List.append_assoc] at hshows
  obtain ⟨hat, -, htaken⟩ := hp.at_ (at_ofSource source options file)
  obtain ⟨hat', -, htaken'⟩ := hway.at_ hat
  have hcount : (Event.taken p.events.toList).length = before.length := by
    rw [htaken]
    exact Seam.length_takes before
  have hinside := hat.inside
  obtain ⟨front, later, hsplit, hfront, hlater⟩ := hshows.exists_append
  obtain ⟨own, back, rfl, hown, -⟩ := hlater.exists_append
  refine ⟨own, ⟨front, back, hsplit, hfront.trans hcount.symm⟩, ?_, ?_, ?_⟩
  · rw [htaken', List.length_append, Seam.length_takes, hown]
  · have hhead := hlater.head?_start hinside
    rw [List.head?_append_of_ne_nil _ (List.ne_nil_of_length_eq_add_one hown)] at hhead
    rw [hhead, hstart, hat.position_relex]
  · rw [hlater.getLast?_stop hinside hown (List.cons_ne_nil _ _), hq.stop, hat'.done]

/-- The node of a handle is a part of the tree, if its record is kept up to
the end and it is not the module. -/
theorem exists_part (h : Finished source options file final sprout) {own : List Located}
    (hown : Covered (Located.ofTree (treeOf final sprout) source) p q range own)
    (hclosed : Event.IsClosed p.events.toList) (hnode : node.GrownFrom p q)
    (hfinal : Extends q final) (hmodule : node.kind q ≠ .ok .moduleDefinition q) :
    ∃ found ∈ (Located.ofTree (treeOf final sprout) source).parts,
      node.kind q = .ok found.kind q ∧ found.tokens = own ∧ found.trimmedRange = range ∧
      found.trimmedText = source.sliceRange range := by
  obtain ⟨kept, hevents, hpoints, hsound⟩ := hnode
  have hkind := Completed.kind_of_events hevents hpoints
  have hkept := hfinal.kept
  rw [hevents, h.events] at hkept
  obtain ⟨part, place, hcontains, hpart, heq, hlength⟩ :=
    exists_contains_of_keptIn hkept hclosed hpoints.isNode hsound ⟨h.sound, trivial⟩
  obtain ⟨place', hbelow⟩ := hcontains.exists_below fun hself => by
    rw [hkind, ← heq, hself, h.kind] at hmodule
    exact hmodule rfl
  obtain ⟨found, hmem, hsource, ⟨supply, hgrow⟩, front', back', hsplit', hfront'⟩ :=
    Located.has_of_contains_module h.kind hbelow
  rw [List.flatMap_singleton] at hmem hsplit'
  obtain ⟨⟨front, back, hsplit, hfront⟩, hcount, hstart, hstop⟩ := hown
  -- Two parts of the same tokens that start at the same place and are equally long.
  have hsame : found.tokens = own := by
    have hlater := (List.append_inj (hsplit.symm.trans hsplit') (hfront.trans hfront'.symm)).2
    refine (List.append_inj_left hlater ?_).symm
    rw [Located.length_tokens_grow hgrow, hlength, ← length_taken_events kept none]
    rw [hevents, Event.taken_append, List.length_append] at hcount
    exact Nat.add_left_cancel hcount
  have hrange : found.trimmedRange = range :=
    Located.trimmedRange_eq (hsame ▸ hstart) (hsame ▸ hstop)
  refine ⟨found, hmem, ?_, hsame, hrange, ?_⟩
  · rw [hkind, ← heq]
    exact congrArg (EStateM.Result.ok · q)
      ((congrArg Tree.kind hgrow).trans (kind_grow part supply)).symm
  · have hfound := Located.isNode_of_grow hgrow hpart
    unfold Located.isNode at hfound
    rw [Located.trimmedText, Option.isNone_iff_eq_none.mp hfound, hsource, hrange]

end Finished

/-- Take a state `p` that the parse comes to with its record kept, and a rule of
the grammar that answers in `q` with the handle `node`, after at least one
token. The handle then tells the range from the first such token to the last,
and the text between (`Completed.Tells`). Of mixed content this is asked only
where its text begins where code would (`hmixed`).

Suppose that the parse goes on from `q` to its end and keeps the record: no more
is asked than that the events are still at their places (`Extends`). Then the
document has just these tokens between the two states (`Covered`), and if the
node is not the module, the tree has a node of its kind with these tokens. Its
trimmed range and text are those of the handle. -/
theorem exists_range_of_returns {decoded : Decoded} {descend : Descent}
    (hp : Extends (parser decoded.text options file) p) (hdescends : Descends p descend)
    (hreturns : Returns descend p node q)
    (htokens : Event.taken q.events.toList ≠ Event.taken p.events.toList)
    (hmixed : node.kind q = .ok .mixedContent q →
      (p.relex .text).position = (p.relex .normal).position) :
    ∃ range, node.Tells decoded.text p q range ∧
      ∀ final, run (parser decoded.text options file) = .ok final → Extends q final →
        ∃ document own, parse decoded options file = .ok document ∧
          Covered document.root p q range own ∧
          (node.kind q ≠ .ok .moduleDefinition q → ∃ found ∈ document.root.parts,
            node.kind q = .ok found.kind q ∧ found.tokens = own ∧ found.trimmedRange = range ∧
            found.trimmedText = decoded.text.sliceRange range) := by
  have hstart : (parser decoded.text options file).Live := ⟨_, at_ofSource decoded.text options file⟩
  -- What the rule consumed is known from `Covers`, whatever rule it is.
  have hlive := hp.reaches.live hstart
  obtain ⟨context, hcovers⟩ := hreturns.exists_covers hdescends hlive hmixed
  obtain ⟨contexts, range, hway, hrange, htext, hfirst, hlast⟩ :=
    hcovers.exists_range hlive htokens
  have hsource : q.text = decoded.text := by
    rw [(hp.reaches.trans ⟨_, hway⟩).text hstart, (at_ofSource decoded.text options file).text]
    rfl
  rw [hsource] at htext
  have htells : node.Tells decoded.text p q range :=
    ⟨hcovers.grown, hrange, htext, ⟨context, contexts, hway, hfirst⟩, hlast⟩
  refine ⟨range, htells, fun final hrun hfinal => ?_⟩
  obtain ⟨final', sprout, hfinished⟩ := exists_finished decoded.text options file
  obtain rfl : final' = final := Except.ok.inj (hfinished.run.symm.trans hrun)
  obtain ⟨own, hown⟩ := hfinished.exists_covered hp.reaches htells hfinal.reaches
  have hroot : (ofTree final' decoded.diagnostics (treeOf final' sprout)).root
      = Located.ofTree (treeOf final' sprout) decoded.text := by
    rw [← hfinished.text]
    rfl
  refine ⟨_, own, hfinished.parse_eq, hroot ▸ hown, fun hmodule => ?_⟩
  rw [hroot]
  exact hfinished.exists_part hown (hp.closed .nil) hcovers.grown hfinal hmodule

/-! ### The ranges in `import a` -/

/-- The record of `import a`, which the witness below computes. -/
def importSprout : Sprout :=
  .node .importStatement none [.token (.token .importKeyword) 6 none,
    .node .qualifiedName (some "name") [.token (.token .identifier) 8 none]]

/-- The module of `import a` was started, and its item is next. -/
def beforeImport : Parser := { parser "import a\n" {} "f" with events := #[.pending] }

/-- The handle of an import tells the trimmed range of its node. The rule is
called where a parse calls it, behind the start of the module, and the parse
goes on to complete the module. -/
theorem exists_range_of_returns_import :
    ∃ node q range document, Returns descent beforeImport node q ∧
      node.Tells "import a\n" beforeImport q range ∧
      parse (.ofText "import a\n") {} "f" = .ok document ∧
      ∃ found ∈ document.root.parts, found.kind = .importStatement ∧
        found.trimmedRange = range := by
  have hkeyword : beforeImport.kind = .importKeyword := by decide +kernel
  have hruns : (Routine.importStatement.answer? beforeImport).any fun answer =>
      (run (parser "import a\n" {} "f")).toOption.any fun final =>
        decide (answer.1.index = 1) &&
          decide (answer.2.events.toList = .pending :: importSprout.events none) &&
          decide (final.events.toList = eventsList [.node .moduleDefinition none [importSprout]]) &&
          decide (final.source = answer.2.source ∧ final.speculation = 0) := by
    decide +kernel
  obtain ⟨node, q, hanswer, hfinal⟩ := Routine.exists_of_any_answer? hruns
  have hreturns : Returns descent beforeImport node q := .rule .importStatement hkeyword hanswer
  obtain ⟨final, hrun, hchecked⟩ := exists_ok_of_any hfinal
  simp only [Bool.and_eq_true, decide_eq_true_eq] at hchecked
  obtain ⟨⟨⟨hindex, hq⟩, hfinal⟩, hsource, hspeculation⟩ := hchecked
  have htaken : Event.taken q.events.toList
      = [(some .importKeyword, 6), (some .identifier, 8)] := congrArg Event.taken hq
  have hkind : node.IsOf .importStatement q := by
    refine ⟨none, none, ?_⟩
    rw [← Array.getElem?_toList, hq, hindex]
    rfl
  have hstart : Extends (parser "import a\n" {} "f") beforeImport :=
    ⟨⟨_, .other (.refl _) rfl rfl id⟩, .nil _, fun h => h.append (.cons .nil nofun)⟩
  -- Behind the import the module is completed, and that is all.
  have hend : Extends q final := by
    refine ⟨⟨_, .other (.refl _) hsource ((congrArg Event.taken hfinal).trans htaken.symm)
      fun _ => hspeculation.ge⟩, ?_, fun _ => ?_⟩
    · rw [hq, hfinal]
      exact .cons (.start (fun hreal => absurd rfl hreal) (.inl rfl)) (.append _ [.finish])
    · rw [hfinal, ← List.append_nil (eventsList _)]
      exact isClosed_eventsList _ [] .nil
  obtain ⟨range, htells, hdocument⟩ := @exists_range_of_returns "f" {} beforeImport q node
    (.ofText "import a\n") descent hstart .whole hreturns (by rw [htaken]; decide)
    fun h => by rw [hkind.kind_eq] at h; cases h
  obtain ⟨document, own, hparse, -, hparts⟩ := hdocument final hrun hend
  obtain ⟨found, hmem, hfound, -, hrange, -⟩ := hparts fun h => by
    rw [hkind.kind_eq] at h
    cases h
  rw [hkind.kind_eq] at hfound
  exact ⟨node, q, range, document, hreturns, htells, hparse, found, hmem,
    ((EStateM.Result.ok.inj hfound).1).symm, hrange⟩

/-- The handle of a module tells a range that stops behind its last item,
but the trimmed range of its node stops at the end of the source. -/
theorem exists_range_ne_trimmedRange :
    ∃ node final range document, Returns descent (parser "import a\n" {} "f") node final ∧
      Event.taken final.events.toList ≠ [] ∧ node.kind final = .ok .moduleDefinition final ∧
      node.range final = .ok range final ∧
      parse (.ofText "import a\n") {} "f" = .ok document ∧
      ∃ found ∈ document.root.parts, found.kind = .moduleDefinition ∧ range.stop = 8 ∧
        found.trimmedRange.stop = 9 := by
  -- One evaluation of the rule and of the parse together; the rest only reads its answer.
  have hruns : (Routine.module.answer? (parser "import a\n" {} "f")).any fun answer =>
      (parse (.ofText "import a\n") {} "f").toOption.any fun document =>
        decide (answer.1.index = 0 ∧ answer.2.done = 8) &&
          decide (answer.2.events.toList
            = eventsList [.node .moduleDefinition none [importSprout]]) &&
          document.root.parts.any fun found =>
            decide (found.kind = .moduleDefinition ∧ found.trimmedRange.stop = 9) := by
    decide +kernel
  obtain ⟨node, final, hanswer, hparsed⟩ := Routine.exists_of_any_answer? hruns
  obtain ⟨document, hparse, hchecked⟩ := exists_ok_of_any hparsed
  simp only [Bool.and_eq_true, decide_eq_true_eq, List.any_eq_true] at hchecked
  obtain ⟨⟨⟨hindex, hdone⟩, hfinal⟩, found, hmem, hfound, hstop⟩ := hchecked
  have hreturns : Returns descent (parser "import a\n" {} "f") node final :=
    .rule .module trivial hanswer
  have hlive : (parser "import a\n" {} "f").Live := ⟨_, at_ofSource "import a\n" {} "f"⟩
  have hkind : node.IsOf .moduleDefinition final := by
    refine ⟨none, none, ?_⟩
    rw [← Array.getElem?_toList, hfinal, hindex]
    rfl
  have htokens : Event.taken final.events.toList ≠ [] := by
    rw [hfinal]
    decide
  obtain ⟨context, hcovers⟩ := hreturns.exists_covers .whole hlive
    fun h => by rw [hkind.kind_eq] at h; cases h
  obtain ⟨contexts, range, -, hrange, -, -, hend⟩ := hcovers.exists_range hlive htokens
  exact ⟨node, final, range, document, hreturns, htokens, hkind.kind_eq, hrange, hparse, found,
    hmem, hfound, hend.trans hdone, hstop⟩

end Document

end MarkupSyntax
