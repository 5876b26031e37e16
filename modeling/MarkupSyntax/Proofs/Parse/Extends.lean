import MarkupSyntax.Proofs.Parse.Onward
import MarkupSyntax.Proofs.Tree.Kept

/-!
# `MarkupSyntax.Proofs.Parse.Extends`: later steps keep the record

A handle is a place in the record, and what it says later on depends on
what happened to the record since. `Extends p q` says that the parse went
on from `p` to `q` and that the record of `p` was kept on the way
(`Event.KeptIn`): other nodes may have been started and finished, nodes
that were open got their kinds, and completed nodes their fields and
parents.

All that the grammar does to a record is of this kind. A rule that answers
with a node adds it (`Completed.GrownFrom.extends`), a marker that is
started and completed changes only its own start event
(`Started.extends`, `Parse.leaves_complete_extends`), a field changes
nothing but the field (`Parse.leaves_setField_extends`), and a parent is
put around a node that had none (`Parse.leaves_precede_extends`). So
`Extends` follows for whatever these steps are put together to
(`Extends.trans`).
-/

set_option autoImplicit false

namespace MarkupSyntax

open Event hiding token
open Sprout hiding node token

variable {p q r : Parser} {node : Completed} {marker : Marker}

/-- The parse goes on from `p` to `q`, and keeps the record that it has in
`p`. -/
structure Extends (p q : Parser) : Prop where
  /-- The tokens that are consumed on the way are the next ones. -/
  reaches : Reaches p q
  /-- Every event of the record is still at its place, changed only as a
  later step may change it. -/
  kept : KeptIn p.events.toList q.events.toList
  /-- If all parents that the record names are in it, that stays so. -/
  closed : IsClosed p.events.toList → IsClosed q.events.toList

namespace Extends

/-- Doing nothing keeps the record. -/
theorem refl (p : Parser) : Extends p p := ⟨.refl p, .refl _, id⟩

/-- What is kept on two ways, one after the other, is kept on both together. -/
theorem trans (h : Extends p q) (h' : Extends q r) : Extends p r where
  reaches := h.reaches.trans h'.reaches
  kept := h.kept.trans h'.kept
  closed := h'.closed ∘ h.closed

/-- Behind the record come the events of whole parts. -/
theorem of_append {sprouts : List Sprout} (hreaches : Reaches p q)
    (hevents : q.events.toList = p.events.toList ++ eventsList sprouts) : Extends p q where
  reaches := hreaches
  kept := hevents ▸ .append _ _
  closed h := by
    have hclosed := isClosed_eventsList sprouts [] .nil
    rw [List.append_nil] at hclosed
    rw [hevents]
    exact h.append hclosed

/-- The record is as it was. -/
theorem of_events_eq (hreaches : Reaches p q) (hevents : q.events = p.events) : Extends p q := by
  refine @of_append p q [] hreaches ?_
  rw [hevents]
  exact (List.append_nil _).symm

/-- Reading the current token anew leaves the record alone. -/
theorem relex (p : Parser) (context : LexContext) : Extends p (p.relex context) :=
  .of_events_eq ⟨[], .relex (.refl p) context⟩ rfl

/-- A start event is changed at its place, and events that are no tokens
come behind the record. The node has the parent that it had, or it had none
and gets the first of these events. -/
theorem of_set {index : Nat} {kind kind' : SyntaxKind} {parent parent' : Option Nat}
    {field field' : Option String} {behind : List Event} (hsource : q.source = p.source)
    (hspeculation : q.speculation = p.speculation)
    (hevent : p.events[index]? = some (.start kind parent field))
    (hkind : kind ≠ .tombstone → kind' = kind)
    (hparent : parent' = parent ∨
      parent = none ∧ parent' = some (p.events.size - index) ∧ behind ≠ [])
    (hbehind : IsClosed behind) (htaken : taken behind = [])
    (hevents : q.events.toList
      = (p.events.toList ++ behind).set index (.start kind' parent' field')) : Extends p q := by
  rw [← Array.getElem?_toList] at hevent
  rw [← Array.length_toList] at hparent
  have hlt := (List.getElem?_eq_some_iff.mp hevent).1
  rw [List.set_append_left _ _ hlt] at hevents
  have hkept : Kept (p.events.toList.length - index) (.start kind parent field)
      (.start kind' parent' field') := by
    refine .start hkind (hparent.imp_right fun ⟨hnone, hsome, _⟩ => ⟨hnone, ?_⟩)
    exact fun distance hmem => Nat.le_of_eq (Option.some.inj (hsome.symm.trans hmem))
  have hreaches : Reaches p q := by
    refine (Still.of_source hsource ?_ hspeculation).reaches
    rw [hevents, taken_append, taken_set hevent, htaken, List.append_nil]
  refine ⟨hreaches, hevents ▸ (KeptIn.set hevent hkept).trans (.append _ _), fun h => ?_⟩
  rw [hevents, ← List.set_append_left _ _ hlt]
  refine (h.append hbehind).set fun distance hmem => ?_
  rw [List.length_append]
  rcases hparent with rfl | ⟨-, hsome, hnonempty⟩
  · obtain rfl := Option.mem_def.mp hmem
    exact Nat.lt_add_right _ (h _ _ _ _ hevent)
  · have hdistance := Option.some.inj (hsome.symm.trans hmem)
    have hpos := List.length_pos_iff.mpr hnonempty
    omega

end Extends

/-! ### What the grammar does to a record -/

/-- A record that grows is kept. -/
theorem Grows.extends {sprouts : List Sprout} (h : Grows p q sprouts) : Extends p q :=
  .of_append h.reaches h.events

/-- A rule adds the node that it answers with. -/
theorem Completed.GrownFrom.extends (h : node.GrownFrom p q) (hreaches : Reaches p q) :
    Extends p q := by
  obtain ⟨sprout, hevents, -⟩ := h
  refine @Extends.of_append p q [sprout] hreaches ?_
  rw [hevents, eventsList, eventsList, List.append_nil]

/-- A marker is started behind the record. -/
theorem Started.extends (h : Started p marker q) : Extends p q where
  reaches := h.reaches
  kept := by
    rw [h.opened.events, List.append_assoc]
    exact .append _ _
  closed hclosed := by
    rw [h.opened.events]
    exact (hclosed.append .nil).append (.cons_pending .nil)

namespace Parse

/-- Consuming the current token adds it to the record. -/
theorem leaves_bump_extends (hp : p.Live) (context : LexContext) (field : Option String) :
    Leaves (bump context field) p fun _ q => Extends p q := by
  show Extends p (p.bump context field none)
  by_cases hend : p.kind = .eof
  · rw [Parser.bump_of_eof hend]
    exact .refl p
  · exact (p.grows_bump hp context field none hend rfl).1.extends

/-- Completing a node that is open gives it its kind and finishes it. -/
theorem leaves_complete_extends {kind : SyntaxKind} {parent : Option Nat} {field : Option String}
    (hevent : p.events[marker.index]? = some (.start .tombstone parent field)) :
    Leaves (marker.complete kind) p fun _ q => Extends p q := by
  have hlt := (Array.getElem?_eq_some_iff.mp hevent).1
  have hevents :
      ((p.events.setIfInBounds marker.index (.start kind parent field)).push .finish).toList
        = (p.events.toList ++ [Event.finish]).set marker.index (.start kind parent field) := by
    rw [Array.toList_push, Array.toList_setIfInBounds, List.set_append_left _ _ hlt]
  have hclosed : IsClosed [Event.finish] := .cons_finish .nil
  refine .changeStart hevent (.get (.modify (.pure ?_)))
  exact .of_set rfl rfl hevent (fun hreal => absurd rfl hreal) (.inl rfl) hclosed rfl hevents

/-- A completed node goes into a field. -/
theorem leaves_setField_extends (node : Completed) (field : Option String) (p : Parser) :
    Leaves (node.setField field) p fun _ q => Extends p q := by
  refine Leaves.changeStart_any fun kind parent field' hevent => .pure ?_
  have hevents : (p.events.setIfInBounds node.index (.start kind parent field)).toList
      = (p.events.toList ++ []).set node.index (.start kind parent field) := by
    rw [List.append_nil, Array.toList_setIfInBounds]
  exact .of_set rfl rfl hevent (fun _ => rfl) (.inl rfl) .nil rfl hevents

/-- A node gets a parent around it if it has none. -/
theorem leaves_precede_extends {kind : SyntaxKind} {field : Option String}
    (hevent : p.events[node.index]? = some (.start kind none field)) :
    Leaves node.precede p fun _ q => Extends p q := by
  have hlt := (Array.getElem?_eq_some_iff.mp hevent).1
  have hpushed : (p.events.push .pending)[node.index]? = some (.start kind none field) := by
    rw [Array.getElem?_push_lt hlt]
    exact (Array.getElem?_eq_getElem hlt).symm.trans hevent
  have hevents : ((p.events.push .pending).setIfInBounds node.index
        (.start kind (some (p.events.size - node.index)) field)).toList
      = (p.events.toList ++ [Event.pending]).set node.index
        (.start kind (some (p.events.size - node.index)) field) := by
    rw [Array.toList_setIfInBounds, Array.toList_push]
  have hclosed : IsClosed [Event.pending] := .cons_pending .nil
  have hstart : Leaves start p fun marker q =>
      marker.index = p.events.size ∧ q = { p with events := p.events.push .pending } :=
    .get (.set (.pure ⟨rfl, rfl⟩))
  refine hstart.bind ?_
  rintro marker _ ⟨hindex, rfl⟩
  refine .eventAt hpushed (.ite (fun _ => .throw) fun _ => .modify (.pure ?_))
  rw [hindex]
  exact .of_set rfl rfl hevent (fun _ => rfl) (.inr ⟨rfl, rfl, List.cons_ne_nil _ _⟩) hclosed rfl
    hevents

end Parse

end MarkupSyntax
