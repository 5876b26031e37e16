import MarkupSyntax.Proofs.Event.Kept
import MarkupSyntax.Proofs.Tree.Contained

/-!
# `MarkupSyntax.Proofs.Tree.Kept`: nodes that a record keeps

Suppose that a record ends with the events of a node, and that the record
of a whole tree keeps it (`Event.KeptIn`). Then the tree has this node: of
the same kind, behind as many tokens, with as many tokens in it
(`Sprout.exists_contains_of_keptIn`). Its field may be another one, and
nodes may have been put around it.

The proof looks at what starts in the tree where the events of the node
start. Nothing that started earlier has its own start there, since no name
in the record leads to that place, so what starts there is a whole part
with all that was put around it (`Sprout.HasTop`,
`Sprout.exists_top_of_keptIn`). The node of the record is that part or one
that it was put around (`Sprout.Heads`): both start alike, where one of
them finishes the other does, and each start event that names a parent is
followed by that parent in either (`Sprout.exists_heads`).
-/

set_option autoImplicit false

namespace MarkupSyntax

namespace Sprout

open Event hiding token

variable {part top sprout : Sprout} {sprouts : List Sprout} {parent : Option Nat}
  {place count : Nat}

/-- The events of sprouts one after another. -/
theorem sizeList_append (sprouts sprouts' : List Sprout) :
    sizeList (sprouts ++ sprouts') = sizeList sprouts + sizeList sprouts' := by
  rw [← length_eventsList, eventsList_append, List.length_append, length_eventsList,
    length_eventsList]

/-- The tokens of sprouts one after another. -/
theorem tokensList_append (sprouts sprouts' : List Sprout) :
    tokensList (sprouts ++ sprouts') = tokensList sprouts ++ tokensList sprouts' := by
  induction sprouts with
  | nil => rfl
  | cons sprout rest ih =>
    rw [List.cons_append, tokensList, tokensList, ih, List.append_assoc]

/-! ### Where the nodes of a record end -/

mutual
/-- A whole sprout leaves the nodes around it open. -/
theorem closing_events (parent : Option Nat) :
    ∀ (sprout : Sprout) (depth : Nat) (behind : List Event),
      closing depth (sprout.events parent ++ behind) = (closing depth behind).map (· + sprout.size)
  | token .., _, _ => rfl
  | node kind field children, depth, behind => by
    show (closing (depth + 1) (eventsList children ++ [.finish] ++ behind)).map (· + 1) = _
    rw [List.append_assoc, closing_eventsList children]
    show (((closing depth behind).map (· + 1)).map (· + sizeList children)).map (· + 1) = _
    rw [Option.map_map, Option.map_map]
    refine congrArg (Option.map · _) (funext fun count => ?_)
    show count + 1 + sizeList children + 1 = count + (sizeList children + 2)
    omega
  | around first kind field rest, depth, behind => by
    rw [events, List.append_assoc, closing_events _ first]
    show ((closing (depth + 1) (eventsList rest ++ [.finish] ++ behind)).map (· + 1)).map _ = _
    rw [List.append_assoc, closing_eventsList rest]
    show ((((closing depth behind).map (· + 1)).map (· + sizeList rest)).map (· + 1)).map _ = _
    rw [Option.map_map, Option.map_map, Option.map_map]
    refine congrArg (Option.map · _) (funext fun count => ?_)
    show count + 1 + sizeList rest + 1 + first.size = count + (first.size + (sizeList rest + 2))
    omega

/-- The same for sprouts that follow one another. -/
theorem closing_eventsList : ∀ (sprouts : List Sprout) (depth : Nat) (behind : List Event),
    closing depth (eventsList sprouts ++ behind)
      = (closing depth behind).map (· + sizeList sprouts)
  | [], _, _ => (Option.map_id' ..).symm
  | sprout :: rest, depth, behind => by
    rw [eventsList, List.append_assoc, closing_events none sprout, closing_eventsList rest,
      Option.map_map]
    refine congrArg (Option.map · _) (funext fun count => ?_)
    show count + sizeList rest + sprout.size = count + (sprout.size + sizeList rest)
    omega
end

/-- A node that starts and finishes with these children is kept as one of
the same kind, with children that have as many events. -/
theorem eq_of_keptIn_start {children children' : List Sprout} {kind kind' : SyntaxKind}
    {parent parent' : Option Nat} {field field' : Option String} {behind : List Event}
    (real : kind.isNode = true)
    (h : KeptIn (.start kind parent field :: (eventsList children ++ [.finish]))
      (.start kind' parent' field' :: (eventsList children' ++ [.finish]) ++ behind)) :
    kind' = kind ∧ sizeList children' = sizeList children := by
  cases h with
  | cons first rest =>
    cases first with
    | start same_kind _ =>
      refine ⟨same_kind (SyntaxKind.ne_tombstone_of_isNode real), ?_⟩
      have hclosing := rest.closing_eq (closing_eventsList children 0 [.finish])
      rw [List.append_eq, List.append_assoc, closing_eventsList] at hclosing
      simpa [closing] using hclosing

/-! ### Names of parents in the record of a sprout -/

mutual
/-- The parents that a sprout's record names start in it, or behind it
where the one around the sprout does. -/
theorem isClosed_events : ∀ (sprout : Sprout) (parent : Option Nat) (behind : List Event),
    (∀ distance ∈ parent, distance < sprout.own + behind.length) → IsClosed behind →
    IsClosed (sprout.events parent ++ behind)
  | token .., _, _, _, h => h.cons nofun
  | node kind field children, parent, behind, hparent, h => by
    have hchildren := isClosed_eventsList children (.finish :: behind) h.cons_finish
    rw [events, List.cons_append, List.append_assoc]
    refine hchildren.cons fun _ distance _ heq => ?_
    have hlt := hparent distance (Event.start.inj heq).2.1
    rw [List.length_append, length_eventsList]
    simp only [own, List.length_cons] at hlt ⊢
    omega
  | around first kind field rest, parent, behind, hparent, h => by
    have hrest := isClosed_eventsList rest (.finish :: behind) h.cons_finish
    rw [events, List.append_assoc, List.cons_append, List.append_assoc]
    refine isClosed_events first _ _ (fun distance hdistance => ?_)
      (hrest.cons fun _ distance _ heq => ?_)
    · rw [← Option.some.inj hdistance, List.length_cons]
      omega
    · have hlt := hparent distance (Event.start.inj heq).2.1
      rw [List.length_append, length_eventsList]
      simp only [own, List.length_cons] at hlt ⊢
      omega

/-- The same for sprouts that follow one another. -/
theorem isClosed_eventsList : ∀ (sprouts : List Sprout) (behind : List Event), IsClosed behind →
    IsClosed (eventsList sprouts ++ behind)
  | [], _, h => h
  | sprout :: rest, behind, h => by
    rw [eventsList, List.append_assoc]
    exact isClosed_events sprout none _ nofun (isClosed_eventsList rest behind h)
end

/-! ### What starts at a place -/

/-- A sprout has at least one event of its own. -/
theorem own_pos (sprout : Sprout) : 0 < sprout.own := by
  cases sprout <;> exact Nat.succ_pos _

/-- Parts before the sprouts and behind them. -/
theorem Contains.among (h : part.Contains place count sprouts) (before behind : List Sprout) :
    part.Contains (sizeList before + place) ((tokensList before).length + count)
      (before ++ (sprouts ++ behind)) := by
  cases h with
  | @here before' behind' =>
    have hpart := @Contains.here part (before ++ before') (behind' ++ behind)
    rw [sizeList_append, tokensList_append, List.length_append] at hpart
    simpa only [List.append_assoc, List.cons_append] using hpart
  | @inside before' behind' _ kind field _ _ h =>
    have hpart := @Contains.inside part (before ++ before') (behind' ++ behind) _ kind field _ _ h
    rw [sizeList_append, tokensList_append, List.length_append] at hpart
    simpa only [List.append_assoc, List.cons_append, Nat.add_assoc] using hpart
  | @first before' behind' rest _ kind field _ _ h =>
    have hpart :=
      @Contains.first part (before ++ before') (behind' ++ behind) rest _ kind field _ _ h
    rw [sizeList_append, tokensList_append, List.length_append] at hpart
    simpa only [List.append_assoc, List.cons_append, Nat.add_assoc] using hpart
  | @rest before' behind' _ first kind field _ _ h =>
    have hpart :=
      @Contains.rest part (before ++ before') (behind' ++ behind) _ first kind field _ _ h
    rw [sizeList_append, tokensList_append, List.length_append] at hpart
    simpa only [List.append_assoc, List.cons_append, Nat.add_assoc] using hpart

/-- A part of the children of a node, seen from the node. -/
theorem Contains.within_node {children : List Sprout} {kind : SyntaxKind} {field : Option String}
    (h : part.Contains place count children) :
    part.Contains (1 + place) count [node kind field children] := by
  have hpart := @Contains.inside part [] [] children kind field _ _ h
  simpa only [sizeList, tokensList, List.length_nil, Nat.zero_add, Nat.add_comm place 1,
    List.nil_append] using hpart

/-- A part of the first child of a node that was put around it. -/
theorem Contains.within_first {first : Sprout} {rest : List Sprout} {kind : SyntaxKind}
    {field : Option String} (h : part.Contains place count [first]) :
    part.Contains place count [around first kind field rest] := by
  have hpart := @Contains.first part [] [] rest first kind field _ _ h
  simpa only [sizeList, tokensList, List.length_nil, Nat.zero_add, List.nil_append] using hpart

/-- A part of the other children. -/
theorem Contains.within_rest {first : Sprout} {rest : List Sprout} {kind : SyntaxKind}
    {field : Option String} (h : part.Contains place count rest) :
    part.Contains (first.size + (1 + place)) (first.tokens.length + count)
      [around first kind field rest] := by
  have hpart := @Contains.rest part [] [] rest first kind field _ _ h
  simpa only [sizeList, tokensList, List.length_nil, Nat.zero_add, Nat.add_comm place 1,
    List.nil_append] using hpart

/-- The first child of a node starts where the node does. -/
theorem Contains.of_around {first : Sprout} {rest : List Sprout} {kind : SyntaxKind}
    {field : Option String} (h : (around first kind field rest).Contains place count sprouts) :
    first.Contains place count sprouts := by
  induction h with
  | @here before behind =>
    exact @Contains.first first before behind rest first kind field _ _ (@here first [] [])
  | inside _ ih => exact .inside ih
  | first _ ih => exact .first ih
  | rest _ ih => exact .rest ih

/-- The record of a sprout takes its tokens, whatever parent it names. -/
theorem length_taken_events (sprout : Sprout) (parent : Option Nat) :
    (taken (sprout.events parent)).length = sprout.tokens.length := by
  rw [taken_events, List.length_map]

/-- At the place in the record starts a part that is among the sprouts or
below them, with nothing around it that starts there too. The tokens in
front of it in the record are those before it in the sprouts. -/
def HasTop (sprouts : List Sprout) (record : List Event) (place : Nat) : Prop :=
  ∃ (top : Sprout) (front behind : List Event), front.length = place ∧
    top.Contains place (taken front).length sprouts ∧ record = front ++ (top.events none ++ behind)

/-- The part is there with more events around the record and more sprouts,
if the place moves alike in both. -/
theorem HasTop.lift {sprouts' : List Sprout} {record : List Event} (h : HasTop sprouts record place)
    (before after : List Event)
    (hcontains : ∀ (top : Sprout) (count : Nat), top.Contains place count sprouts →
      top.Contains (before.length + place) ((taken before).length + count) sprouts') :
    HasTop sprouts' (before ++ (record ++ after)) (before.length + place) := by
  obtain ⟨top, front, behind, rfl, htop, rfl⟩ := h
  refine ⟨top, before ++ front, behind ++ after, List.length_append, ?_, ?_⟩
  · rw [taken_append, List.length_append]
    exact hcontains top _ htop
  · simp only [List.append_assoc]

/-- The own start of a node that was put around another is named by that. -/
theorem isParent_around {first : Sprout} {rest : List Sprout} {kind : SyntaxKind}
    {field : Option String} (hnode : first.isNode = true) :
    IsParent ((around first kind field rest).events parent) first.size := by
  have hsize := length_before hnode
  have hpos := own_pos first
  refine ⟨first.before.length, first.own, first.kind, first.field, by omega, hsize, ?_⟩
  rw [events, events_eq hnode, List.append_assoc, List.getElem?_append_right (Nat.le_refl _),
    Nat.sub_self]
  rfl

/-- A start event in front of the finish of a node is one of its children's. -/
theorem getElem?_of_finish {behind : List Event} {kind : SyntaxKind} {distance : Option Nat}
    {field : Option String}
    (h : (behind ++ [.finish])[place]? = some (.start kind distance field)) :
    behind[place]? = some (.start kind distance field) := by
  have hlt := (List.getElem?_eq_some_iff.mp h).1
  rw [List.length_append, List.length_singleton] at hlt
  rcases Nat.lt_or_eq_of_le (Nat.le_of_lt_succ hlt) with hlt | rfl
  · rwa [List.getElem?_append_left hlt] at h
  · rw [List.getElem?_concat_length] at h
    cases h

mutual
/-- A start event in the record of a sound sprout, other than its first,
starts a part of it, or it is the parent of something that started before. -/
theorem hasTop_events : ∀ (sprout : Sprout) (parent : Option Nat) (place : Nat)
    {kind : SyntaxKind} {distance : Option Nat} {field : Option String}, sprout.Sound → 0 < place →
    (sprout.events parent)[place]? = some (.start kind distance field) →
    ¬ IsParent (sprout.events parent) place → HasTop [sprout] (sprout.events parent) place
  | token .., _, place, _, _, _, _, hpos, hevent, _ => by
    obtain ⟨place, rfl⟩ := Nat.exists_eq_add_one.mpr hpos
    cases hevent
  | node kind field children, parent, place, _, _, _, hsound, hpos, hevent, hparent => by
    obtain ⟨place, rfl⟩ := Nat.exists_eq_add_one.mpr hpos
    have hinner := hasTop_eventsList children place hsound.2 (getElem?_of_finish hevent)
      fun h => hparent (Nat.add_comm 1 place ▸ h.among [.start kind parent field] [.finish])
    rw [Nat.add_comm]
    exact hinner.lift [.start kind parent field] [.finish] fun _ count h =>
      (Nat.zero_add count).symm ▸ h.within_node
  | around first kind field rest, parent, place, _, _, _, hsound, hpos, hevent, hparent => by
    obtain ⟨hnode, hfirst, -, hrest⟩ := hsound
    have hlength := length_events (some first.own) first
    -- The place is in the first child, at the own start, or among the others.
    rcases Nat.lt_trichotomy place first.size with hlt | rfl | hlt
    · rw [events, List.getElem?_append_left (hlength ▸ hlt)] at hevent
      have hinner := hasTop_events first (some first.own) place hfirst hpos hevent
        fun h => hparent (Nat.zero_add place ▸ h.among [] _)
      have hlift := @HasTop.lift _ _ [around first kind field rest] _ hinner []
        (.start kind parent field :: (eventsList rest ++ [.finish]))
        fun _ count h => by simpa [taken] using h.within_first
      exact Nat.zero_add place ▸ hlift
    · exact absurd (isParent_around hnode) hparent
    · obtain ⟨place, rfl⟩ := Nat.exists_eq_add_of_lt hlt
      rw [Nat.add_assoc, Nat.add_comm place] at hevent hparent ⊢
      rw [events, List.getElem?_append_right (hlength ▸ Nat.le_add_right _ _), hlength,
        Nat.add_sub_cancel_left, Nat.add_comm 1] at hevent
      have hbefore :
          (first.events (some first.own) ++ [Event.start kind parent field]).length + place
            = first.size + (1 + place) := by
        rw [List.length_append, hlength, Nat.add_assoc]
        rfl
      have hrecord : first.events (some first.own) ++ [Event.start kind parent field]
          ++ (eventsList rest ++ [.finish]) = (around first kind field rest).events parent := by
        rw [List.append_assoc]
        rfl
      have hinner := hasTop_eventsList rest place hrest (getElem?_of_finish hevent)
        fun h => hparent (hrecord ▸ hbefore ▸ h.among _ [.finish])
      rw [← hrecord, ← hbefore]
      refine hinner.lift _ [.finish] fun _ count h => ?_
      rw [hbefore, taken_append, List.length_append, length_taken_events]
      exact h.within_rest

/-- A start event in the record of sound sprouts starts a part of them, or
it is the parent of something that started before. -/
theorem hasTop_eventsList : ∀ (sprouts : List Sprout) (place : Nat)
    {kind : SyntaxKind} {distance : Option Nat} {field : Option String}, SoundList sprouts →
    (eventsList sprouts)[place]? = some (.start kind distance field) →
    ¬ IsParent (eventsList sprouts) place → HasTop sprouts (eventsList sprouts) place
  | [], _, _, _, _, _, hevent, _ => nomatch hevent
  | sprout :: rest, place, _, _, _, hsound, hevent, hparent => by
    have hlength := length_events none sprout
    by_cases hlt : place < sprout.size
    · rcases Nat.eq_zero_or_pos place with rfl | hpos
      · exact ⟨sprout, [], eventsList rest, rfl, @Contains.here sprout [] rest, rfl⟩
      rw [eventsList, List.getElem?_append_left (hlength ▸ hlt)] at hevent
      have hinner := hasTop_events sprout none place hsound.1 hpos hevent
        fun h => hparent (Nat.zero_add place ▸ h.among [] _)
      have hlift := @HasTop.lift _ _ (sprout :: rest) _ hinner [] (eventsList rest)
        fun _ _ h => h.among [] rest
      exact Nat.zero_add place ▸ hlift
    · obtain ⟨place, rfl⟩ := Nat.exists_eq_add_of_le (Nat.le_of_not_lt hlt)
      rw [eventsList, List.getElem?_append_right (hlength ▸ Nat.le_add_right _ _), hlength,
        Nat.add_sub_cancel_left] at hevent
      have hrecord : sprout.events none ++ (eventsList rest ++ [])
          = eventsList (sprout :: rest) := by
        rw [List.append_nil]
        rfl
      rw [← hlength] at hparent ⊢
      have hinner := hasTop_eventsList rest place hsound.2 hevent
        fun h => hparent (hrecord ▸ h.among (sprout.events none) [])
      rw [← hrecord]
      refine hinner.lift _ [] fun _ count h => ?_
      have hpart := h.among [sprout] []
      rw [sizeList, sizeList, Nat.add_zero, ← hlength, List.append_nil] at hpart
      rwa [tokensList, tokensList, List.append_nil, ← length_taken_events _ none] at hpart
end

/-! ### A node and those put around it -/

/-- The part is the sprout, or its first child that it was put around, or
the first child of that one, and so on. Their records begin alike. -/
inductive Heads (part : Sprout) : Sprout → Prop
  | self : Heads part part
  | first {first : Sprout} {kind : SyntaxKind} {field : Option String} {rest : List Sprout}
    (h : Heads part first) : Heads part (around first kind field rest)

namespace Heads

/-- The record of the part is at the beginning of the whole one. -/
theorem exists_events (h : part.Heads top) (parent : Option Nat) :
    ∃ parent' behind, top.events parent = part.events parent' ++ behind := by
  induction h generalizing parent with
  | self => exact ⟨parent, [], (List.append_nil _).symm⟩
  | @first first kind field rest _ ih =>
    obtain ⟨parent', behind, hevents⟩ := ih (some first.own)
    refine ⟨parent', behind ++ .start kind parent field :: (eventsList rest ++ [.finish]), ?_⟩
    rw [events, hevents, List.append_assoc]

/-- The part is all there is, or there is a node that was put around it. -/
theorem eq_or_exists_around (h : part.Heads top) :
    part = top ∨ ∃ kind field rest, (around part kind field rest).Heads top := by
  induction h with
  | self => exact .inl rfl
  | @first first kind field rest _ ih =>
    rcases ih with rfl | ⟨kind', field', rest', h⟩
    · exact .inr ⟨kind, field, rest, .self⟩
    · exact .inr ⟨kind', field', rest', .first h⟩

/-- Its place is that of the whole. -/
theorem contains (h : part.Heads top) (htop : top.Contains place count sprouts) :
    part.Contains place count sprouts := by
  induction h with
  | self => exact htop
  | first _ ih => exact ih htop.of_around

end Heads

/-- If a later record keeps the events of a node that was put around no
other one, a node of this kind and size starts there. -/
theorem exists_heads_node {children : List Sprout} {kind : SyntaxKind} {field : Option String}
    {parent : Option Nat} (real : kind.isNode = true) :
    ∀ (top : Sprout) (parent' : Option Nat) (behind : List Event),
      KeptIn ((node kind field children).events parent) (top.events parent' ++ behind) →
      ∃ field' children', (node kind field' children').Heads top ∧
        sizeList children' = sizeList children
  | token .., _, _, h => by
    cases h with
    | cons first _ => cases first
  | node kind' field' children', parent', behind, h => by
    obtain ⟨rfl, hsize⟩ := eq_of_keptIn_start real h
    exact ⟨field', children', .self, hsize⟩
  | around first kind' field' rest, parent', behind, h => by
    have hrecord : (around first kind' field' rest).events parent' ++ behind
        = first.events (some first.own)
          ++ (.start kind' parent' field' :: (eventsList rest ++ [.finish]) ++ behind) :=
      List.append_assoc ..
    obtain ⟨field', children', hheads, hsize⟩ := exists_heads_node real first _ _ (hrecord ▸ h)
    exact ⟨field', children', .first hheads, hsize⟩

/-- A node that has a parent in the record that is kept has one later. -/
theorem ne_of_keptIn {distance : Nat} {behind behind' : List Event} (hnode : sprout.isNode = true)
    (hpart : part.isNode = true) (hsize : part.size = sprout.size) (hown : part.own = sprout.own) :
    ¬ KeptIn (sprout.events (some distance) ++ behind) (part.events none ++ behind') := by
  intro h
  have hlength := length_before hnode
  have hlength' := length_before hpart
  rw [events_eq hnode, events_eq hpart, List.append_assoc, List.append_assoc] at h
  have hstart := h.right (by omega)
  cases hstart with
  | cons first _ =>
    cases first with
    | start _ same_parent =>
      rcases same_parent with hparent | ⟨hparent, -⟩
      · cases hparent
      · cases hparent

/-- If a later record keeps the events of a node, the same node starts
there. The induction is along the nodes that were put around one another:
the start event of each but the last names its parent, and so does the
event that is kept of it. -/
theorem exists_heads : ∀ (sprout : Sprout) (parent : Option Nat) {behind : List Event},
    sprout.isNode = true → sprout.Sound →
    KeptIn (sprout.events parent) (top.events none ++ behind) →
    ∃ part : Sprout, part.Heads top ∧ part.isNode = true ∧ part.kind = sprout.kind ∧
      part.size = sprout.size ∧ part.own = sprout.own
  | token .., _, _, hnode, _, _ => nomatch hnode
  | node kind field children, parent, behind, _, hsound, h => by
    obtain ⟨field', children', hheads, hsize⟩ := exists_heads_node hsound.1 top none behind h
    refine ⟨_, hheads, rfl, rfl, ?_, ?_⟩ <;> simp only [size, own, hsize]
  | around first kind field rest, parent, behind, _, hsound, h => by
    obtain ⟨hnode, hfirst, real, -⟩ := hsound
    obtain ⟨part, hheads, hpart, -, hsize, hown⟩ :=
      exists_heads first (some first.own) hnode hfirst h.left
    rcases hheads.eq_or_exists_around with rfl | ⟨kind', field', rest', hheads⟩
    · exact absurd h (ne_of_keptIn hnode hpart hsize hown)
    obtain ⟨parent', behind', hevents⟩ := hheads.exists_events none
    have hrecord : top.events none ++ behind = part.events (some part.own)
        ++ (.start kind' parent' field' :: (eventsList rest' ++ [.finish])
          ++ (behind' ++ behind)) := by
      rw [hevents, events, List.append_assoc, List.append_assoc]
    have hlength : (first.events (some first.own)).length
        = (part.events (some part.own)).length := by
      rw [length_events, length_events, hsize]
    obtain ⟨rfl, hrest⟩ := eq_of_keptIn_start real ((hrecord ▸ h).right hlength)
    refine ⟨_, hheads, rfl, rfl, ?_, ?_⟩ <;> simp only [size, own, hsize, hrest]

/-! ### The kept node in the tree -/

/-- The first event of a node is a start. -/
theorem exists_start : ∀ (sprout : Sprout) (parent : Option Nat), sprout.isNode = true →
    sprout.Sound →
    ∃ kind parent' field behind, sprout.events parent = .start kind parent' field :: behind
  | token .., _, hnode, _ => nomatch hnode
  | node kind field children, parent, _, _ => ⟨kind, parent, field, _, rfl⟩
  | around first _ _ _, _, _, hsound => by
    obtain ⟨kind, parent', field, behind, hevents⟩ :=
      exists_start first (some first.own) hsound.1 hsound.2.1
    exact ⟨kind, parent', field, _, by rw [events, hevents]; rfl⟩

/-- A node is kept with its tokens. -/
theorem length_tokens_of_keptIn {behind : List Event} (hheads : part.Heads top)
    (hsize : part.size = sprout.size)
    (h : KeptIn (sprout.events parent) (top.events none ++ behind)) :
    part.tokens.length = sprout.tokens.length := by
  obtain ⟨parent', behind', hevents⟩ := hheads.exists_events none
  have htaken := h.taken_take
  rw [hevents, List.append_assoc, length_events, ← hsize, ← length_events parent' part,
    List.take_left] at htaken
  rw [← length_taken_events part parent', htaken, length_taken_events]

section Kept

variable {front : List Event}

/-- Where a record ends with a node and the record of some sprouts keeps it,
one of them or of the parts below them starts, with nothing around it that
starts there too. -/
theorem exists_top_of_keptIn (h : KeptIn (front ++ sprout.events none) (eventsList sprouts))
    (hclosed : IsClosed front) (hnode : sprout.isNode = true) (hsound : sprout.Sound)
    (hsprouts : SoundList sprouts) :
    ∃ (top : Sprout) (behind : List Event),
      top.Contains front.length (taken front).length sprouts ∧
      KeptIn (sprout.events none) (top.events none ++ behind) := by
  obtain ⟨kind, parent, field, behind, hstart⟩ := exists_start sprout none hnode hsound
  have hparent := h.not_isParent hclosed (by rw [hstart]; exact List.cons_ne_nil _ _)
  have hfirst : (front ++ sprout.events none)[front.length]? = some (.start kind parent field) := by
    rw [hstart, List.getElem?_append_right (Nat.le_refl _), Nat.sub_self, List.getElem?_cons_zero]
  obtain ⟨event, hevent, hkept⟩ := h.exists_getElem? hfirst
  cases hkept with
  | start =>
    obtain ⟨top, front', behind', hlength, hcontains, hrecord⟩ :=
      hasTop_eventsList sprouts front.length hsprouts hevent hparent
    rw [hrecord] at h
    have htaken := h.left.taken_take
    rw [← hlength, List.take_left] at htaken
    exact ⟨top, behind', htaken ▸ hcontains, h.right hlength.symm⟩

/-- A node in a record is in the tree, if the record of the tree keeps it:
a part of its kind, behind as many tokens as before, and with as many
tokens. -/
theorem exists_contains_of_keptIn (h : KeptIn (front ++ sprout.events none) (eventsList sprouts))
    (hclosed : IsClosed front) (hnode : sprout.isNode = true) (hsound : sprout.Sound)
    (hsprouts : SoundList sprouts) :
    ∃ (part : Sprout) (place : Nat), part.Contains place (taken front).length sprouts ∧
      part.isNode = true ∧ part.kind = sprout.kind ∧ part.tokens.length = sprout.tokens.length := by
  obtain ⟨top, behind, hcontains, hkept⟩ :=
    exists_top_of_keptIn h hclosed hnode hsound hsprouts
  obtain ⟨part, hheads, hpart, heq, hsize, -⟩ := exists_heads sprout none hnode hsound hkept
  exact ⟨part, front.length, hheads.contains hcontains, hpart, heq,
    length_tokens_of_keptIn hheads hsize hkept⟩

end Kept

/-- A part that is not the node itself is below it. -/
theorem Contains.exists_below {outer : Sprout} (h : part.Contains place count [outer])
    (hne : part ≠ outer) : ∃ place', part.Contains place' count outer.children := by
  have hone : ∀ {before behind : List Sprout} {only : Sprout},
      [outer] = before ++ only :: behind → before = [] ∧ outer = only := by
    intro before behind only heq
    cases before with
    | nil => exact ⟨rfl, (List.cons.inj heq).1⟩
    | cons => exact absurd (List.cons.inj heq).2.symm (List.append_ne_nil_of_right_ne_nil _
        (List.cons_ne_nil _ _))
  generalize hsprouts : [outer] = sprouts at h
  cases h with
  | here => exact absurd (hone hsprouts).2.symm hne
  | @inside _ _ _ _ _ place' count' h =>
    obtain ⟨rfl, rfl⟩ := hone hsprouts
    exact ⟨place', (Nat.zero_add count').symm ▸ h⟩
  | @first _ _ rest _ _ _ _ _ h =>
    obtain ⟨rfl, rfl⟩ := hone hsprouts
    exact ⟨_, h.among [] rest⟩
  | @rest _ _ _ first _ _ place' count' h =>
    obtain ⟨rfl, rfl⟩ := hone hsprouts
    have hpart := h.among [first] []
    rw [tokensList, tokensList, List.append_nil, List.append_nil] at hpart
    exact ⟨_, (Nat.zero_add (first.tokens.length + count')).symm ▸ hpart⟩

end Sprout

end MarkupSyntax
