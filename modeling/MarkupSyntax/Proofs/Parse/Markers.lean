import MarkupSyntax.Proofs.Parse.Steps

/-!
# `MarkupSyntax.Proofs.Parse.Markers`: what markers do to the record

A marker that was started is an open node (`Started`, `Opened`), and
completing it makes a node of its children (`yields_complete`). A
finished node can be put into a field, and can have a parent started
around it (`yields_enclose`), which is an open node again whose first
child it is. A marker with nothing behind it can be given up
(`yields_abandon`), and the record is as before.

One form of these names the sprouts in the record before and after
(`yields_close`, `yields_move`, `yields_enclose`), the other speaks of the
roles of whatever sprouts there are (`yields_complete`, `yields_wrap`).
-/

set_option autoImplicit false

namespace MarkupSyntax

open Grammar
open Sprout hiding node token

variable {p q r : Parser}

/-- A marker was started, and nothing happened since. -/
structure Started (p : Parser) (marker : Marker) (q : Parser) : Prop extends Still p q where
  marks : Marks p q
  opened : OpenedWith p marker q none []
  child : marker.child = none
  offset : marker.offset = p.position

namespace Started

variable {marker : Marker}

/-- To start a marker goes on, along no token. -/
theorem moves (h : Started p marker q) : Moves p q := h.opened.toMoves

/-- The parse stays in front of a seam. -/
theorem live (h : Started p marker q) : q.Live := h.moves.live

/-- An open node has no children at first. -/
theorem openedAs (h : Started p marker q) : OpenedAs p marker q none [] 1 :=
  ⟨h.opened, fun _ => ⟨nofun, trivial, rfl⟩⟩

/-- The node that was started is empty. -/
theorem word (h : Started p marker q) : Opened p marker q 1 := ⟨none, [], h.openedAs⟩

/-- What is added goes into the node. -/
theorem adds {word : Language Role} (h : Started p marker q) (h' : Adds q r word) :
    Opened p marker r word := by
  have hadds := h.word.adds h'
  rwa [one_mul] at hadds

end Started

namespace Parse

/-- Starting a marker raises no fault. -/
theorem yields_start (hp : p.Live) : Yields start p fun marker q => Started p marker q := by
  have hstill : Still p { p with events := p.events.push .pending } := by
    refine .of_source rfl ?_ rfl
    rw [Array.toList_push, Event.taken_append]
    exact List.append_nil _
  refine Yields.get (Yields.set (.pure ⟨hstill, rfl, ⟨⟨hp, hstill.reaches, ?_, Nat.le_refl _, ?_,
    fun hplaced => ⟨hplaced.diagnostics, hplaced.memo⟩, rfl, rfl, .of_memo rfl rfl rfl⟩, ?_, ?_,
    rfl, nofun, nofun, trivial, orderlyList_nil⟩, rfl, rfl⟩))
  · exact ⟨[], (List.append_nil _).symm, fun _ hmem => nomatch hmem⟩
  · exact fun hlt => absurd hlt (Nat.lt_irrefl _)
  · rw [Array.toList_push, List.append_assoc]
    rfl
  · show p.events.size = _
    rw [← Array.length_toList]
    exact congrArg List.length (List.append_nil _).symm

section StartWith

variable {α : Type} {kind : TokenKind} {context : LexContext} {field : Option String}
  {f : Marker → Parse α} {post : α → Parser → Prop}

/-- A node is opened, and the current token becomes its first child. -/
theorem Yields.startWith_spells (hp : p.Live) (hkind : p.kind = kind) (notEnd : kind ≠ .eof)
    (hf : ∀ marker q r, Started p marker q →
      Spells q r [.leaf field (.token kind)] (token field kind) → Takes p r →
      r.context = context → Yields (f marker) r post) :
    Yields (start >>= fun marker => bump context field >>= fun _ => f marker) p post := by
  refine (yields_start hp).bind ?_
  intro marker q hstarted
  have hkind' : q.kind = kind := hstarted.kind.trans hkind
  refine (yields_bump_spells hstarted.live hkind' notEnd context field).bind ?_
  intro _ r hpost
  obtain ⟨hspells, htakes, hcontext⟩ := hpost
  exact hf marker q r hstarted hspells (hstarted.takes htakes) hcontext

/-- A node that starts with a token: it is started, and the token is in it. -/
theorem Yields.startWith (hp : p.Live) (hkind : p.kind = kind) (notEnd : kind ≠ .eof)
    (hf : ∀ marker q r, Started p marker q → Adds q r (token field kind) → Takes p r →
      r.context = context → Yields (f marker) r post) :
    Yields (start >>= fun marker => bump context field >>= fun _ => f marker) p post :=
  .startWith_spells hp hkind notEnd fun marker q r hstarted hspells =>
    hf marker q r hstarted hspells.adds

end StartWith

end Parse

/-- A start event in place of another one, with the same tokens around
it. -/
theorem Event.taken_start {front behind : List Event} {kind kind' : SyntaxKind}
    {parent parent' : Option Nat} {field field' : Option String} :
    taken (front ++ .start kind parent field :: behind)
      = taken (front ++ .start kind' parent' field' :: behind) := by
  rw [taken_append, taken_append]
  rfl

/-! ### Open nodes -/

namespace OpenedWith

variable {marker : Marker} {first : Option Sprout} {rest : List Sprout}

/-- The start event of the open node. -/
theorem getElem? (h : OpenedWith p marker q first rest) :
    q.events[marker.index]? = some .pending := by
  rw [← Array.getElem?_toList, h.events, h.index, List.getElem?_append_right (Nat.le_refl _),
    Nat.sub_self]
  rfl

/-- The record with another start event. -/
theorem toList_set (h : OpenedWith p marker q first rest) (event : Event) :
    (q.events.setIfInBounds marker.index event).toList
      = p.events.toList ++ opening first ++ event :: eventsList rest := by
  rw [Array.toList_setIfInBounds, h.events, h.index, List.set_append_right _ _ (Nat.le_refl _),
    Nat.sub_self]
  rfl

/-- The record with the node closed. -/
theorem toList_close (h : OpenedWith p marker q first rest) (kind : SyntaxKind) :
    ((q.events.setIfInBounds marker.index (.start kind none none)).push .finish).toList
      = p.events.toList ++ eventsList [close first kind rest] := by
  rw [Array.toList_push, h.toList_set, eventsList, eventsList, List.append_nil, List.append_assoc,
    List.append_assoc]
  congr 1
  cases first <;> rfl

/-- The handle that completing the node gives points at it. -/
theorem pointsAt (h : OpenedWith p marker q first rest) (kind : SyntaxKind) :
    Completed.PointsAt
      ⟨marker.index, (q.events.setIfInBounds marker.index (.start kind none none)).size,
        marker.offset, marker.firstEvent⟩ p.events.toList.length (close first kind rest) := by
  have hclose := congrArg List.length (h.toList_close kind)
  rw [Array.length_toList, Array.size_push, List.length_append, length_eventsList] at hclose
  refine ⟨by cases first <;> rfl, ?_, hclose, h.firstEvent⟩
  rw [h.index, List.length_append]
  cases first with
  | none => rfl
  | some first =>
    rw [opening, length_events]
    exact Nat.add_assoc _ _ _

end OpenedWith

namespace Marker

open Parse

variable {marker : Marker} {word : Language Role}

/-- Completing an open node closes its sprout. -/
theorem yields_close {kind : SyntaxKind} {first : Option Sprout} {rest : List Sprout}
    (h : OpenedWith p marker q first rest) (real : kind.isNode = true)
    (hfits : (close first kind rest).outline.Fits) :
    Yields (marker.complete kind) q fun node r =>
      Grows p r [close first kind rest] ∧
        node.PointsAt p.events.toList.length (close first kind rest) ∧
        Still q r ∧ Marks q r ∧ node.offset = marker.offset := by
  have hstill : Still q
      { q with
        events := (q.events.setIfInBounds marker.index (.start kind none none)).push .finish } := by
    refine .of_source rfl ?_ rfl
    rw [Array.toList_push, h.toList_set, Event.taken_append, h.events]
    exact (List.append_nil _).trans Event.taken_start
  have hsound : (close first kind rest).Sound := by
    cases first with
    | none => exact ⟨real, h.sound⟩
    | some first => exact ⟨(h.firstSound first rfl).1, (h.firstSound first rfl).2, real, h.sound⟩
  have horderly : (close first kind rest).Orderly := by
    cases first with
    | none => exact orderly_of_parts rfl hfits h.orderly
    | some first =>
      have hparts := orderlyList_cons.mpr ⟨h.firstOrderly first rfl, h.orderly⟩
      exact orderly_of_parts rfl hfits hparts
  unfold complete
  exact .changeStart h.getElem? (.get (.modify (.pure ⟨⟨h.marks hstill rfl, h.toList_close kind,
    ⟨hsound, trivial⟩, orderlyList_cons.mpr ⟨horderly, orderlyList_nil⟩⟩, h.pointsAt kind, hstill,
    rfl, rfl⟩)))

/-- Completing an open node makes a node of the outline that it has. -/
theorem yields_form {kind : SyntaxKind} {first : Option Sprout} {rest : List Sprout}
    (h : OpenedAs p marker q first rest word) (real : kind.isNode = true)
    (hword : word ≤ production kind) (hfits : (close first kind rest).outline.Fits) :
    Yields (marker.complete kind) q fun node r =>
      Forms p r node {(close first kind rest).outline} ∧ Still q r ∧
        node.offset = marker.offset := by
  obtain ⟨h, hclean⟩ := h
  refine (yields_close h real hfits).mono ?_
  intro node r hpost
  obtain ⟨hgrows, hpoints, hstill, hmarks, hoffset⟩ := hpost
  refine ⟨⟨_, hgrows, hpoints, ?_, rfl, fun hr => ?_⟩, hstill, hoffset⟩
  · cases first <;> rfl
  · obtain ⟨hfirst, hobeys, hmem⟩ := hclean (hmarks.calm.errorCount ▸ hr)
    cases first with
    | none => exact ⟨hword hmem, hobeys⟩
    | some first => exact ⟨hword hmem, hfirst first rfl, hobeys⟩

/-- The node that an open one becomes is of the kind that it is completed
with. -/
theorem yields_build {kind : SyntaxKind} {first : Option Sprout} {rest : List Sprout}
    (h : OpenedAs p marker q first rest word) (real : kind.isNode = true)
    (hword : word ≤ production kind) (hfits : (close first kind rest).outline.Fits) :
    Yields (marker.complete kind) q fun node r =>
      Builds p r node none {kind} ∧ Still q r ∧ node.offset = marker.offset := by
  refine (yields_form h real hword hfits).mono ?_
  intro node r hpost
  obtain ⟨hforms, hstill, hoffset⟩ := hpost
  refine ⟨hforms.builds fun outline hmem => ?_, hstill, hoffset⟩
  rw [Set.mem_singleton_iff.mp hmem, kind_outline]
  cases first <;> rfl

/-- Completing an open node builds one of the children it has. -/
theorem yields_complete_builds {kind : SyntaxKind} (h : Opened p marker q word)
    (loose : kind.isLooseNode = true) (hword : word ≤ production kind) :
    Yields (marker.complete kind) q fun node r =>
      Builds p r node none {kind} ∧ Still q r ∧ node.offset = marker.offset := by
  obtain ⟨first, rest, h⟩ := h
  obtain ⟨real, loose⟩ := Bool.and_eq_true_iff.mp loose
  refine yields_build h real hword (Outline.fits_of_isLoose ?_)
  rw [kind_outline]
  cases first <;> exact loose

/-- A node whose parts spell a word of its production can be completed, and is
made. -/
theorem yields_complete {kind : SyntaxKind} (h : Opened p marker q word)
    (loose : kind.isLooseNode = true) (hword : word ≤ production kind) :
    Yields (marker.complete kind) q fun node r =>
      Makes p r node none {kind} ∧ Still q r ∧ node.offset = marker.offset :=
  (yields_complete_builds h loose hword).mono fun _ _ hpost => ⟨hpost.1.makes, hpost.2⟩

/-- Completing a node whose children fill what its kind asks for. -/
theorem yields_spelled {kind : SyntaxKind} {slots : List Slot} (hstarted : Started p marker q)
    (h : Spells q r slots word) (real : kind.isNode = true) (hword : word ≤ production kind)
    (hfits : ∀ parts, Fills slots parts → (Outline.node none kind parts).Fits) :
    Yields (marker.complete kind) r fun node s =>
      Builds p s node none {kind} ∧ Still r s ∧ node.offset = marker.offset := by
  obtain ⟨sprouts, hgrows, hfills, hclean⟩ := h
  have hopened := hstarted.openedAs.grows hgrows hclean
  rw [one_mul, List.nil_append] at hopened
  exact yields_build hopened real hword (hfits _ hfills)

/-- Completing a node that a token was consumed for. -/
theorem yields_finish {kind : SyntaxKind} {kinds : Set SyntaxKind} (hstarted : Started p marker q)
    (h : Adds q r word) (htakes : Takes p r) (loose : kind.isLooseNode = true)
    (hword : word ≤ production kind) (hkind : kind ∈ kinds) :
    Yields (marker.complete kind) r fun node s => Makes p s node none kinds ∧ Takes p s := by
  refine (yields_complete (hstarted.adds h) loose hword).mono ?_
  intro node s hpost
  obtain ⟨hmakes, hs, -⟩ := hpost
  exact ⟨hmakes.mono (Set.singleton_subset_iff.mpr hkind), htakes.trans hs.reaches⟩

/-- A marker with nothing behind it can be given up. -/
theorem yields_abandon (h : Started p marker q) (h' : Grows q r []) :
    Yields marker.abandon r fun _ s => Grows p s [] ∧ Still r s := by
  have hevents : r.events.toList = p.events.toList ++ [.pending] := by
    rw [h'.events, h.opened.events]
    simp [opening, eventsList]
  have hindex : marker.index + 1 = r.events.size := by
    rw [← Array.length_toList, hevents, h.opened.index]
    simp [opening]
  have hback : r.events.back? = some .pending := by
    rw [← Array.getLast?_toList, hevents, List.getLast?_concat]
  have hpop : r.events.pop.toList = p.events.toList := by
    rw [Array.toList_pop, hevents, List.dropLast_concat]
  have hstill : Still r { r with events := r.events.pop } := by
    refine .of_source rfl ?_ rfl
    rw [hpop, hevents, Event.taken_append]
    exact (List.append_nil _).symm
  have hmoves := h.moves.trans h'.toMoves
  unfold abandon
  refine .get ?_
  rw [if_pos hindex, hback, h.child]
  exact ⟨⟨hmoves.marks hstill rfl, hpop.trans (List.append_nil _).symm, trivial, orderlyList_nil⟩,
    hstill⟩

end Marker

/-! ### Finished nodes -/

namespace Completed

open Parse

variable {node : Completed} {field : Option String} {kinds : Set SyntaxKind}

/-- The kind of a finished node is that of its sprout. -/
theorem yields_kind {sprout : Sprout} (h : Grows p q [sprout])
    (hpoints : node.PointsAt p.events.toList.length sprout) :
    Yields node.kind q fun kind r => q = r ∧ sprout.kind = kind := by
  have hevents := h.events
  have hevent : q.events[node.index]? = some (.start sprout.kind none sprout.field) := by
    rw [← Array.getElem?_toList, hevents, eventsList, eventsList, List.append_nil]
    exact hpoints.getElem? none
  exact .eventAt hevent (.pure ⟨rfl, rfl⟩)

/-- Another field of a finished node is one of its sprout. -/
theorem yields_move {sprout : Sprout} (h : Grows p q [sprout])
    (hpoints : node.PointsAt p.events.toList.length sprout) (field' : Option String) :
    Yields (node.setField field') q fun node' r =>
      node' = node ∧ Grows p r [sprout.withField field'] ∧
        node.PointsAt p.events.toList.length (sprout.withField field') ∧ Still q r ∧ Marks q r := by
  have hevents : q.events.toList = p.events.toList ++ sprout.events none := by
    rw [h.events, eventsList, eventsList, List.append_nil]
  have hevent : q.events[node.index]? = some (.start sprout.kind none sprout.field) := by
    rw [← Array.getElem?_toList, hevents]
    exact hpoints.getElem? none
  have hset : (q.events.setIfInBounds node.index (.start sprout.kind none field')).toList
      = p.events.toList ++ (sprout.withField field').events none := by
    rw [Array.toList_setIfInBounds, hevents, hpoints.set, events_withField hpoints.isNode]
  have hstill : Still q
      { q with
        events := q.events.setIfInBounds node.index (.start sprout.kind none field') } := by
    refine .of_source rfl ?_ rfl
    rw [hset, hevents, events_withField hpoints.isNode, events_eq hpoints.isNode,
      ← List.append_assoc, ← List.append_assoc]
    exact Event.taken_start
  have horderly := (orderlyList_cons.mp h.orderly).1.withField field'
  unfold setField
  refine .changeStart hevent (.pure ⟨rfl, ⟨h.marks hstill rfl, ?_,
    ⟨h.sound.1.withField field', trivial⟩, orderlyList_cons.mpr ⟨horderly, orderlyList_nil⟩⟩,
    hpoints.withField field', hstill, rfl⟩)
  rw [hset, eventsList, eventsList, List.append_nil]

/-- A finished node goes into another field. -/
theorem yields_setField (h : Makes p q node field kinds) (field' : Option String) :
    Yields (node.setField field') q fun node' r =>
      node' = node ∧ Makes p r node field' kinds ∧ Still q r := by
  obtain ⟨sprout, h, hpoints, -, hkind, hclean⟩ := h
  refine (yields_move h hpoints field').mono ?_
  intro node' r hpost
  obtain ⟨hnode, hgrows, hpoints, hstill, hmarks⟩ := hpost
  rw [← kind_withField sprout field'] at hkind hclean
  refine ⟨hnode, ⟨_, hgrows, hpoints, field_withField .., hkind, fun hr => ?_⟩, hstill⟩
  have hclean := hclean (hmarks.calm.errorCount ▸ hr)
  exact ⟨hclean.1.withField field', hclean.2⟩

/-- A field moves a node that was built. -/
theorem yields_setField_builds (h : Builds p q node field kinds) (field' : Option String) :
    Yields (node.setField field') q fun node' r =>
      node' = node ∧ Builds p r node field' kinds ∧ Still q r := by
  obtain ⟨sprout, h, hpoints, -, hkind, hclean⟩ := h
  refine (yields_move h hpoints field').mono ?_
  intro node' r hpost
  obtain ⟨hnode, hgrows, hpoints, hstill, hmarks⟩ := hpost
  rw [← kind_withField sprout field'] at hkind
  exact ⟨hnode, ⟨_, hgrows, hpoints, field_withField .., hkind,
    fun hr => (hclean (hmarks.calm.errorCount ▸ hr)).withField field'⟩, hstill⟩

/-- The same with a field that is given. -/
theorem yields_into (h : Makes p q node field kinds) (field' : String) :
    Yields (node.into field') q fun _ r => Makes p r node (some field') kinds ∧ Still q r := by
  unfold into
  refine (yields_setField h (some field')).bind ?_
  intro _ r hpost
  obtain ⟨-, hmakes, hstill⟩ := hpost
  exact .pure ⟨hmakes, hstill⟩

/-- A node opened around a finished one has its sprout as the first. -/
theorem yields_enclose {sprout : Sprout} (h : Grows p q [sprout])
    (hpoints : node.PointsAt p.events.toList.length sprout) :
    Yields node.precede q fun marker r =>
      OpenedWith p marker r (some sprout) [] ∧ Still q r ∧ Marks q r := by
  have hevents : q.events.toList = p.events.toList ++ sprout.events none := by
    rw [h.events, eventsList, eventsList, List.append_nil]
  have hsize : q.events.size = p.events.toList.length + sprout.size := by
    rw [← Array.length_toList, hevents, List.length_append, length_events]
  have hindex := hpoints.index
  have hown : 0 < sprout.own := by cases sprout <;> exact Nat.succ_pos _
  have hdistance : q.events.size - node.index = sprout.own := by omega
  have hevent : (q.events.push .pending)[node.index]?
      = some (.start sprout.kind none sprout.field) := by
    rw [← Array.getElem?_toList, Array.toList_push, hevents, List.getElem?_append_left]
    · exact hpoints.getElem? none
    · rw [List.length_append, length_events]
      omega
  have hset : ((q.events.push .pending).setIfInBounds node.index
      (.start sprout.kind (some sprout.own) sprout.field)).toList
      = p.events.toList ++ opening (some sprout) ++ .pending :: eventsList [] := by
    rw [Array.toList_setIfInBounds, Array.toList_push, List.set_append_left, hevents, hpoints.set,
      ← events_eq hpoints.isNode]
    · rfl
    · rw [hevents, List.length_append, length_events]
      omega
  have hstill : Still q
      { q with
        events := (q.events.push .pending).setIfInBounds node.index
          (.start sprout.kind (some sprout.own) sprout.field) } := by
    refine .of_source rfl ?_ rfl
    rw [hset, hevents, Event.taken_append, opening, events_eq hpoints.isNode,
      events_eq hpoints.isNode, ← List.append_assoc, ← List.append_assoc]
    exact (List.append_nil _).trans Event.taken_start
  have hstart : Yields start q fun marker r =>
      marker = { index := q.events.size, offset := q.position, firstEvent := q.events.size } ∧
        r = { q with events := q.events.push .pending } := ⟨rfl, rfl⟩
  unfold precede
  refine hstart.bind ?_
  intro _ _ hpost
  obtain ⟨rfl, rfl⟩ := hpost
  refine .eventAt hevent ?_
  dsimp only
  rw [if_neg (by omega), hdistance]
  refine .modify (.pure ⟨⟨h.marks hstill rfl, hset, ?_, ?_, ?_, ?_, trivial, orderlyList_nil⟩,
    hstill, rfl⟩)
  · show q.events.size = _
    rw [opening, List.length_append, length_events, hsize]
  · show min q.events.size node.firstEvent = _
    rw [hpoints.firstEvent]
    omega
  · intro first hfirst
    rw [← Option.some.inj hfirst]
    exact ⟨hpoints.isNode, h.sound.1⟩
  · intro first hfirst
    rw [← Option.some.inj hfirst]
    exact (orderlyList_cons.mp h.orderly).1

/-- A finished node becomes the first child of a node around it, and
keeps its outline but for the field. -/
theorem yields_wrap {α : Type} {f : Marker → Parse α} {post : α → Parser → Prop}
    {outlines : Set Outline} (h : Forms p q node outlines) (field' : String)
    (hf : ∀ marker r first outline, OpenedAs p marker r (some first) []
        (Grammar.into field') →
      outline ∈ outlines → first.outline = outline.withField (some field') → Still q r →
      Yields (f marker) r post) :
    Yields (node.into field' >>= fun _ => node.precede >>= f) q post := by
  obtain ⟨sprout, h, hpoints, -, hmem, hclean⟩ := h
  unfold into
  rw [bind_assoc]
  refine (yields_move h hpoints (some field')).bind ?_
  intro _ r hpost
  obtain ⟨-, hgrows, hpoints, hr, hmarks⟩ := hpost
  refine (yields_enclose hgrows hpoints).bind ?_
  intro marker s hpost
  obtain ⟨hopened, hs, hmarks'⟩ := hpost
  refine hf marker s _ _ ⟨hopened, fun hq => ?_⟩ hmem (outline_withField ..) (hr.trans hs)
  have hobeys := hclean ((hmarks.calm.trans hmarks'.calm).errorCount ▸ hq)
  refine ⟨fun first hfirst => ?_, trivial, sprout.kind, Set.mem_univ _, ?_⟩
  · rw [← Option.some.inj hfirst]
    exact hobeys.withField _
  · rw [List.map_nil, List.append_nil]
    exact congrArg (fun role => [role]) (Prod.ext (field_withField ..) (kind_withField ..))

/-- The range of the last node of a record goes from the offset of the node
to the end of the last token, if a token was consumed for it. -/
theorem yields_range {sprout : Sprout} {fresh : List (Option TokenKind × Nat)}
    (hevents : q.events.toList = p.events.toList ++ sprout.events none)
    (hpoints : node.PointsAt p.events.toList.length sprout)
    (htaken : Event.taken q.events.toList = Event.taken p.events.toList ++ fresh)
    (hlast : fresh.getLast?.map (·.2) = some q.done) (hoffset : node.offset ≤ q.done) :
    Yields node.range q fun range r => r = q ∧ range = ⟨node.offset, q.done, hoffset⟩ := by
  -- A node ends with its finish, so its tokens are in front of that.
  have hbehind : ∃ inner, sprout.events none = inner ++ [.finish] := by
    rw [events_eq hpoints.isNode]
    cases sprout with
    | token => cases hpoints.isNode
    | node => exact ⟨_, (List.append_assoc _ (_ :: _) _).symm⟩
    | around => exact ⟨_, (List.append_assoc _ (_ :: _) _).symm⟩
  obtain ⟨inner, hinner⟩ := hbehind
  have hlen := length_events none sprout
  rw [hinner, List.length_append, List.length_singleton] at hlen
  have hfinish := hpoints.finish
  have hextract : (q.events.extract node.firstEvent node.finish).toList = inner := by
    rw [Array.toList_extract, List.extract_eq_take_drop, hevents, hinner, hpoints.firstEvent,
      List.drop_left, List.take_left' (by omega)]
  have hfresh : Event.taken inner = fresh := by
    rw [hevents, hinner, Event.taken_append, Event.taken_append] at htaken
    exact (List.append_nil _).symm.trans (List.append_cancel_left htaken)
  -- The range ends with the last token in it, as the search from behind finds it.
  have hstop : ∀ stop? : Event → Option Nat,
      (∀ event, stop? event = (Event.taken [event]).head?.map (·.2)) →
        inner.reverse.findSome? stop? = some q.done := by
    intro stop? hstop?
    rw [← List.getLast?_filterMap, ← hlast, ← hfresh, Event.taken, ← List.getLast?_map,
      List.map_filterMap]
    congr 1
    refine List.filterMap_congr fun event _ => ?_
    rw [hstop?]
    cases event <;> rfl
  unfold range
  refine .get ?_
  dsimp only
  rw [hextract, hstop _ (by rintro (_ | _ | _) <;> rfl), Option.getD_some, TextRange.ofBounds?,
    dif_pos hoffset]
  exact ⟨rfl, rfl⟩

/-- The text of a node is that of its range. -/
theorem yields_text_of_range {range : TextRange}
    (h : Yields node.range q fun range' r => r = q ∧ range' = range) :
    Yields node.text q fun text r => r = q ∧ text = q.text.sliceRange range := by
  unfold text
  refine h.bind ?_
  rintro _ _ ⟨rfl, rfl⟩
  exact .get ⟨rfl, rfl⟩

/-- The text of a finished node can be read. -/
theorem yields_text (h : Makes p q node field kinds) (htakes : Takes p q)
    (hoffset : node.offset ≤ q.done) :
    Yields node.text q fun text r => r = q ∧ text = q.text.slice node.offset q.done := by
  obtain ⟨sprout, h, hpoints, -⟩ := h
  obtain ⟨fresh, htaken, hlast⟩ := htakes.taken h.start
  have hevents : q.events.toList = p.events.toList ++ (sprout.events none) := by
    rw [h.events, eventsList, eventsList, List.append_nil]
  exact yields_text_of_range (yields_range hevents hpoints htaken hlast hoffset)

end Completed

namespace Parse

/-- Completing an open node into a field. -/
theorem yields_completeInto_builds {marker : Marker} {word : Language Role} {kind : SyntaxKind}
    (h : Opened p marker q word) (loose : kind.isLooseNode = true) (hword : word ≤ production kind)
    (field : Option String) :
    Yields (marker.complete kind >>= fun node => node.setField field) q fun node r =>
      Builds p r node field {kind} ∧ Still q r ∧ node.offset = marker.offset := by
  refine (Marker.yields_complete_builds h loose hword).bind ?_
  intro node r hpost
  obtain ⟨hbuilds, hr, hoffset⟩ := hpost
  refine (Completed.yields_setField_builds hbuilds field).mono ?_
  intro _ s hpost
  obtain ⟨rfl, hbuilds, hs⟩ := hpost
  exact ⟨hbuilds, hr.trans hs, hoffset⟩

/-- A node that is completed and goes into a field. -/
theorem yields_completeInto {marker : Marker} {word : Language Role} {kind : SyntaxKind}
    (h : Opened p marker q word) (loose : kind.isLooseNode = true) (hword : word ≤ production kind)
    (field : Option String) :
    Yields (marker.complete kind >>= fun node => node.setField field) q fun node r =>
      Makes p r node field {kind} ∧ Still q r ∧ node.offset = marker.offset :=
  (yields_completeInto_builds h loose hword field).mono fun _ _ hpost => ⟨hpost.1.makes, hpost.2⟩

/-- The same with something to do afterwards. -/
theorem Yields.completeInto {marker : Marker} {word : Language Role} {kind : SyntaxKind}
    {field : Option String} {α : Type} {f : Completed → Parse α} {post : α → Parser → Prop}
    (h : Opened p marker q word) (loose : kind.isLooseNode = true) (hword : word ≤ production kind)
    (hf : ∀ node r, Makes p r node field {kind} → Still q r → node.offset = marker.offset →
      Yields (f node) r post) :
    Yields (marker.complete kind >>= fun node => node.setField field >>= f) q post := by
  rw [← bind_assoc]
  refine (yields_completeInto h loose hword field).bind ?_
  intro node r hpost
  obtain ⟨hmakes, hr, hoffset⟩ := hpost
  exact hf node r hmakes hr hoffset

variable {code : Code}

/-- A missing part is an error, with an empty node to show for it. -/
theorem yields_missingNode (hp : p.Live) (field : Option String)
    (hcode : code.isOfGrammar = true) :
    Yields (missing field code) p fun node q =>
      Grows p q [.node .error field []] ∧
        node.PointsAt p.events.toList.length (.node .error field []) ∧
        q.errorCount ≠ 0 ∧ Still p q := by
  unfold missing
  refine (yields_reportHere hp hcode).bind ?_
  intro _ q hpost
  obtain ⟨hreport, hfail, hq⟩ := hpost
  refine (yields_start hreport.live).bind ?_
  intro marker r hstarted
  refine (Marker.yields_close hstarted.opened (by decide)
    (Outline.fits_of_isLoose rfl)).bind ?_
  intro node s hpost
  obtain ⟨hgrows, hpoints, hs, hmarks, -⟩ := hpost
  refine (Completed.yields_move hgrows hpoints field).mono ?_
  intro _ t hpost
  obtain ⟨rfl, hgrows, hpoints, ht, hmarks'⟩ := hpost
  have hevents : q.events.toList = p.events.toList := hreport.events.trans (List.append_nil _)
  rw [hevents] at hpoints
  refine ⟨hreport.trans hgrows, hpoints, ?_, (hq.trans hstarted.toStill).trans (hs.trans ht)⟩
  rw [hmarks'.calm.errorCount, hmarks.calm.errorCount, hstarted.marks.calm.errorCount]
  exact hfail

/-- So whatever should have been there is nothing to show. -/
theorem yields_missing (hp : p.Live) (field : Option String)
    (hcode : code.isOfGrammar = true) (kinds : Set SyntaxKind) :
    Yields (missing field code) p fun node q =>
      Makes p q node field kinds ∧ q.errorCount ≠ 0 ∧ Still p q := by
  refine (yields_missingNode hp field hcode).mono ?_
  intro node q hpost
  obtain ⟨hgrows, hpoints, hfail, hq⟩ := hpost
  exact ⟨⟨_, hgrows, hpoints, rfl, .inr rfl, fun h => absurd h hfail⟩, hfail, hq⟩

end Parse

end MarkupSyntax
