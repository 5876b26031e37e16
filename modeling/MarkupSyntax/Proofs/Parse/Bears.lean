import MarkupSyntax.Proofs.Parse.Leaves
import MarkupSyntax.Proofs.Parse.Markers
import MarkupSyntax.Proofs.Tree.Admits

/-!
# `MarkupSyntax.Proofs.Parse.Bears`: which nodes a step may record

Here a step of a parse is described by the parts that it adds to the
record, with errors or without:

* `Adopts p q roles extra`: the parts added have one of these roles.
* `Bears p q node field kinds extra`: one node was added, the one of a
  handle, in this field and of one of these kinds.
* `Open p marker q roles extra`: a node was started, and the parts that it
  has so far have one of these roles.

Besides, all of them are in order (`Outline.Housed`), and have no more
levels than the parse could still be nested deeper (`Parser.allowance`),
with `extra` levels on top. Where a level is entered for what is inside,
there is one less.

`Parse.Within roles extra m`, `Parse.Produces field kinds extra m` and
`Parse.Offers field kinds extra m` say so of all runs of a step `m`.
-/

set_option autoImplicit false

namespace MarkupSyntax

open Sprout hiding node token

/-- How many levels deeper the parse may be nested. -/
def Parser.allowance (p : Parser) : Nat := (p.options.maxNestingDepth - p.depth).toNat

/-- The states are nested equally deep. -/
structure Level (p q : Parser) : Prop where
  depth : q.depth = p.depth
  options : q.options = p.options

/-- The part has one of these roles, and is in order. -/
structure Sprout.Fosters (roles : Set Role) (limit : Nat) (sprout : Sprout) : Prop where
  role : sprout.role ∈ roles
  housed : sprout.outline.Housed limit

/-- The record grows by parts of these roles. -/
structure Adopts (p q : Parser) (roles : Set Role) (extra : Nat) : Prop extends Level p q where
  grown : ∃ sprouts, q.events.toList = p.events.toList ++ eventsList sprouts ∧ SoundList sprouts ∧
    ∀ sprout ∈ sprouts, sprout.Fosters roles (p.allowance + extra)

/-- The roles of parts of these kinds in a field. -/
def rolesIn (field : Option String) (kinds : Set SyntaxKind) : Set Role :=
  {role | role.1 = field ∧ role.2 ∈ kinds}

/-- The record grows by one node, the one of a handle. -/
structure Bears (p q : Parser) (node : Completed) (field : Option String) (kinds : Set SyntaxKind)
    (extra : Nat) : Prop extends Level p q where
  grown : ∃ sprout, q.events.toList = p.events.toList ++ sprout.events none ∧ sprout.Sound ∧
    node.PointsAt p.events.toList.length sprout ∧
    sprout.Fosters (rolesIn field kinds) (p.allowance + extra)

/-- A node was started, perhaps around a first part, and has parts of
these roles so far. -/
structure Open (p : Parser) (marker : Marker) (q : Parser) (roles : Set Role) (extra : Nat) : Prop
    extends Level p q where
  grown : ∃ first rest,
    q.events.toList = p.events.toList ++ opening first ++ Event.pending :: eventsList rest ∧
    marker.index = (p.events.toList ++ opening first).length ∧
    marker.firstEvent = p.events.toList.length ∧
    (∀ sprout ∈ first, sprout.isNode = true ∧ sprout.Sound) ∧ SoundList rest ∧
    ∀ sprout ∈ first.toList ++ rest, sprout.Fosters roles (p.allowance + extra)

variable {p q r : Parser} {roles roles' : Set Role} {kinds kinds' : Set SyntaxKind}
  {extra extra' limit limit' : Nat} {node : Completed} {field : Option String} {marker : Marker}

namespace Level

/-- Levels are kept step by step. -/
theorem trans (h : Level p q) (h' : Level q r) : Level p r :=
  ⟨h'.depth.trans h.depth, h'.options.trans h.options⟩

/-- As many levels may be entered as before. -/
theorem allowance (h : Level p q) : q.allowance = p.allowance := by
  unfold Parser.allowance
  rw [h.depth, h.options]

end Level

/-- A step that leaves the record alone leaves the level alone. -/
theorem Rests.level (h : Rests p q) : Level p q := ⟨h.depth, h.options⟩

/-- More roles and more levels may be allowed. -/
theorem Sprout.Fosters.mono {sprout : Sprout} (h : sprout.Fosters roles limit)
    (hroles : roles ⊆ roles') (hle : limit ≤ limit') : sprout.Fosters roles' limit' :=
  ⟨hroles h.role, h.housed.mono hle⟩

/-- More kinds in a field are more roles. -/
theorem rolesIn_mono (h : kinds ⊆ kinds') : rolesIn field kinds ⊆ rolesIn field kinds' :=
  fun _ hrole => ⟨hrole.1, h hrole.2⟩

namespace Adopts

/-- A step that leaves the record alone adds no sprout. -/
theorem of_rests (h : Rests p q) (roles : Set Role) (extra : Nat) : Adopts p q roles extra :=
  ⟨h.level, [], by rw [h.events]; exact (List.append_nil _).symm, trivial, nofun⟩

/-- Doing nothing adds nothing. -/
theorem refl (p : Parser) (roles : Set Role) (extra : Nat) : Adopts p p roles extra :=
  .of_rests (.refl p) roles extra

/-- More roles and more levels may be allowed. -/
theorem mono (h : Adopts p q roles extra) (hroles : roles ⊆ roles') (hle : extra ≤ extra') :
    Adopts p q roles' extra' := by
  obtain ⟨hlevel, sprouts, hevents, hsound, hall⟩ := h
  exact ⟨hlevel, sprouts, hevents, hsound,
    fun sprout hmem => (hall sprout hmem).mono hroles (Nat.add_le_add_left hle _)⟩

/-- What two steps add is admitted if what each of them adds is. -/
theorem trans (h : Adopts p q roles extra) (h' : Adopts q r roles extra) :
    Adopts p r roles extra := by
  obtain ⟨hlevel, sprouts, hevents, hsound, hall⟩ := h
  obtain ⟨hlevel', sprouts', hevents', hsound', hall'⟩ := h'
  rw [hlevel.allowance] at hall'
  refine ⟨hlevel.trans hlevel', sprouts ++ sprouts', ?_, soundList_append hsound hsound',
    fun sprout hmem => ?_⟩
  · rw [hevents', hevents, eventsList_append, List.append_assoc]
  · exact (List.mem_append.mp hmem).elim (hall sprout) (hall' sprout)

/-- What was added can be cut off again. -/
theorem take_events (h : Adopts p q roles extra) : q.events.take p.events.size = p.events := by
  obtain ⟨sprouts, hevents, -⟩ := h.grown
  exact Trace.take_size ⟨_, hevents.symm⟩

end Adopts

namespace Bears

/-- More kinds and more levels may be allowed. -/
theorem mono (h : Bears p q node field kinds extra) (hkinds : kinds ⊆ kinds')
    (hle : extra ≤ extra') : Bears p q node field kinds' extra' := by
  obtain ⟨hlevel, sprout, hevents, hsound, hpoints, hfosters⟩ := h
  exact ⟨hlevel, sprout, hevents, hsound, hpoints,
    hfosters.mono (rolesIn_mono hkinds) (Nat.add_le_add_left hle _)⟩

/-- Nothing is added before the node. -/
theorem after (h' : Bears q r node field kinds extra) (h : Rests p q) :
    Bears p r node field kinds extra := by
  obtain ⟨hlevel, sprout, hevents, hsound, hpoints, hfosters⟩ := h'
  rw [h.events] at hevents hpoints
  rw [h.level.allowance] at hfosters
  exact ⟨h.level.trans hlevel, sprout, hevents, hsound, hpoints, hfosters⟩

/-- The node stays in the record. -/
theorem stays (h : Bears p q node field kinds extra) (h' : Rests q r) :
    Bears p r node field kinds extra := by
  obtain ⟨hlevel, sprout, hevents, hsound, hpoints, hfosters⟩ := h
  exact ⟨hlevel.trans h'.level, sprout, by rw [h'.events, hevents], hsound, hpoints, hfosters⟩

/-- A node is a part of its role. -/
theorem adopts (h : Bears p q node field kinds extra) (hroles : rolesIn field kinds ⊆ roles) :
    Adopts p q roles extra := by
  obtain ⟨hlevel, sprout, hevents, hsound, -, hfosters⟩ := h
  refine ⟨hlevel, [sprout], ?_, ⟨hsound, trivial⟩, fun other hmem => ?_⟩
  · rw [hevents, eventsList, eventsList, List.append_nil]
  · rw [List.mem_singleton.mp hmem]
    exact hfosters.mono hroles (Nat.le_refl _)

end Bears

namespace Open

/-- More roles and more levels may be allowed. -/
theorem mono (h : Open p marker q roles extra) (hroles : roles ⊆ roles') (hle : extra ≤ extra') :
    Open p marker q roles' extra' := by
  obtain ⟨hlevel, first, rest, hevents, hindex, hfirst, hnode, hsound, hall⟩ := h
  exact ⟨hlevel, first, rest, hevents, hindex, hfirst, hnode, hsound,
    fun sprout hmem => (hall sprout hmem).mono hroles (Nat.add_le_add_left hle _)⟩

/-- The parts of an open node become more. -/
theorem adopts (h : Open p marker q roles extra) (h' : Adopts q r roles extra) :
    Open p marker r roles extra := by
  obtain ⟨hlevel, first, rest, hevents, hindex, hfirst, hnode, hsound, hall⟩ := h
  obtain ⟨hlevel', sprouts, hevents', hsound', hall'⟩ := h'
  rw [hlevel.allowance] at hall'
  refine ⟨hlevel.trans hlevel', first, rest ++ sprouts, ?_, hindex, hfirst, hnode,
    soundList_append hsound hsound', fun sprout hmem => ?_⟩
  · rw [hevents', hevents, eventsList_append, List.append_assoc]
    rfl
  · rw [← List.append_assoc] at hmem
    exact (List.mem_append.mp hmem).elim (hall sprout) (hall' sprout)

/-- The open node stays in the record. -/
theorem stays (h : Open p marker q roles extra) (h' : Rests q r) : Open p marker r roles extra :=
  h.adopts (.of_rests h' roles extra)

end Open

/-! ### Levels -/

/-- Inside a level there is one less to enter. -/
theorem allowance_enter (h : ¬ p.options.maxNestingDepth ≤ p.depth) :
    ({ p with depth := p.depth + 1 } : Parser).allowance + 1 = p.allowance := by
  unfold Parser.allowance
  dsimp only
  omega

/-- A node of a level is a node around it, with one level less above. -/
theorem Bears.leaveNesting (hdepth : ¬ p.options.maxNestingDepth ≤ p.depth)
    (h : Bears { p with depth := p.depth + 1 } q node field kinds (extra + 1)) :
    Bears p q.leaveNesting node field kinds extra := by
  obtain ⟨hlevel, sprout, hevents, hsound, hpoints, hfosters⟩ := h
  have hallowance := allowance_enter hdepth
  refine ⟨⟨?_, hlevel.options⟩, sprout, hevents, hsound, hpoints, hfosters.mono subset_rfl (by omega)⟩
  have hq : q.depth = p.depth + 1 := hlevel.depth
  show q.depth - 1 = p.depth
  omega

/-! ### Markers -/

namespace Parse

/-- A marker was started, and nothing happened since. -/
structure Fresh (p : Parser) (marker : Marker) (q : Parser) : Prop extends Level p q where
  events : q.events = p.events.push .pending
  index : marker.index = p.events.size
  firstEvent : marker.firstEvent = p.events.size
  child : marker.child = none

/-- A node that was just started is open for anything, since it is empty. -/
theorem Fresh.open_ (h : Fresh p marker q) (roles : Set Role) (extra : Nat) :
    Open p marker q roles extra := by
  refine ⟨h.toLevel, none, [], ?_, ?_, ?_, nofun, trivial, nofun⟩
  · rw [h.events, Array.toList_push]
    exact congrArg (· ++ _) (List.append_nil _).symm
  · rw [h.index, opening, List.append_nil, Array.length_toList]
  · rw [h.firstEvent, Array.length_toList]

/-- It stays so while the record is left alone. -/
theorem Fresh.stays (h : Fresh p marker q) (h' : Rests q r) : Fresh p marker r where
  toLevel := h.toLevel.trans h'.level
  events := h'.events.trans h.events
  index := h.index
  firstEvent := h.firstEvent
  child := h.child

/-- Starting a marker. -/
theorem leaves_start (p : Parser) : Leaves start p fun marker q => Fresh p marker q :=
  .get (.set (.pure ⟨⟨rfl, rfl⟩, rfl, rfl, rfl, rfl⟩))

/-- A marker with nothing behind it can be given up. -/
theorem leaves_abandon (h : Fresh p marker q) : Leaves marker.abandon q fun _ r => Rests p r := by
  have hindex : marker.index + 1 = q.events.size := by rw [h.events, Array.size_push, h.index]
  have hback : q.events.back? = some .pending := by rw [h.events, Array.back?_push]
  unfold Marker.abandon
  refine .get ?_
  rw [if_pos hindex, hback, h.child]
  refine .set (.pure ⟨?_, h.depth, h.options⟩)
  show q.events.pop = p.events
  rw [h.events, Array.pop_push]

/-- Completing an open node makes a node of the parts that it has. -/
theorem leaves_complete {kind : SyntaxKind} (h : Open p marker q roles extra)
    (real : kind.isNode = true) (hadmits : ∀ role ∈ roles, kind.admits role = true) :
    Leaves (marker.complete kind) q fun node r =>
      Bears p r node none {kind} (extra + kind.level) := by
  obtain ⟨hlevel, first, rest, hevents, hindex, hfirst, hnode, hsound, hall⟩ := h
  have hpending : q.events[marker.index]? = some .pending := by
    rw [← Array.getElem?_toList, hevents, hindex, List.getElem?_append_right (Nat.le_refl _),
      Nat.sub_self]
    rfl
  -- The start event is set to the kind of the node, and a finish is added. The record is then
  -- that of the one sprout around all parts.
  have hclose : ((q.events.setIfInBounds marker.index (.start kind none none)).push .finish).toList
      = p.events.toList ++ (close first kind rest).events none := by
    rw [Array.toList_push, Array.toList_setIfInBounds, hevents, hindex,
      List.set_append_right _ _ (Nat.le_refl _), Nat.sub_self, List.append_assoc, List.append_assoc]
    congr 1
    cases first <;> simp [close, Sprout.events, opening]
  have hlength := congrArg List.length hclose
  rw [Array.length_toList, Array.size_push, List.length_append, length_events] at hlength
  unfold Marker.complete
  refine .changeStart hpending (.get (.modify (.pure ⟨⟨hlevel.depth, hlevel.options⟩,
    close first kind rest, hclose, ?_, ⟨by cases first <;> rfl, ?_, hlength, hfirst⟩, ?_, ?_⟩)))
  · cases first with
    | none => exact ⟨real, hsound⟩
    | some first => exact ⟨(hnode first rfl).1, (hnode first rfl).2, real, hsound⟩
  · show marker.index + _ = _
    rw [hindex, List.length_append]
    cases first with
    | none => rfl
    | some first =>
      rw [opening, length_events]
      exact Nat.add_assoc _ _ _
  · cases first <;> exact ⟨rfl, rfl⟩
  · -- The parts of the outline are those that were added since the marker, the one that was there
    -- before it included.
    have houtline : (close first kind rest).outline
        = .node none kind (outlines (first.toList ++ rest)) := by cases first <;> rfl
    have hparts : ∀ part ∈ outlines (first.toList ++ rest), ∃ sprout ∈ first.toList ++ rest,
        sprout.outline = part := by
      generalize first.toList ++ rest = sprouts
      clear * -
      induction sprouts with
      | nil => exact fun _ hmem => absurd hmem List.not_mem_nil
      | cons sprout rest ih =>
        intro part hmem
        rcases List.mem_cons.mp hmem with rfl | hmem
        · exact ⟨sprout, List.mem_cons_self .., rfl⟩
        · obtain ⟨other, hother, heq⟩ := ih part hmem
          exact ⟨other, List.mem_cons_of_mem _ hother, heq⟩
    rw [houtline, ← Nat.add_assoc, Nat.add_comm _ kind.level]
    refine .node none (fun part hmem => ?_) fun part hmem => ?_
    · obtain ⟨sprout, hsprout, rfl⟩ := hparts part hmem
      exact (hall sprout hsprout).housed
    · obtain ⟨sprout, hsprout, rfl⟩ := hparts part hmem
      rw [field_outline, kind_outline]
      exact hadmits _ (hall sprout hsprout).role

/-! ### Finished nodes -/

/-- The kind of a finished node is one of those known. -/
theorem leaves_kind (h : Bears p q node field kinds extra) :
    Leaves node.kind q fun kind r =>
      r = q ∧ kind ∈ kinds ∧ Bears p q node field {kind} extra := by
  obtain ⟨hlevel, sprout, hevents, hsound, hpoints, hfosters⟩ := h
  have hevent : q.events[node.index]? = some (.start sprout.kind none sprout.field) := by
    rw [← Array.getElem?_toList, hevents]
    exact hpoints.getElem? none
  exact .eventAt hevent (.pure ⟨rfl, hfosters.role.2, hlevel, sprout, hevents, hsound, hpoints,
    ⟨hfosters.role.1, rfl⟩, hfosters.housed⟩)

/-- A field moves the node there and changes nothing in it. -/
theorem leaves_setField (h : Bears p q node field kinds extra) (field' : Option String) :
    Leaves (node.setField field') q fun node' r =>
      node' = node ∧ Bears p r node field' kinds extra := by
  obtain ⟨hlevel, sprout, hevents, hsound, hpoints, hfosters⟩ := h
  have hevent : q.events[node.index]? = some (.start sprout.kind none sprout.field) := by
    rw [← Array.getElem?_toList, hevents]
    exact hpoints.getElem? none
  unfold Completed.setField
  refine .changeStart hevent (.pure ⟨rfl, ⟨hlevel.depth, hlevel.options⟩, sprout.withField field',
    ?_, hsound.withField field', hpoints.withField field', ?_, ?_⟩)
  · rw [Array.toList_setIfInBounds, hevents, hpoints.set, events_withField hpoints.isNode]
  · exact ⟨field_withField .., by rw [role, kind_withField]; exact hfosters.role.2⟩
  · rw [outline_withField]
    exact hfosters.housed.withField field'

/-- The same with a field that is given. -/
theorem leaves_into (h : Bears p q node field kinds extra) (field' : String) :
    Leaves (node.into field') q fun _ r => Bears p r node (some field') kinds extra :=
  (leaves_setField h (some field')).bind fun _ _ hr => .pure hr.2

/-- A node is opened around a finished one. -/
theorem leaves_precede (h : Bears p q node field kinds extra) (hroles : rolesIn field kinds ⊆ roles) :
    Leaves node.precede q fun marker r => Open p marker r roles extra := by
  obtain ⟨hlevel, sprout, hevents, hsound, hpoints, hfosters⟩ := h
  have hsize : q.events.size = p.events.toList.length + sprout.size := by
    rw [← Array.length_toList, hevents, List.length_append, length_events]
  have hindex := hpoints.index
  have hown : 0 < sprout.own := by cases sprout <;> exact Nat.succ_pos _
  have hdistance : q.events.size - node.index = sprout.own := by omega
  have hevent : (q.events.push .pending)[node.index]?
      = some (.start sprout.kind none sprout.field) := by
    rw [Array.getElem?_push, if_neg (by omega), ← Array.getElem?_toList, hevents]
    exact hpoints.getElem? none
  -- The node keeps its place in the record and gets a link to the marker that is added behind it.
  -- That is the opening of a node around it.
  have hset : ((q.events.push .pending).setIfInBounds node.index
        (.start sprout.kind (some sprout.own) sprout.field)).toList
      = p.events.toList ++ opening (some sprout) ++ Event.pending :: eventsList [] := by
    rw [Array.toList_setIfInBounds, Array.toList_push, hevents,
      List.set_append_left _ _ (by rw [List.length_append, length_events]; omega), hpoints.set,
      opening, events_eq hpoints.isNode]
    rfl
  unfold Completed.precede Parse.start
  rw [bind_assoc]
  refine .get ?_
  dsimp only
  rw [bind_assoc]
  refine .set (.eventAt hevent ?_)
  dsimp only
  rw [if_neg (by omega), hdistance]
  refine .modify (.pure ⟨⟨hlevel.depth, hlevel.options⟩, some sprout, [], hset, ?_, ?_, ?_, trivial,
    ?_⟩)
  · show q.events.size = _
    rw [opening, List.length_append, length_events, hsize]
  · show min q.events.size node.firstEvent = _
    rw [hpoints.firstEvent]
    omega
  · intro first hfirst
    rw [← Option.some.inj hfirst]
    exact ⟨hpoints.isNode, hsound⟩
  · intro first hfirst
    rw [List.mem_singleton.mp hfirst]
    exact hfosters.mono hroles (Nat.le_refl _)

/-! ### Steps -/

variable {α β σ : Type}

/-- The step adds parts of these roles. -/
def Within (roles : Set Role) (extra : Nat) (m : Parse α) : Prop := ∀ p, Leaves m p fun _ q =>
  Adopts p q roles extra

/-- The step adds one node, and answers with it. -/
def Produces (field : Option String) (kinds : Set SyntaxKind) (extra : Nat) (m : Parse Completed) :
    Prop :=
  ∀ p, Leaves m p fun node q => Bears p q node field kinds extra

/-- One node was added and is the answer, or nothing was added. -/
def Offered (p : Parser) (field : Option String) (kinds : Set SyntaxKind) (extra : Nat) :
    Option Completed → Parser → Prop
  | some node, q => Bears p q node field kinds extra
  | none, q => Rests p q

/-- The step adds one node and answers with it, or adds nothing. -/
def Offers (field : Option String) (kinds : Set SyntaxKind) (extra : Nat)
    (m : Parse (Option Completed)) : Prop :=
  ∀ p, Leaves m p (Offered p field kinds extra)

/-- A step that leaves the record alone adds nothing that would have to be
admitted. -/
theorem Idle.within {m : Parse α} (h : Idle m) (roles : Set Role) (extra : Nat) :
    Within roles extra m :=
  fun p => (h p).mono fun _ _ hq => .of_rests hq roles extra

namespace Within

variable {m : Parse α} {f : α → Parse β}

/-- More roles and more levels may be allowed. -/
theorem mono (h : Within roles extra m) (hroles : roles ⊆ roles') (hle : extra ≤ extra') :
    Within roles' extra' m :=
  fun p => (h p).mono fun _ _ hq => hq.mono hroles hle

/-- Answering adds nothing. -/
theorem pure (answer : α) : Within roles extra (pure answer) := (Idle.pure answer).within _ _

/-- One step after another, with whatever the first one answers. -/
theorem bind (h : Within roles extra m) (hf : ∀ answer, Within roles extra (f answer)) :
    Within roles extra (m >>= f) := fun p =>
  (h p).bind fun answer q hq => (hf answer q).mono fun _ _ hr => hq.trans hr

/-- A step in each case. -/
theorem ite {c : Prop} [Decidable c] {m m' : Parse α} (h : Within roles extra m)
    (h' : Within roles extra m') : Within roles extra (if c then m else m') := fun p =>
  .ite (fun _ => h p) fun _ => h' p

/-- A step that looks at the state. -/
theorem get {f : Parser → Parse β} (hf : ∀ p, Within roles extra (f p)) :
    Within roles extra (get >>= f) := fun p => .get (hf p p)

/-- A loop, if each of its rounds is within. -/
theorem loop {round : σ → Parse (Round σ β)} (h : ∀ state, Within roles extra (round state))
    (state : σ) : Within roles extra (loop round state) := fun p =>
  .loop (fun _ q => Adopts p q roles extra) (fun state q hq => (h state q).mono
    fun next r hr => by cases next <;> exact hq.trans hr) (.refl p roles extra)

/-- The same for steps that are repeated while they succeed. -/
theorem whileTrue {step : Parse Bool} (h : Within roles extra step) :
    Within roles extra (whileTrue step) :=
  .loop (fun _ => h.bind fun _ => .ite (.pure _) (.pure _)) ()

end Within

/-- A step goes on inside an open node. -/
theorem Leaves.inside {m : Parse α} {f : α → Parse β} {post : β → Parser → Prop}
    (h : Open p marker q roles extra) (hm : Within roles extra m)
    (hf : ∀ answer r, Open p marker r roles extra → Leaves (f answer) r post) :
    Leaves (m >>= f) q post :=
  (hm q).bind fun answer r hr => hf answer r (h.adopts hr)

/-- A node is started, something is done, and the node is completed. -/
theorem Produces.start {f : Marker → Parse Completed} (roles : Set Role) (extra' : Nat)
    (hf : ∀ p marker q, Open p marker q roles extra' →
      Leaves (f marker) q fun node r => Bears p r node field kinds extra) :
    Produces field kinds extra (start >>= f) := fun p =>
  (leaves_start p).bind fun marker q hq => hf p marker q (hq.open_ roles extra')

namespace Produces

variable {m : Parse Completed}

/-- The node is admitted where its roles are. -/
theorem within (h : Produces field kinds extra m) (hroles : rolesIn field kinds ⊆ roles) :
    Within roles extra m := fun p => (h p).mono fun _ _ hq => hq.adopts hroles

/-- More kinds and more levels may be allowed. -/
theorem mono (h : Produces field kinds extra m) (hkinds : kinds ⊆ kinds') (hle : extra ≤ extra') :
    Produces field kinds' extra' m := fun p => (h p).mono fun _ _ hq => hq.mono hkinds hle

/-- A step in front that leaves the record alone does not matter. -/
theorem idle {n : Parse α} {f : α → Parse Completed} (h : Idle n)
    (hf : ∀ answer, Produces field kinds extra (f answer)) :
    Produces field kinds extra (n >>= f) := fun p =>
  (h p).bind fun answer q hq => (hf answer q).mono fun _ _ hr => hr.after hq

/-- The node, put into another field. -/
theorem setField (h : Produces field kinds extra m) (field' : Option String) :
    Produces field' kinds extra (m >>= fun node => node.setField field') := fun p =>
  (h p).bind fun _ _ hq => (leaves_setField hq field').mono fun _ _ hr => by
    obtain ⟨rfl, hr⟩ := hr
    exact hr

/-- The node as an answer that could have been missing. -/
theorem offers (h : Produces field kinds extra m) :
    Offers field kinds extra (m >>= fun node => Pure.pure (some node)) := fun p =>
  (h p).bind fun _ _ hq => .pure hq

end Produces

namespace Offers

variable {m : Parse (Option Completed)}

/-- What may be offered is admitted where its roles are. -/
theorem within (h : Offers field kinds extra m) (hroles : rolesIn field kinds ⊆ roles) :
    Within roles extra m := fun p => (h p).mono fun result _ hq => by
  cases result with
  | none => exact .of_rests hq ..
  | some => exact hq.adopts hroles

/-- More kinds and more levels may be allowed. -/
theorem mono (h : Offers field kinds extra m) (hkinds : kinds ⊆ kinds') (hle : extra ≤ extra') :
    Offers field kinds' extra' m := fun p => (h p).mono fun result _ hq => by
  cases result with
  | none => exact hq
  | some => exact hq.mono hkinds hle

/-- Offering no node adds none. -/
theorem none_ : Offers field kinds extra (Pure.pure none) := fun p => .pure (.refl p)

/-- A step in each case. -/
theorem ite {c : Prop} [Decidable c] {m m' : Parse (Option Completed)}
    (h : Offers field kinds extra m) (h' : Offers field kinds extra m') :
    Offers field kinds extra (if c then m else m') :=
  fun p => .ite (fun _ => h p) fun _ => h' p

/-- A step that looks at the state. -/
theorem get {f : Parser → Parse (Option Completed)} (hf : ∀ p, Offers field kinds extra (f p)) :
    Offers field kinds extra (get >>= f) := fun p => .get (hf p p)

/-- A step in front that leaves the record alone does not matter. -/
theorem idle {n : Parse α} {f : α → Parse (Option Completed)} (h : Idle n)
    (hf : ∀ answer, Offers field kinds extra (f answer)) :
    Offers field kinds extra (n >>= f) := fun p =>
  (h p).bind fun answer q hq => (hf answer q).mono fun result _ hr => by
    cases result with
    | none => exact hq.trans hr
    | some => exact hr.after hq

end Offers

/-! ### Nesting -/

/-- A rule inside a level may use one level more than around it, since the level
was there to be entered. -/
theorem Produces.nested {tooDeep inside : Parse Completed} (h : Produces field kinds extra tooDeep)
    (h' : Produces field kinds (extra + 1) inside) :
    Produces field kinds extra (nested tooDeep inside) := by
  intro p
  unfold Parse.nested enterNesting
  rw [bind_assoc]
  refine .get ?_
  split
  · rw [pure_bind]
    exact h p
  · rw [bind_assoc]
    refine .set ?_
    rw [pure_bind]
    exact .ensuring ((h' _).mono fun node q hq => hq.leaveNesting ‹_›)

/-! ### Tokens -/

/-- The roles of tokens in a field. -/
def tokensIn (field : Option String) : Set Role := rolesIn field (Set.range SyntaxKind.token)

/-- Consuming a token adds a token to the field, or what it is counted as. -/
theorem within_bump (context : LexContext) (field : Option String) (kind : Option SyntaxKind)
    (extra : Nat) :
    Within (rolesIn field {other | other ∈ kind ∨ other ∈ Set.range SyntaxKind.token}) extra
      (bump context field kind) := by
  intro p
  show Adopts p (p.bump context field kind) _ extra
  unfold Parser.bump
  split
  · exact .refl p ..
  · refine ⟨⟨rfl, rfl⟩, [.token (kind.getD (.token p.kind)) p.range.stop field], ?_,
      ⟨trivial, trivial⟩, fun sprout hmem => ?_⟩
    · rw [Array.toList_push]
      rfl
    · rw [List.mem_singleton.mp hmem]
      refine ⟨⟨rfl, ?_⟩, .leaf ..⟩
      cases kind with
      | none => exact .inr ⟨p.kind, rfl⟩
      | some => exact .inl rfl

/-- A token as a part of a node that admits tokens. -/
theorem Within.bump {field : Option String} (hroles : tokensIn field ⊆ roles)
    (context : LexContext) (extra : Nat) : Within roles extra (bump context field) :=
  (within_bump context field none extra).mono
    (fun _ hrole => hroles ⟨hrole.1, hrole.2.resolve_left nofun⟩) (Nat.le_refl _)

/-- A token that may be there. -/
theorem Within.eat {field : Option String} (hroles : tokensIn field ⊆ roles) (kind : TokenKind)
    (context : LexContext) (extra : Nat) : Within roles extra (eat kind context field) :=
  ((idle_sees kind).within _ _).bind fun _ => .ite ((Within.bump hroles _ _).bind fun _ => .pure _)
    (.pure _)

/-- A token that should be there. -/
theorem Within.expect {field : Option String} (hroles : tokensIn field ⊆ roles) (kind : TokenKind)
    (context : LexContext) (extra : Nat) : Within roles extra (expect kind context field) :=
  (Within.eat hroles _ _ _).bind fun _ => .ite (.pure _)
    (((idle_reportExpected kind).within _ _).bind fun _ => .pure _)

/-! ### Missing parts -/

/-- The kinds of parts that a node may have wherever it may have parts at
all: all but arms. -/
def freeKinds : Set SyntaxKind := {kind | kind.isArm = false}

/-- A node that is completed and goes into a field. Its kind admits what was
added, and it is one level more if its kind is a level. -/
theorem leaves_completeInto {kind : SyntaxKind} (h : Open p marker q roles extra)
    (real : kind.isNode = true) (hadmits : ∀ role ∈ roles, kind.admits role = true)
    (field : Option String) :
    Leaves (marker.complete kind >>= fun node => node.setField field) q fun node r =>
      Bears p r node field {kind} (extra + kind.level) :=
  (leaves_complete h real hadmits).bind fun _ _ hr => (leaves_setField hr field).mono
    fun _ _ hs => hs.1 ▸ hs.2

/-- The node of an open one, in a field, as an answer that could have been
missing. -/
theorem leaves_offer {kind : SyntaxKind} (h : Open p marker q roles extra)
    (real : kind.isNode = true) (hadmits : ∀ role ∈ roles, kind.admits role = true)
    (field : Option String) (hkind : kind ∈ kinds) (hle : extra + kind.level ≤ extra') :
    Leaves (marker.complete kind >>= fun node => node.setField field >>= fun node =>
        Pure.pure (some node)) q (Offered p field kinds extra') := by
  rw [← bind_assoc]
  exact (leaves_completeInto h real hadmits field).bind fun _ _ hr =>
    .pure (hr.mono (Set.singleton_subset_iff.mpr hkind) hle)

/-- A node for something missing is an error node. -/
theorem produces_missing (field : Option String) (code : Code) (extra : Nat) :
    Produces field {.error} extra (missing field code) :=
  .idle (idle_reportHere code) fun () => .start ∅ extra fun _ _ _ h =>
    leaves_completeInto h rfl nofun field

/-- A part in its field, or an empty node there. -/
theorem within_orMissing {kinds : Set SyntaxKind} {part : Option Completed} {field : String}
    {code : Code}
    (h : Offered p none kinds extra part q) (hroles : rolesIn (some field) (kinds ∪ {.error}) ⊆ roles) :
    Leaves (orMissing part field code) q fun _ r => Adopts p r roles extra := by
  unfold orMissing
  cases part with
  | some node =>
    exact (leaves_into h field).mono fun _ _ hr =>
      hr.adopts ((rolesIn_mono Set.subset_union_left).trans hroles)
  | none =>
    refine (produces_missing (some field) code extra q).bind fun node r hr => .pure ?_
    exact (hr.after h).adopts ((rolesIn_mono Set.subset_union_right).trans hroles)

end Parse

end MarkupSyntax
