import MarkupSyntax.Proofs.Tree.Sprout

/-!
# `MarkupSyntax.Proofs.Event.Replay`: replaying the record of sprouts

The replay of a record takes the steps of the tree that the record
tells: `replay_eventsList` says so for the record of any sound sprouts,
whatever the steps do.

A node that was put around an earlier one makes the replay jump: the
start event of the innermost node names the later starts around it, one
after another, and all of them are taken at once and spent. `Leads`
follows these names through the events behind a node. `Replays` is the
statement that composes: events in front of others take some steps and
leave the others as they are, except for the starts that were spent.
-/

set_option autoImplicit false

namespace MarkupSyntax

variable {σ : Type} {step : σ → BuildStep → Except Fault σ}

namespace Sprout

mutual
/-- The steps that build the sprout: every node starts before its first
child. -/
def steps : Sprout → List BuildStep
  | token kind stop field => [.token kind stop field]
  | node kind field children => .start kind field :: (stepsList children ++ [.finish])
  | around first kind field rest =>
    .start kind field :: (first.steps ++ (stepsList rest ++ [.finish]))

/-- The steps that build sprouts one after another. -/
def stepsList : List Sprout → List BuildStep
  | [] => []
  | sprout :: rest => sprout.steps ++ stepsList rest
end

end Sprout

namespace Event

/-! ### Parents that start later -/

/-- The nodes around a node, as its start event names them. `own` is the
number of events from that start to its finish, `post` are the events
behind. In `post'` the starts of the nodes around are spent, and `outer`
lists these nodes, the outermost first. -/
inductive Leads : (parent : Option Nat) → (own : Nat) → (post post' : List Event) →
    (outer : List (SyntaxKind × Option String)) → Prop
  | alone (own : Nat) (post : List Event) : Leads none own post post []
  | around {own : Nat} {kind : SyntaxKind} {next : Option Nat} {field : Option String}
      {inside post post' : List Event} {outer : List (SyntaxKind × Option String)}
      (real : kind ≠ .tombstone) (further : Leads next (inside.length + 1) post post' outer) :
      Leads (some own) own (.start kind next field :: (inside ++ post))
        (.pending :: (inside ++ post')) (outer ++ [(kind, field)])

/-- There are no more nodes around than events behind. -/
theorem Leads.length_le {parent : Option Nat} {own : Nat} {post post' : List Event}
    {outer : List (SyntaxKind × Option String)} (h : Leads parent own post post' outer) :
    outer.length ≤ post.length := by
  induction h with
  | alone => exact Nat.zero_le _
  | around _ _ ih =>
    rw [List.length_append, List.length_singleton, List.length_cons, List.length_append]
    omega

/-- Following the names gives the nodes around and spends their starts.
The induction is along the names. -/
theorem Leads.chain {parent : Option Nat} {own : Nat} {post post' : List Event}
    {outer : List (SyntaxKind × Option String)} (h : Leads parent own post post' outer)
    (front : List Event) {middle : List Event} (hmiddle : middle.length = own) {fuel : Nat}
    (enough : outer.length ≤ fuel) (inner : List (SyntaxKind × Option String)) :
    Event.chain fuel front.length parent inner (front ++ middle ++ post).toArray
      = .ok (outer ++ inner, (front ++ middle ++ post').toArray) := by
  induction h generalizing front middle fuel inner with
  | alone own post =>
    unfold Event.chain
    cases fuel <;> rfl
  | @around own kind next field inside post post' outer real further ih =>
    rw [List.length_append, List.length_singleton] at enough
    obtain ⟨fuel, rfl⟩ : ∃ fuel', fuel = fuel' + 1 := ⟨fuel - 1, by omega⟩
    have hplace : front.length + own = (front ++ middle).length := by
      rw [List.length_append, hmiddle]
    -- The distance leads from the last node found to the start of its parent, which is marked as
    -- used before the walk goes on.
    have hevent : (front ++ middle ++ .start kind next field :: (inside ++ post)).toArray[
        front.length + own]? = some (.start kind next field) := by
      rw [List.getElem?_toArray, hplace, List.getElem?_append_right (Nat.le_refl _), Nat.sub_self]
      rfl
    have hset : (front ++ middle ++ .start kind next field :: (inside ++ post)).toArray.setIfInBounds
        (front.length + own) .pending
        = (front ++ middle ++ (.pending :: inside) ++ post).toArray := by
      rw [List.setIfInBounds_toArray, hplace, List.set_append_right _ _ (Nat.le_refl _),
        Nat.sub_self, List.set_cons_zero, List.append_assoc (front ++ middle)]
      rfl
    unfold Event.chain
    dsimp only
    rw [hevent]
    dsimp only
    rw [if_neg real, hset, hplace, ih (front ++ middle) rfl (by omega), List.append_assoc outer,
      List.append_assoc (front ++ middle)]
    rfl

/-! ### Replaying events in front of others -/

/-- Wherever the replay comes to these events in front of `post`, it
takes these steps and leaves `post'` behind them. -/
def Replays (step : σ → BuildStep → Except Fault σ) (events post post' : List Event)
    (steps : List BuildStep) : Prop :=
  ∀ pre : List Event, ∃ pre' : List Event, pre'.length = pre.length + events.length ∧
    ∀ count state,
      replayFrom step (events.length + count) pre.length (pre ++ (events ++ post)).toArray state
        = steps.foldlM step state >>= fun state =>
          replayFrom step count pre'.length (pre' ++ post').toArray state

namespace Replays

variable {events events' later post post' post'' : List Event} {steps steps' : List BuildStep}

/-- No events take no steps. -/
theorem nil (post : List Event) : Replays step [] post post [] := by
  intro pre
  refine ⟨pre, rfl, fun count state => ?_⟩
  rw [List.length_nil, Nat.zero_add]
  rfl

/-- Events before others take the steps of both. -/
theorem append (h : Replays step events (later ++ post) (events' ++ post') steps)
    (hlength : events'.length = later.length) (h' : Replays step events' post' post'' steps') :
    Replays step (events ++ later) post post'' (steps ++ steps') := by
  intro pre
  obtain ⟨middle, hmiddle, hrun⟩ := h pre
  obtain ⟨last, hlast, hrun'⟩ := h' middle
  refine ⟨last, by rw [hlast, hmiddle, List.length_append, hlength]; omega, fun count state => ?_⟩
  rw [List.length_append, Nat.add_assoc, List.append_assoc events, hrun, List.foldlM_append,
    bind_assoc]
  congr 1
  funext state
  rw [← hlength, hrun']

/-- The event at the place of the replay. -/
theorem getElem?_head (pre post : List Event) (event : Event) :
    (pre ++ ([event] ++ post)).toArray[pre.length]? = some event := by
  rw [List.getElem?_toArray, List.getElem?_append_right (Nat.le_refl _), Nat.sub_self]
  rfl

/-- A token replays to itself. -/
theorem token (kind : SyntaxKind) (stop : Nat) (field : Option String) (post : List Event) :
    Replays step [.token kind stop field] post post [.token kind stop field] := by
  intro pre
  refine ⟨pre ++ [.token kind stop field], List.length_append, fun count state => ?_⟩
  rw [List.length_singleton, Nat.add_comm, replayFrom, getElem?_head, List.length_append,
    List.length_singleton, List.append_assoc, List.foldlM_cons]
  dsimp only
  rw [bind_assoc]
  rfl

/-- A finish replays to itself. -/
theorem finish (post : List Event) : Replays step [.finish] post post [.finish] := by
  intro pre
  refine ⟨pre ++ [.finish], List.length_append, fun count state => ?_⟩
  rw [List.length_singleton, Nat.add_comm, replayFrom, getElem?_head, List.length_append,
    List.length_singleton, List.append_assoc, List.foldlM_cons]
  dsimp only
  rw [bind_assoc]
  rfl

/-- A start that was spent takes no step. -/
theorem pending (post : List Event) : Replays step [.pending] post post [] := by
  intro pre
  refine ⟨pre ++ [.pending], List.length_append, fun count state => ?_⟩
  rw [List.length_singleton, Nat.add_comm, replayFrom, getElem?_head, List.length_append,
    List.length_singleton, List.append_assoc]
  rfl

/-- A start takes the starts of the nodes around and its own. -/
theorem start {kind : SyntaxKind} (real : kind ≠ .tombstone) {parent : Option Nat}
    (field : Option String) {inside : List Event} {outer : List (SyntaxKind × Option String)}
    (h : Leads parent (inside.length + 1) post post' outer) :
    Replays step [.start kind parent field] (inside ++ post) (inside ++ post')
      ((outer ++ [(kind, field)]).map fun node => .start node.1 node.2) := by
  intro pre
  refine ⟨pre ++ [.start kind parent field], List.length_append, fun count state => ?_⟩
  have hsplit : ∀ rest, pre ++ ([Event.start kind parent field] ++ (inside ++ rest))
      = pre ++ (Event.start kind parent field :: inside) ++ rest := by simp
  have henough : outer.length ≤
      (pre ++ ([Event.start kind parent field] ++ (inside ++ post))).toArray.size + 1 := by
    have := h.length_le
    simp
    omega
  -- The chain of parents is walked first. It leaves `post'` behind, and the steps that it gives
  -- are those of `outer` and of the node itself.
  have hchain := h.chain pre (rfl : (Event.start kind parent field :: inside).length = _) henough
    [(kind, field)]
  rw [← hsplit, ← hsplit] at hchain
  rw [List.length_singleton, Nat.add_comm, replayFrom, getElem?_head, List.length_append,
    List.length_singleton, List.append_assoc, List.foldlM_map]
  split
  · rename_i hevent
    cases hevent
  · rename_i hevent
    cases hevent
  · rename_i hevent
    cases hevent
  · rename_i hevent
    cases hevent
    exact absurd rfl real
  · rename_i hevent
    cases hevent
    rw [hchain]
    rfl

end Replays

end Event

/-! ### The record of sprouts -/

namespace Sprout

open Event

mutual
/-- Replaying the record of a sprout takes the starts of the nodes around
it and its own steps. -/
theorem replays_events (parent : Option Nat) (post post' : List Event)
    (outer : List (SyntaxKind × Option String)) : ∀ sprout : Sprout, sprout.Sound →
      (parent = none ∨ sprout.isNode = true) → Leads parent sprout.own post post' outer →
      Replays step (sprout.events parent) post post'
        ((outer.map fun node => BuildStep.start node.1 node.2) ++ sprout.steps)
  | token kind stop field, _, hnode, h => by
    rcases hnode with rfl | hnode
    · cases h
      exact .token kind stop field post
    · cases hnode
  | node kind field children, hsound, _, h => by
    have hinside : (eventsList children ++ [Event.finish]).length + 1
        = (node kind field children).own := by
      rw [List.length_append, length_eventsList]
      rfl
    rw [← hinside] at h
    have hbody : Replays step (eventsList children ++ [.finish]) post' post'
        (stepsList children ++ [.finish]) :=
      .append (replays_eventsList _ children hsound.2) rfl (.finish post')
    have hall := (Replays.start (SyntaxKind.ne_tombstone_of_isNode hsound.1) field h).append rfl hbody
    rw [List.map_append, List.append_assoc] at hall
    exact hall
  | around first kind field rest, hsound, _, h => by
    obtain ⟨hnode, hfirst, real, hrest⟩ := hsound
    have hinside : (eventsList rest ++ [Event.finish]).length + 1
        = (around first kind field rest).own := by
      rw [List.length_append, length_eventsList]
      rfl
    rw [← hinside] at h
    have hbody : Replays step ([.pending] ++ (eventsList rest ++ [.finish])) post' post'
        ([] ++ (stepsList rest ++ [.finish])) :=
      .append (.pending _) rfl (.append (replays_eventsList _ rest hrest) rfl (.finish post'))
    have hleads : Leads (some first.own) first.own
        ((.start kind parent field :: (eventsList rest ++ [.finish])) ++ post)
        (([.pending] ++ (eventsList rest ++ [.finish])) ++ post') (outer ++ [(kind, field)]) :=
      .around (SyntaxKind.ne_tombstone_of_isNode real) h
    -- The first child comes first in the record, with a link to the node around it. Following the
    -- link replays that node's start in front of its own.
    have hhead := replays_events (some first.own) _ _ _ first hfirst (.inr hnode) hleads
    have hall := hhead.append rfl hbody
    rw [List.map_append, List.append_assoc, List.append_assoc] at hall
    exact hall

/-- Replaying the record of sprouts takes their steps. -/
theorem replays_eventsList (post : List Event) : ∀ sprouts : List Sprout, SoundList sprouts →
    Replays step (eventsList sprouts) post post (stepsList sprouts)
  | [], _ => .nil post
  | sprout :: rest, hsound =>
    .append (replays_events none _ _ [] sprout hsound.1 (.inl rfl) (.alone _ _)) rfl
      (replays_eventsList post rest hsound.2)
end

end Sprout

/-- Replaying a whole record takes the steps of the sprouts that it
tells. -/
theorem Event.replay_eventsList {events : Array Event} {sprouts : List Sprout}
    (h : events.toList = Sprout.eventsList sprouts) (hsound : Sprout.SoundList sprouts)
    (state : σ) : replay step events state = (Sprout.stepsList sprouts).foldlM step state := by
  obtain ⟨last, -, hrun⟩ := @Sprout.replays_eventsList σ step [] sprouts hsound []
  have hevents : events = ([] ++ (Sprout.eventsList sprouts ++ [])).toArray := by
    rw [List.nil_append, List.append_nil, ← h]
  have hsize : events.size = (Sprout.eventsList sprouts).length + 0 := by
    rw [← h, Array.length_toList]
    rfl
  unfold replay
  rw [hsize]
  conv_lhs => rw [hevents]
  exact (hrun 0 state).trans (bind_pure _)

end MarkupSyntax
