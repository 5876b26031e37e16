import MarkupSyntax.Proofs.Parse.Leaves
import MarkupSyntax.Proofs.Parse.Recovering

/-!
# `MarkupSyntax.Proofs.Parse.Onward`: parses that begin with the current token

A token that is read anew in another context may start somewhere else:
what is trivia in code is text between tags. So the tokens of a node start
where its marker was started only if the first of them is consumed in the
context in which it was the current one then. `Onward context p q` says of
whatever was consumed between two states that its first token was read in
a context, and `Parse.GoesOnIn context m p` says so of all that the step
`m` consumes from `p` on. For most steps that is the context that the
current token has (`Parse.GoesOn m p`).

A step goes on if its parts do. Loops that read the current token anew in
each round do not break that as long as they ask for the same context
(`GoesOnIn.rereading`).
-/

set_option autoImplicit false

namespace MarkupSyntax

variable {p q r : Parser} {context : LexContext}

/-- What is consumed begins with the current token, read in this context.
Where nothing is consumed, the token is left to be read so. -/
def Onward (context : LexContext) (p q : Parser) : Prop :=
  (∃ contexts, Trace p (context :: contexts) q) ∨ Trace p [] q ∧ q.context = context

/-- A step that takes the current token goes on from it. -/
theorem Takes.onward (h : Takes p q) : Onward p.context p q := .inl h

/-- A step that stands still may still go on from the token. -/
theorem Still.onward (h : Still p q) : Onward p.context p q := .inr ⟨h.way, h.context⟩

namespace Onward

/-- Doing nothing goes on. -/
theorem refl (p : Parser) : Onward p.context p p := (Still.refl p).onward

/-- What goes on reaches a state. -/
theorem reaches (h : Onward context p q) : Reaches p q := by
  rcases h with ⟨contexts, hway⟩ | ⟨hway, -⟩
  · exact ⟨_, hway⟩
  · exact ⟨[], hway⟩

/-- Behind a way on which nothing is consumed. -/
theorem behind (h : Trace p [] q) (h' : Onward context q r) : Onward context p r := by
  rcases h' with ⟨contexts, hway⟩ | ⟨hway, hcontext⟩
  · exact .inl ⟨contexts, h.trans hway⟩
  · exact .inr ⟨h.trans hway, hcontext⟩

/-- The parse stays in front of a seam. -/
theorem live (h : Onward context p q) (hp : p.Live) : q.Live := h.reaches.live hp

/-- Going on twice: if the first step took its token, the second may do as it
likes, and if not, the second starts from the same token in the same context. -/
theorem trans (h : Onward context p q) (h' : Onward q.context q r) : Onward context p r := by
  rcases h with ⟨contexts, hway⟩ | ⟨hway, hcontext⟩
  · obtain ⟨contexts', hway'⟩ := h'.reaches
    exact .inl ⟨_, hway.trans hway'⟩
  · rw [hcontext] at h'
    rcases h' with ⟨contexts', hway'⟩ | ⟨hway', hcontext'⟩
    · exact .inl ⟨contexts', hway.trans hway'⟩
    · exact .inr ⟨hway.trans hway', hcontext'⟩

/-- Reading the current token in the context changes nothing that matters. -/
theorem relex (h : Onward context p q) : Onward context p (q.relex context) := by
  rcases h with ⟨contexts, hway⟩ | ⟨hway, -⟩
  · exact .inl ⟨contexts, .relex hway context⟩
  · exact .inr ⟨.relex hway context, Parser.context_relex context⟩

/-- Reading the current token anew goes on from it in the new context. -/
theorem of_relex (p : Parser) (context : LexContext) : Onward context p (p.relex context) :=
  .inr ⟨.relex (.refl p) context, Parser.context_relex context⟩

end Onward

/-! ### Changes of start events -/

/-- Other start events leave the tokens of a record alone. -/
theorem Event.taken_set {events : List Event} {index : Nat} {kind kind' : SyntaxKind}
    {parent parent' : Option Nat} {field field' : Option String}
    (h : events[index]? = some (.start kind parent field)) :
    taken (events.set index (.start kind' parent' field')) = taken events := by
  induction events generalizing index with
  | nil => cases h
  | cons event rest ih =>
    cases index with
    | zero =>
      rw [Option.some.inj h]
      rfl
    | succ index =>
      have hrest : rest[index]? = some (.start kind parent field) := h
      show taken ([event] ++ rest.set index _) = taken ([event] ++ rest)
      rw [taken_append, taken_append, ih hrest]

namespace Parse

variable {α β σ : Type} {m : Parse α} {f : α → Parse β}

/-- What is yielded is left: less is said, since a fault is not excluded. -/
theorem Yields.leaves {post : α → Parser → Prop} (h : Yields m p post) : Leaves m p post := by
  obtain ⟨answer, q, hrun, hpost⟩ := h.exists_ok
  refine .of_ok fun answer' q' hrun' => ?_
  rw [hrun] at hrun'
  cases hrun'
  exact hpost

/-- From `p` on the step stays at the current token. -/
def Stays (m : Parse α) (p : Parser) : Prop := Leaves m p fun _ q => Still p q

/-- What the step consumes from `p` on begins with the current token, read
in this context. -/
def GoesOnIn (context : LexContext) (m : Parse α) (p : Parser) : Prop :=
  Leaves m p fun _ q => Onward context p q

/-- What the step consumes from `p` on begins with the current token as it
is. -/
abbrev GoesOn (m : Parse α) (p : Parser) : Prop := GoesOnIn p.context m p

/-- To go on in the current context is to go on. -/
theorem GoesOnIn.of_context (h : GoesOn m p) (hcontext : p.context = context) :
    GoesOnIn context m p := hcontext ▸ h

/-- What stays goes on. -/
theorem Stays.goesOn (h : Stays m p) : GoesOn m p := h.mono fun _ _ hq => hq.onward

/-- A question stands still. -/
theorem Settled.stays (h : Settled m) (hp : p.Live) : Stays m p :=
  (h.quiet hp).leaves.mono fun _ _ hq => hq.toStill

/-- Looking at the current token stands still. -/
theorem stays_sees (kind : TokenKind) : Stays (sees kind) p := .get (.pure (.refl p))

/-- The same for some kinds. -/
theorem stays_seesAny (kinds : List TokenKind) : Stays (seesAny kinds) p := .get (.pure (.refl p))

/-- The check that a loop goes on stands still. -/
theorem stays_mustProgress (progress : Progress) : Stays (mustProgress progress) p :=
  .get (.ite (fun _ => .pure (.refl p)) fun _ => .throw)

/-- A report stands still. -/
theorem stays_reportWith (code : Code) (message : String) : Stays (reportWith code message) p :=
  .get (.modify (.of_source rfl rfl rfl))

/-- The same at the current token. -/
theorem stays_reportHere (code : Code) : Stays (reportHere code) p :=
  .get (.modify (.of_source rfl rfl rfl))

/-- The same for a token that should not be there. -/
theorem stays_reportUnexpected : Stays reportUnexpected p :=
  .get (.get (.modify (.of_source rfl rfl rfl)))

namespace GoesOnIn

/-- Answering goes on. -/
theorem pure (answer : α) : GoesOn (pure answer) p := Leaves.pure (Onward.refl p)

/-- One step after another. -/
theorem bind (h : GoesOnIn context m p)
    (hf : ∀ answer q, Onward context p q → GoesOn (f answer) q) :
    GoesOnIn context (m >>= f) p :=
  Leaves.bind h fun answer q hq => (hf answer q hq).mono fun _ _ hr => hq.trans hr

/-- A step in each case. -/
theorem ite {c : Prop} [Decidable c] {m m' : Parse α} (h : c → GoesOnIn context m p)
    (h' : ¬c → GoesOnIn context m' p) : GoesOnIn context (if c then m else m') p := Leaves.ite h h'

/-- A step that looks at the state. -/
theorem get {f : Parser → Parse β} (h : GoesOnIn context (f p) p) :
    GoesOnIn context (get >>= f) p := Leaves.get h

/-- A step behind one that stays. -/
theorem stays (h : Stays m p) (hf : ∀ answer q, Still p q → GoesOn (f answer) q) :
    GoesOn (m >>= f) p :=
  Leaves.bind h fun answer q hq => (hf answer q hq).mono fun _ _ hr => hq.onward.trans hr

/-- A step that first reads the current token anew. -/
theorem relex {f : Unit → Parse β} (hf : GoesOn (f ()) (p.relex context)) :
    GoesOnIn context (Parse.relex context >>= f) p :=
  Leaves.modify (hf.mono fun _ _ hq => (Onward.of_relex p context).trans hq)

/-- A part that consumes the current token, if it is there. -/
theorem of_yields {m : Parse (Option Completed)}
    (h : Yields m p fun result q => if result.isSome then Takes p q else Still p q) :
    GoesOn m p :=
  h.leaves.mono fun result q hq => by
    cases result with
    | none => exact Still.onward hq
    | some node => exact Takes.onward hq

/-- A loop goes on if each round does, wherever it starts. -/
theorem loop {round : σ → Parse (Round σ β)} {state : σ}
    (hround : ∀ state q, Onward p.context p q → GoesOn (round state) q) :
    GoesOn (loop round state) p :=
  Leaves.loop (fun _ q => Onward p.context p q) (fun state q hq => (hround state q hq).mono
    fun next r hr => by cases next <;> exact hq.trans hr) (.refl p)

/-- The same for steps that are repeated while they succeed. -/
theorem whileTrue {step : Parse Bool} (hstep : ∀ q, Onward p.context p q → GoesOn step q) :
    GoesOn (whileTrue step) p :=
  .loop fun _ q hq => (hstep q hq).bind fun _ _ _ => .ite (fun _ => .pure _) fun _ => .pure _

/-- Each round reads the current token anew in the context. -/
theorem rereading {body : σ → Unit → Parse (Round σ β)} {state : σ}
    (hbody : ∀ state q, Onward context p q → q.context = context → GoesOn (body state ()) q) :
    GoesOnIn context (Parse.loop (fun state => Parse.relex context >>= body state) state) p := by
  refine Leaves.loop (fun _ q => Onward context p (q.relex context))
    (fun state q hq => .modify ?_) (.of_relex p context)
  refine (hbody state _ hq (Parser.context_relex context)).mono fun next r hr => ?_
  cases next with
  | again => exact (hq.trans hr).relex
  | done => exact hq.trans hr

end GoesOnIn

/-- A marker that is started consumes nothing, so what comes behind starts with
the same token. -/
theorem GoesOnIn.start {f : Marker → Parse β} (hp : p.Live)
    (hf : ∀ marker q, Started p marker q → GoesOn (f marker) q) : GoesOn (start >>= f) p :=
  (yields_start hp).leaves.bind fun marker q hq =>
    (hf marker q hq).mono fun _ _ hr => hq.onward.trans hr

/-- Consuming the current token; at the end of the source there is none. -/
theorem goesOn_bump (hp : p.Live) (context : LexContext) (field : Option String) :
    GoesOn (bump context field) p := by
  show Onward p.context p (p.bump context field none)
  by_cases hend : p.kind = .eof
  · rw [Parser.bump_of_eof hend]
    exact .refl p
  · exact (p.grows_bump hp context field none hend rfl).2.1.onward

/-- A token that may be there. -/
theorem goesOn_eat (hp : p.Live) (kind : TokenKind) (context : LexContext)
    (field : Option String) : GoesOn (eat kind context field) p :=
  .stays (stays_sees kind) fun _ _ hq => .ite
    (fun _ => (goesOn_bump (hq.reaches.live hp) _ _).bind fun _ _ _ => .pure _) fun _ => .pure _

/-- A token that should be there. -/
theorem goesOn_expect (hp : p.Live) (kind : TokenKind) (context : LexContext)
    (field : Option String) : GoesOn (expect kind context field) p :=
  (goesOn_eat hp kind context field).bind fun _ _ _ => .ite (fun _ => .pure _) fun _ =>
    (GoesOnIn.get (stays_reportWith _ _).goesOn).bind fun _ _ _ => .pure _

/-! ### Markers -/

/-- Reading the record tells the event at a place, and changes nothing. -/
theorem leaves_eventAt (index : Nat) (p : Parser) :
    Leaves (eventAt index) p fun event q => p = q ∧ p.events[index]? = some event := by
  refine .get ?_
  split
  · exact .pure ⟨rfl, ‹_›⟩
  · exact .throw

/-- A change of a start event, whatever stands at its place. -/
theorem Leaves.changeStart_any {index : Nat} {otherwise : Fault} {f : Unit → Parse β}
    {change : SyntaxKind → Option Nat → Option String → Event} {post : β → Parser → Prop}
    (h : ∀ kind parent field, p.events[index]? = some (.start kind parent field) →
      Leaves (f ()) { p with events := p.events.setIfInBounds index (change kind parent field) }
        post) :
    Leaves (Parse.changeStart index otherwise change >>= f) p post := by
  unfold Parse.changeStart
  rw [bind_assoc]
  refine (leaves_eventAt index p).bind ?_
  rintro event _ ⟨rfl, hevent⟩
  cases event with
  | start kind parent field => exact .modify (h kind parent field hevent)
  | _ => exact .throw

end Parse

/-- The node of this handle is of this kind. -/
def Completed.IsOf (node : Completed) (kind : SyntaxKind) (p : Parser) : Prop :=
  ∃ parent field, p.events[node.index]? = some (.start kind parent field)

/-- The kind that a handle tells is the one that is recorded. -/
theorem Completed.IsOf.kind_eq {node : Completed} {kind : SyntaxKind} (h : node.IsOf kind p) :
    node.kind p = .ok kind p := by
  obtain ⟨parent, field, hevent⟩ := h
  have hkind : Parse.Yields node.kind p fun answer q => answer = kind ∧ q = p :=
    .eventAt hevent (.pure ⟨rfl, rfl⟩)
  obtain ⟨_, _, hrun, rfl, rfl⟩ := hkind.exists_ok
  exact hrun

namespace Parse

/-- Completing a node consumes nothing, and the node is of its kind then. -/
theorem leaves_complete_still (marker : Marker) (kind : SyntaxKind) (p : Parser) :
    Leaves (marker.complete kind) p fun node q => Still p q ∧ node.IsOf kind q := by
  unfold Marker.complete
  refine Leaves.changeStart_any fun kind' parent field hevent => ?_
  refine .get (.modify (.pure ⟨?_, parent, field, ?_⟩))
  · refine .of_source rfl ?_ rfl
    rw [← Array.getElem?_toList] at hevent
    rw [Array.toList_push, Event.taken_append, Array.toList_setIfInBounds, Event.taken_set hevent]
    exact List.append_nil _
  · have hlt := (Array.getElem?_eq_some_iff.mp hevent).1
    rw [Array.getElem?_push, Array.size_setIfInBounds, if_neg (Nat.ne_of_lt hlt),
      Array.getElem?_setIfInBounds_self_of_lt hlt]

/-- Neither does putting it into a field. -/
theorem leaves_setField_still (node : Completed) (field : Option String) (p : Parser) :
    Leaves (node.setField field) p fun node' q =>
      node' = node ∧ Still p q ∧ ∀ kind, node.IsOf kind p → node.IsOf kind q := by
  unfold Completed.setField
  refine Leaves.changeStart_any fun kind parent field' hevent => .pure ⟨rfl, ?_, ?_⟩
  · refine .of_source rfl ?_ rfl
    rw [← Array.getElem?_toList] at hevent
    rw [Array.toList_setIfInBounds, Event.taken_set hevent]
  · rintro kind' ⟨parent', field'', hevent'⟩
    rw [hevent'] at hevent
    cases hevent
    refine ⟨parent, field, ?_⟩
    rw [Array.getElem?_setIfInBounds_self_of_lt (Array.getElem?_eq_some_iff.mp hevent').1]

/-- Setting a field consumes nothing. -/
theorem stays_setField (node : Completed) (field : Option String) :
    Stays (node.setField field) p :=
  (leaves_setField_still node field p).mono fun _ _ hq => hq.2.1

/-- The same with a field that is given. -/
theorem stays_into (node : Completed) (field : String) : Stays (node.into field) p :=
  (stays_setField node _).bind fun _ _ hq => .pure hq

/-- Nor does starting a node around it. -/
theorem goesOn_precede (hp : p.Live) (node : Completed) : GoesOn node.precede p := by
  unfold Completed.precede
  refine .start hp fun marker q _ => ?_
  refine (leaves_eventAt node.index q).bind ?_
  rintro event _ ⟨rfl, hevent⟩
  rw [← Array.getElem?_toList] at hevent
  split
  · refine .ite (fun _ => trivial) fun _ => ?_
    refine .modify (.pure (Still.onward (.of_source rfl ?_ rfl)))
    rw [Array.toList_setIfInBounds, Event.taken_set hevent]
  · trivial

/-- The node is of its kind in its field, too. -/
theorem leaves_completeInto_still (marker : Marker) (kind : SyntaxKind) (field : Option String)
    (p : Parser) :
    Leaves (marker.complete kind >>= fun node => node.setField field) p fun node q =>
      Still p q ∧ node.IsOf kind q :=
  (leaves_complete_still marker kind p).bind fun _ _ hq =>
    (leaves_setField_still _ field _).mono fun _ _ hr => by
      obtain ⟨rfl, hstill, hkept⟩ := hr
      exact ⟨hq.1.trans hstill, hkept kind hq.2⟩

/-- Completing a node consumes nothing. -/
theorem goesOn_complete (marker : Marker) (kind : SyntaxKind) : GoesOn (marker.complete kind) p :=
  (leaves_complete_still marker kind p).mono fun _ _ hq => hq.1.onward

/-- The same with a field behind it. -/
theorem goesOn_completeInto (marker : Marker) (kind : SyntaxKind) (field : Option String) :
    GoesOn (marker.complete kind >>= fun node => node.setField field) p :=
  (leaves_completeInto_still marker kind field p).mono fun _ _ hq => hq.1.onward

end Parse

/-! ### Skipping and lists -/

open Parse

namespace Recovery

variable {recovery : Recovery}

/-- Recovery takes tokens from the current one on, or none. -/
theorem goesOn_recover (hresumes : Settled recovery.resumes) (hp : p.Live) :
    GoesOn recovery.recover p := by
  have hround : ∀ (depth : Nat) (q : Parser), q.Live → GoesOn (recovery.skip depth) q := by
    intro depth q hq
    have hbump : ∀ r, r.Live → GoesOn (do
        let isOpener ← seesAny openers
        let isCloser ← sees .rBrace
        bump
        return (Round.again
          (if isOpener then depth + 1 else if isCloser then depth - 1 else depth) :
            Round Nat Unit)) r := fun r hr =>
      .stays (stays_seesAny _) fun _ s hs => .stays (stays_sees _) fun _ t ht =>
        (goesOn_bump ((hs.trans ht).reaches.live hr) _ _).bind fun _ _ _ => .pure _
    unfold skip
    refine .stays (stays_sees _) fun _ r hr => .ite (fun _ => .pure _) fun _ => ?_
    have hlive := hr.reaches.live hq
    refine .ite (fun _ => ?_) fun _ => hbump r hlive
    exact .stays ((settled_isSafe hresumes).stays hlive) fun _ s hs =>
      .ite (fun _ => .pure _) fun _ => hbump s (hs.reaches.live hlive)
  unfold recover
  refine .stays (stays_sees _) fun _ q hq => .ite (fun _ => .pure _) fun _ => ?_
  have hlive := hq.reaches.live hp
  refine .stays ((settled_isSafe hresumes).stays hlive) fun _ r hr => .ite (fun _ => .pure _)
    fun _ => .get (.ite (fun _ => .pure _) fun _ => ?_)
  refine .start (hr.reaches.live hlive) fun marker s hs => ?_
  refine GoesOnIn.bind (.loop fun depth t ht => hround depth t (ht.live hs.live)) fun _ _ _ => ?_
  exact (goesOn_complete marker _).bind fun _ _ _ => .pure _

/-- The same with a report in front. -/
theorem goesOn_skipUnexpected (hresumes : Settled recovery.resumes) (hp : p.Live) :
    GoesOn recovery.skipUnexpected p :=
  .stays stays_reportUnexpected fun _ _ hq =>
    (goesOn_recover hresumes (hq.reaches.live hp)).bind fun _ _ _ => .pure _

end Recovery

/-- A list that starts in the context of its items begins with the current
token. -/
theorem ItemList.goesOn_parse {list : ItemList} (h : list.Fits p) (hp : p.Live)
    (hcontext : p.context = list.context) : GoesOn list.parse p := by
  refine .start hp fun marker q hq => ?_
  rw [GoesOn, hq.context, hcontext]
  refine (GoesOnIn.rereading fun progress r hr hcontext' => ?_).bind
    fun _ _ _ => goesOn_complete marker _
  have hlive : r.Live := hr.live hq.live
  refine .stays (stays_sees _) fun _ s hs => .ite (fun _ => .pure _) fun _ => ?_
  refine .stays (h.ends.stays (hs.reaches.live hlive)) fun _ t ht => .ite (fun _ => .pure _)
    fun _ => .stays (stays_mustProgress _) fun _ u hu => ?_
  have hstill : Still r u := (hs.trans ht).trans hu
  have hlive' := hstill.reaches.live hlive
  have hroom := ((hq.reaches.trans hr.reaches).trans hstill.reaches).room_le hp
  have hitem : GoesOn list.item u := .of_yields ((h.item u hlive'
    (hstill.context.trans hcontext') hroom).mono fun _ _ hv => hv.2)
  refine hitem.bind fun _ v hv => .ite (fun _ => .pure _) fun _ => ?_
  refine .stays (h.yields.stays (hv.live hlive')) fun _ w hw => .ite (fun _ => .pure _) fun _ => ?_
  have hskip := Recovery.goesOn_skipUnexpected h.resumes (hw.reaches.live (hv.live hlive'))
  exact hskip.bind fun _ _ _ => .ite (fun _ => .pure _) fun _ => .pure _

/-! ### Nodes and their tokens -/

/-- Read in a context, the current token starts where the lexer finds it. -/
theorem Parser.At.position_relex {seam : Seam} (h : p.At seam) (context : LexContext) :
    (p.relex context).position = (seam.current context).range.start := by
  have hrelex : (p.relex context).At seam := ⟨h.inside, h.stands.relex h.inside⟩
  unfold Parser.position
  rw [hrelex.range, Parser.context_relex]

/-- From `p` to `q` the record grew by one node and nothing else, and the
handle is that node's: its indices are the places of the node's own start
and finish, and of the first event that belongs to it. -/
def Completed.GrownFrom (node : Completed) (p q : Parser) : Prop :=
  ∃ sprout : Sprout, q.events.toList = p.events.toList ++ sprout.events none ∧
    node.PointsAt p.events.toList.length sprout ∧ sprout.Sound

/-- The record grew by the node of a handle. The node starts at the
current token, read in this context, and so does what was consumed. -/
structure Completed.Covers (context : LexContext) (p : Parser) (node : Completed) (q : Parser) :
    Prop where
  grown : node.GrownFrom p q
  offset : node.offset = (p.relex context).position
  onward : Onward context p q

namespace Completed.Covers

variable {node : Completed}

/-- A node with a token has a range: from the start of the token that it
begins with up to where the source is consumed. -/
theorem exists_range (h : node.Covers context p q) (hp : p.Live)
    (htokens : Event.taken q.events.toList ≠ Event.taken p.events.toList) :
    ∃ contexts range, Trace p (context :: contexts) q ∧ node.range q = .ok range q ∧
      node.text q = .ok (q.text.sliceRange range) q ∧
      range.start = (p.relex context).position ∧ range.stop = q.done := by
  obtain ⟨seam, hp⟩ := hp
  have hway : ∃ contexts, Trace p (context :: contexts) q := by
    rcases h.onward with hway | ⟨hway, -⟩
    · exact hway
    · refine absurd ?_ htokens
      rw [(hway.at_ hp).2.2]
      exact List.append_nil _
  obtain ⟨contexts, hway⟩ := hway
  obtain ⟨hq, -, htaken⟩ := hway.at_ hp
  have hlast : (seam.takes (context :: contexts)).getLast?.map (·.2) = some q.done := by
    rw [hq.done]
    exact Seam.getLast?_takes (List.cons_ne_nil _ _)
  have hoffset : node.offset ≤ q.done := by
    rw [h.offset, hp.position_relex, hq.done]
    exact Nat.le_trans (seam.current context).range.start_le_stop
      (Seam.position_le_along (Seam.isInside_pass hp.inside context) contexts)
  obtain ⟨sprout, hevents, hpoints, -⟩ := h.grown
  have hrange := yields_range hevents hpoints htaken hlast hoffset
  have htext := yields_text_of_range hrange
  obtain ⟨_, _, hrange, rfl, rfl⟩ := hrange.exists_ok
  obtain ⟨_, _, htext, rfl, rfl⟩ := htext.exists_ok
  exact ⟨contexts, _, hway, hrange, htext, h.offset, rfl⟩

end Completed.Covers

end MarkupSyntax
