import MarkupSyntax.Parse.Marker

/-!
# `MarkupSyntax.Proofs.Parse.Leaves`: what a step leaves, if it ends

`Parse.Leaves m p post` says of the step `m`, started in `p`, that if it
ends without a fault then its answer and the state that it leaves satisfy
`post`. That it does end is `Parse.Yields`, and needs to know where in the
source the step stands. What a step leaves behind often does not depend
on that, so here a loop needs an invariant and no measure.

`Parse.Idle m` is the case that the step may look ahead, report and read
the current token anew, but neither records anything nor changes how deep
the parse is nested.
-/

set_option autoImplicit false

namespace MarkupSyntax

/-- Two states with the same record, nested equally deep. -/
structure Rests (p q : Parser) : Prop where
  events : q.events = p.events
  depth : q.depth = p.depth
  options : q.options = p.options

namespace Rests

variable {p q r : Parser}

/-- Doing nothing leaves the record alone. -/
theorem refl (p : Parser) : Rests p p := ⟨rfl, rfl, rfl⟩

/-- One step after another. -/
theorem trans (h : Rests p q) (h' : Rests q r) : Rests p r :=
  ⟨h'.events.trans h.events, h'.depth.trans h.depth, h'.options.trans h.options⟩

end Rests

namespace Parse

variable {α β σ : Type} {p q : Parser}

/-- If `m` started in `p` ends without a fault, its answer and the state
it leaves satisfy `post`. -/
def Leaves (m : Parse α) (p : Parser) (post : α → Parser → Prop) : Prop :=
  match m p with
  | .ok answer q => post answer q
  | .error _ _ => True

namespace Leaves

variable {m : Parse α} {f : α → Parse β} {post post' : α → Parser → Prop}
  {post₂ : β → Parser → Prop}

/-- What is known of every answer is known. -/
theorem of_ok (h : ∀ answer q, m p = .ok answer q → post answer q) : Leaves m p post := by
  unfold Leaves
  split
  · exact h _ _ ‹_›
  · trivial

/-- What is left by a run that is known. -/
theorem ok {answer : α} (h : Leaves m p post) (hrun : m p = .ok answer q) : post answer q := by
  unfold Leaves at h
  rwa [hrun] at h

/-- Less may be said. -/
theorem mono (h : Leaves m p post) (himp : ∀ answer q, post answer q → post' answer q) :
    Leaves m p post' :=
  .of_ok fun answer q hrun => himp answer q (h.ok hrun)

/-- An answer is left in the state where it is given. -/
theorem pure {answer : α} (h : post answer p) : Leaves (pure answer) p post := h

/-- A fault leaves nothing to show. -/
theorem throw {fault : Fault} : Leaves (throw fault) p post := trivial

/-- One step after another. Nothing is said if the first one has a fault. -/
theorem bind (h : Leaves m p post) (hf : ∀ answer q, post answer q → Leaves (f answer) q post₂) :
    Leaves (m >>= f) p post₂ := by
  refine of_ok fun answer r hrun => ?_
  replace hrun : EStateM.bind m f p = .ok answer r := hrun
  unfold EStateM.bind at hrun
  split at hrun
  · exact (hf _ _ (h.ok ‹_›)).ok hrun
  · cases hrun

/-- The answer of a step, changed. -/
theorem map {g : α → β} (h : Leaves m p post)
    (himp : ∀ answer q, post answer q → post₂ (g answer) q) : Leaves (g <$> m) p post₂ := by
  rw [← bind_pure_comp]
  exact h.bind fun answer q hpost => .pure (himp answer q hpost)

/-- A step in each case, where the case is known. -/
theorem ite {c : Prop} [Decidable c] {m m' : Parse α} (hthen : c → Leaves m p post)
    (helse : ¬ c → Leaves m' p post) : Leaves (if c then m else m') p post := by
  split
  · exact hthen ‹c›
  · exact helse ‹¬ c›

/-- The state is what it is. -/
theorem get {f : Parser → Parse β} (h : Leaves (f p) p post₂) : Leaves (get >>= f) p post₂ := h

/-- The state is the one that was set. -/
theorem set {f : PUnit → Parse β} (h : Leaves (f .unit) q post₂) :
    Leaves (set q >>= f) p post₂ := h

/-- The state is changed as said. -/
theorem modify {g : Parser → Parser} {f : Unit → Parse β} (h : Leaves (f ()) (g p) post₂) :
    Leaves (modify g >>= f) p post₂ := h

/-- A step followed by a change of the state. -/
theorem ensuring {cleanup : Parser → Parser}
    (h : Leaves m p fun answer q => post answer (cleanup q)) :
    Leaves (Parse.ensuring cleanup m) p post := by
  unfold Leaves Parse.ensuring
  cases hrun : m p with
  | ok answer q => exact h.ok hrun
  | error => trivial

/-- The event at a place of the record. -/
theorem eventAt {index : Nat} {event : Event} {f : Event → Parse β}
    (hevent : p.events[index]? = some event) (h : Leaves (f event) p post₂) :
    Leaves (Parse.eventAt index >>= f) p post₂ := by
  have hknown : Leaves (Parse.eventAt index) p fun found r => found = event ∧ r = p := by
    refine .get ?_
    rw [hevent]
    exact .pure ⟨rfl, rfl⟩
  refine hknown.bind ?_
  rintro _ _ ⟨rfl, rfl⟩
  exact h

/-- A change of a start event. -/
theorem changeStart {index : Nat} {otherwise : Fault}
    {change : SyntaxKind → Option Nat → Option String → Event} {kind : SyntaxKind}
    {parent : Option Nat} {field : Option String} {f : Unit → Parse β}
    (hevent : p.events[index]? = some (.start kind parent field))
    (h : Leaves (f ())
      { p with events := p.events.setIfInBounds index (change kind parent field) } post₂) :
    Leaves (Parse.changeStart index otherwise change >>= f) p post₂ := by
  unfold Parse.changeStart
  rw [bind_assoc]
  exact .eventAt hevent h

/-! ### Loops -/

section Loops

/-- What a round of a loop leaves: the invariant if the loop goes on, and
the property of its result if it ends. -/
def Keeps (inv : σ → Parser → Prop) (post : β → Parser → Prop) : Round σ β → Parser → Prop
  | .again state, q => inv state q
  | .done result, q => post result q

variable {round : σ → Parse (Round σ β)} {post : β → Parser → Prop}

/-- What every round of a loop keeps, its end has. The induction is on
the bound. -/
theorem rounds (inv : σ → Parser → Prop)
    (keeps : ∀ state q, inv state q → Leaves (round state) q (Keeps inv post)) (fuel : Nat) {state : σ} (h : inv state p) :
    Leaves (Parse.rounds round fuel state) p post := by
  induction fuel generalizing state p with
  | zero => exact .throw
  | succ fuel ih =>
    refine (keeps state p h).bind ?_
    rintro (state' | result) q hq
    · exact ih hq
    · exact .pure hq

/-- What each round of a loop keeps is left when the loop ends. -/
theorem loop (inv : σ → Parser → Prop)
    (keeps : ∀ state q, inv state q → Leaves (round state) q (Keeps inv post))
    {state : σ} (h : inv state p) : Leaves (Parse.loop round state) p post :=
  .get (.rounds inv keeps _ h)

end Loops

end Leaves

/-! ### Idle steps -/

/-- The step records nothing, and the parse is nested as deep as before. -/
def Idle (m : Parse α) : Prop := ∀ p, Leaves m p fun _ q => Rests p q

namespace Idle

variable {m : Parse α} {f : α → Parse β}

/-- Answering does nothing else. -/
theorem pure (answer : α) : Idle (pure answer) := fun p => .pure (.refl p)

/-- A fault leaves nothing to say. -/
theorem throw (fault : Fault) : Idle (throw fault : Parse α) := fun _ => .throw

/-- One step after another. -/
theorem bind (h : Idle m) (hf : ∀ answer, Idle (f answer)) : Idle (m >>= f) := fun p =>
  (h p).bind fun answer q hq => (hf answer q).mono fun _ _ hr => hq.trans hr

/-- A step in each case. -/
theorem ite {c : Prop} [Decidable c] {m m' : Parse α} (h : Idle m) (h' : Idle m') :
    Idle (if c then m else m') := fun p => .ite (fun _ => h p) fun _ => h' p

/-- A step that looks at the state. -/
theorem get {f : Parser → Parse β} (hf : ∀ p, Idle (f p)) : Idle (get >>= f) := fun p =>
  .get (hf p p)

/-- A change that leaves the record alone. -/
theorem modify {g : Parser → Parser} (h : ∀ p, Rests p (g p)) : Idle (modify g) := fun p => h p

/-- Whatever the loop knows, its rounds record nothing. -/
theorem loop {round : σ → Parse (Round σ β)} (h : ∀ state, Idle (round state)) (state : σ) :
    Idle (loop round state) := fun p =>
  .loop (fun _ q => Rests p q) (fun state q hq => (h state q).mono fun next r hr => by
    cases next <;> exact hq.trans hr) (.refl p)

end Idle

/-- Looking at the current token. -/
theorem idle_sees (kind : TokenKind) : Idle (sees kind) := fun p => .get (.pure (.refl p))

/-- The same for some kinds. -/
theorem idle_seesAny (kinds : List TokenKind) : Idle (seesAny kinds) := fun p =>
  .get (.pure (.refl p))

/-- Looking ahead, which may read tokens and records none. -/
theorem idle_nthKind (n : Nat) : Idle (nthKind n) := fun _ => .get (.set (.pure ⟨rfl, rfl, rfl⟩))

/-- The same for a kind. -/
theorem idle_nthIs (n : Nat) (kind : TokenKind) : Idle (nthIs n kind) :=
  (idle_nthKind n).bind fun _ => .pure _

/-- The same for trivia. -/
theorem idle_nthAfterTrivia (n : Nat) : Idle (nthAfterTrivia n) := fun _ =>
  .get (.set (.pure ⟨rfl, rfl, rfl⟩))

/-- Looking for a closing tag. -/
theorem idle_seesCloseTag : Idle seesCloseTag :=
  (idle_sees .lessThan).bind fun _ => .ite (idle_nthIs 1 .slash) (.pure false)

/-- Reading the current token in another context. -/
theorem idle_relex (context : LexContext) : Idle (relex context) :=
  .modify fun _ => ⟨rfl, rfl, rfl⟩

/-- A report is no part of the record. -/
theorem idle_report (diagnostic : Diagnostic) : Idle (report diagnostic) :=
  .modify fun _ => ⟨rfl, rfl, rfl⟩

/-- The same at the current token. -/
theorem idle_reportHere (code : Code) : Idle (reportHere code) := .get fun _ => idle_report _

/-- The same with a text. -/
theorem idle_reportWith (code : Code) (message : String) : Idle (reportWith code message) :=
  .get fun _ => idle_report _

/-- The same for a token that is missing. -/
theorem idle_reportExpected (kind : TokenKind) : Idle (reportExpected kind) :=
  .get fun _ => idle_reportWith _ _

/-- The same for a token that should not be there. -/
theorem idle_reportUnexpected : Idle reportUnexpected := .get fun _ => idle_reportWith _ _

/-- The check that a loop goes on. -/
theorem idle_mustProgress (progress : Progress) : Idle (mustProgress progress) :=
  .get fun _ => .ite (.pure _) (.throw _)

/-- A decision is kept at most. -/
theorem idle_remember (rule : String) (offset : Nat) (outcome : Outcome) :
    Idle (modify fun p => p.remember rule offset outcome) := by
  refine .modify fun p => ?_
  unfold Parser.remember Parser.keep
  split
  · exact .refl p
  · split <;> exact ⟨rfl, rfl, rfl⟩

/-- A decision that is remembered or made, if making it leaves the record
alone. -/
theorem idle_memoized {reach : Parse Outcome} (h : Idle reach) (rule : String) :
    Idle (memoized rule reach) := by
  refine .get fun _ => .get fun _ => ?_
  split
  · exact .pure _
  · refine h.bind fun _ => .bind (.modify fun p => ?_) fun _ => .pure _
    unfold Parser.keep
    split <;> exact ⟨rfl, rfl, rfl⟩

/-- Reading the text of a node. -/
theorem idle_text (node : Completed) : Idle node.text := by
  unfold Completed.text Completed.range
  refine .bind (.get fun _ => ?_) fun _ => .get fun _ => .pure _
  dsimp only
  split
  · exact .pure _
  · exact .throw _

end Parse

end MarkupSyntax
