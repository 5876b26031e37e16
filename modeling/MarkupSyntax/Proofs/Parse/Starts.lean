import MarkupSyntax.Proofs.Parse.Leaves

/-!
# `MarkupSyntax.Proofs.Parse.Starts`: where the nodes start that a step answers with

A marker has the offset of the token that was current when it was
started. Completing the node, putting it into a field and starting a node
around it keep that offset, and nothing that is parsed in between plays a
part. So all that has to be said of most steps is what their answer is,
whatever state they start in (`Parse.Answers`).

`Parse.Starts m` and `Parse.MayStart m` say that the node starts at the
token that is current when `m` starts. In front of the marker there may be
steps that stay at that token (`Parse.Stands`).
-/

set_option autoImplicit false

namespace MarkupSyntax.Parse

variable {α β σ : Type} {m : Parse α} {f : α → Parse β} {P : α → Prop} {Q : β → Prop}

/-- Whatever state the step starts in, its answer satisfies `P`. -/
def Answers (m : Parse α) (P : α → Prop) : Prop := ∀ p, Leaves m p fun answer _ => P answer

namespace Answers

/-- An answer is what it is. -/
theorem pure {answer : α} (h : P answer) : Answers (pure answer) P := fun _ => .pure h

/-- Less may be said of the answer. -/
theorem mono {P' : α → Prop} (h : Answers m P) (himp : ∀ answer, P answer → P' answer) :
    Answers m P' := fun p => (h p).mono fun answer _ => himp answer

/-- One step after another, with what the first one answers. -/
theorem bind (h : Answers m P) (hf : ∀ answer, P answer → Answers (f answer) Q) :
    Answers (m >>= f) Q := fun p =>
  (h p).bind fun answer q hanswer => hf answer hanswer q

/-- Whatever was done before, only what follows has to be known. -/
theorem after (hf : ∀ answer, Answers (f answer) Q) : Answers (m >>= f) Q := fun p =>
  have hany : Leaves m p fun _ _ => True := .of_ok fun _ _ _ => trivial
  hany.bind fun answer q _ => hf answer q

/-- A step in each case. -/
theorem ite {c : Prop} [Decidable c] {m m' : Parse α} (h : Answers m P) (h' : Answers m' P) :
    Answers (if c then m else m') P := fun p => .ite (fun _ => h p) fun _ => h' p

/-- What a round of a loop goes on with, or ends with. -/
def Round (R : σ → Prop) (Q : β → Prop) : Parse.Round σ β → Prop
  | .again state => R state
  | .done result => Q result

/-- A loop answers as asked if its rounds keep a property of their state. -/
theorem loop {round : σ → Parse (Parse.Round σ β)} {state : σ} (R : σ → Prop)
    (hround : ∀ state, R state → Answers (round state) (Round R Q)) (h : R state) :
    Answers (loop round state) Q := fun _ =>
  .loop (fun state _ => R state) (fun state q hstate => (hround state hstate q).mono
    fun next _ hnext => by cases next <;> exact hnext) h

end Answers

/-! ### Handles of nodes -/

/-- The handle of a completed node has the offset of its marker. -/
theorem answers_complete (marker : Marker) (kind : SyntaxKind) :
    Answers (marker.complete kind) fun node => node.offset = marker.offset :=
  .after fun _ => .after fun _ => .after fun _ => .pure rfl

/-- Setting a field answers with the same handle. -/
theorem answers_setField (node : Completed) (field : Option String) :
    Answers (node.setField field) fun node' => node' = node :=
  .after fun _ => .pure rfl

/-- A node around another one starts where that one does. -/
theorem answers_precede (node : Completed) :
    Answers node.precede fun marker => marker.offset = node.offset := by
  unfold Completed.precede
  refine .after fun marker => .after fun event => ?_
  have hend : ∀ first : Nat, Answers
      (pure { marker with child := some node.index, offset := node.offset, firstEvent := first })
      fun marker => marker.offset = node.offset := fun _ => .pure rfl
  split
  · refine .ite (.after fun _ => ?_) (.after fun _ => ?_)
    · exact .after fun _ => hend _
    · exact hend _
  · exact .after fun _ => hend _

/-- The same for a node that is completed and goes into a field. -/
theorem answers_completeInto (marker : Marker) (kind : SyntaxKind) (field : Option String) :
    Answers (marker.complete kind >>= fun node => node.setField field) fun node =>
      node.offset = marker.offset :=
  (answers_complete marker kind).bind fun _ hnode =>
    (answers_setField _ field).mono fun _ hsame => hsame ▸ hnode

/-- There is a node, and it starts at this offset. -/
def StartsAt (offset : Nat) (result : Option Completed) : Prop :=
  ∃ node, result = some node ∧ node.offset = offset

/-- The node of a marker, in a field, as an answer that could have been
missing. -/
theorem answers_offer (marker : Marker) (kind : SyntaxKind) (field : Option String) :
    Answers (marker.complete kind >>= fun node => node.setField field >>= fun node =>
      pure (some node)) (StartsAt marker.offset) :=
  (answers_complete marker kind).bind fun _ hnode => (answers_setField _ field).bind
    fun _ hsame => .pure ⟨_, rfl, hsame ▸ hnode⟩

/-! ### Steps that start a node -/

/-- The step stays at the current token. -/
def Stands (m : Parse α) : Prop := ∀ p, Leaves m p fun _ q => q.position = p.position

/-- The node that the step answers with starts at the token that was
current. -/
def Starts (m : Parse Completed) : Prop := ∀ p, Leaves m p fun node _ => node.offset = p.position

/-- The node starts at the token that was current in `p`, or there is none
and the parse is at that token still. -/
def Found (p : Parser) : Option Completed → Parser → Prop
  | some node, _ => node.offset = p.position
  | none, q => q.position = p.position

/-- The step answers with a node that starts at the current token, or stays
there. -/
def MayStart (m : Parse (Option Completed)) : Prop := ∀ p, Leaves m p (Found p)

/-- What is found at a place is found there after a step that stands there. -/
theorem Found.after {p q r : Parser} {result : Option Completed} (h : Found q result r)
    (hq : q.position = p.position) : Found p result r := by
  cases result with
  | some node => exact h.trans hq
  | none => exact h.trans hq

/-- A node that starts at the current token is found there. -/
theorem StartsAt.found {p q : Parser} {result : Option Completed} (h : StartsAt p.position result) :
    Found p result q := by
  obtain ⟨node, rfl, hnode⟩ := h
  exact hnode

namespace Stands

/-- Answering stands still. -/
theorem pure (answer : α) : Stands (pure answer) := fun _ => .pure rfl

/-- One step after another. -/
theorem bind (h : Stands m) (hf : ∀ answer, Stands (f answer)) : Stands (m >>= f) := fun p =>
  (h p).bind fun answer q hq => (hf answer q).mono fun _ _ hr => hr.trans hq

/-- A step in each case. -/
theorem ite {c : Prop} [Decidable c] {m m' : Parse α} (h : Stands m) (h' : Stands m') :
    Stands (if c then m else m') := fun p => .ite (fun _ => h p) fun _ => h' p

/-- A step that looks at the state. -/
theorem get {f : Parser → Parse β} (hf : ∀ p, Stands (f p)) : Stands (get >>= f) := fun p =>
  .get (hf p p)

/-- A change that leaves the position. -/
theorem modify {g : Parser → Parser} (h : ∀ p, (g p).position = p.position) : Stands (modify g) :=
  fun p => h p

/-- A loop stands still if each round does. -/
theorem loop {round : σ → Parse (Parse.Round σ β)} (h : ∀ state, Stands (round state))
    (state : σ) : Stands (loop round state) := fun p =>
  .loop (fun _ q => q.position = p.position) (fun state q hq => (h state q).mono
    fun next _ hr => by cases next <;> exact hr.trans hq) rfl

end Stands

/-- Looking at the current token stands still. -/
theorem stands_sees (kind : TokenKind) : Stands (sees kind) := .get fun _ => .pure _

/-- The same for some kinds. -/
theorem stands_seesAny (kinds : List TokenKind) : Stands (seesAny kinds) := .get fun _ => .pure _

/-- Looking ahead stands still. -/
theorem stands_nthKind (n : Nat) : Stands (nthKind n) := by
  intro p
  have hcurrent : (p.source.nthKind n).2.current = p.source.current := by
    unfold TokenSource.nthKind
    split <;> rfl
  exact .get (.set (.pure (congrArg (fun current => current.range.start) hcurrent)))

/-- The same for a kind. -/
theorem stands_nthIs (n : Nat) (kind : TokenKind) : Stands (nthIs n kind) :=
  (stands_nthKind n).bind fun _ => .pure _

/-- The same for trivia. -/
theorem stands_nthAfterTrivia (n : Nat) : Stands (nthAfterTrivia n) := by
  intro p
  have hrange : ∀ (source : TokenSource) (n : Nat), (source.nthRange n).2.current = source.current := by
    intro source n
    unfold TokenSource.nthRange
    split <;> rfl
  have hcurrent : (p.source.nthAfterTrivia n).2.current = p.source.current := by
    unfold TokenSource.nthAfterTrivia
    split
    · rfl
    · exact (hrange _ _).trans (hrange _ _)
  exact .get (.set (.pure (congrArg (fun current => current.range.start) hcurrent)))

/-- Looking for a closing tag stands still. -/
theorem stands_seesCloseTag : Stands seesCloseTag :=
  (stands_sees .lessThan).bind fun _ => .ite (stands_nthIs 1 .slash) (.pure false)

/-- A report stands still. -/
theorem stands_report (diagnostic : Diagnostic) : Stands (report diagnostic) :=
  .modify fun _ => rfl

/-- The same at the current token. -/
theorem stands_reportHere (code : Code) : Stands (reportHere code) := .get fun _ => stands_report _

/-- Entering a level stands still. -/
theorem stands_enterNesting : Stands enterNesting := fun _ =>
  .get (.ite (fun _ => .pure rfl) fun _ => .set (.pure rfl))

/-- A marker has the offset of the current token. -/
theorem leaves_marker (p : Parser) :
    Leaves start p fun marker q => marker.offset = p.position ∧ q.position = p.position :=
  .get (.set (.pure ⟨rfl, rfl⟩))

namespace Starts

variable {f : α → Parse Completed}

/-- A node is started, and the answer is what its marker becomes. -/
theorem start {f : Marker → Parse Completed}
    (hf : ∀ marker, Answers (f marker) fun node => node.offset = marker.offset) :
    Starts (start >>= f) := fun p =>
  (leaves_marker p).bind fun marker q hmarker => (hf marker q).mono
    fun _ _ hnode => hnode.trans hmarker.1

/-- A step that stands still in front does not matter. -/
theorem after (h : Stands m) (hf : ∀ answer, Starts (f answer)) : Starts (m >>= f) := fun p =>
  (h p).bind fun answer q hq => (hf answer q).mono fun _ _ hnode => hnode.trans hq

/-- A step in each case. -/
theorem ite {c : Prop} [Decidable c] {m m' : Parse Completed} (h : Starts m) (h' : Starts m') :
    Starts (if c then m else m') := fun p => .ite (fun _ => h p) fun _ => h' p

/-- The same node in a field. -/
theorem setField {m : Parse Completed} (h : Starts m) (field : Option String) :
    Starts (m >>= fun node => node.setField field) := fun p =>
  (h p).bind fun node q hnode => (answers_setField node field q).mono
    fun _ _ hsame => hsame ▸ hnode

/-- The node as an answer that could have been missing. -/
theorem mayStart {m : Parse Completed} (h : Starts m) :
    MayStart (m >>= fun node => pure (some node)) := fun p =>
  (h p).bind fun _ _ hnode => .pure hnode

/-- What is made of a node, or what stands for it where there is none. -/
theorem ofMayStart {m : Parse (Option Completed)} {f : Option Completed → Parse Completed}
    (h : MayStart m) (hsome : ∀ node, Answers (f (some node)) fun node' => node'.offset = node.offset)
    (hnone : Starts (f none)) : Starts (m >>= f) := fun p => (h p).bind fun result q hresult => by
  cases result with
  | some node =>
    have hnode : node.offset = p.position := hresult
    exact hnode ▸ hsome node q
  | none =>
    have hq : q.position = p.position := hresult
    exact hq ▸ hnone q

end Starts

namespace MayStart

variable {f : α → Parse (Option Completed)}

/-- No node may be answered. -/
theorem none_ : MayStart (pure none) := fun _ => .pure rfl

/-- A rule that starts a marker and answers with the node of it, or with
none. -/
theorem start {f : Marker → Parse (Option Completed)}
    (hf : ∀ marker, Answers (f marker) (StartsAt marker.offset)) : MayStart (start >>= f) :=
  fun p => (leaves_marker p).bind fun marker q hmarker => (hf marker q).mono
    fun _ _ hresult => (hmarker.1 ▸ hresult).found

/-- A step that stands still in front does not matter. -/
theorem after (h : Stands m) (hf : ∀ answer, MayStart (f answer)) : MayStart (m >>= f) := fun p =>
  (h p).bind fun answer q hq => (hf answer q).mono fun _ _ hresult => hresult.after hq

/-- A step in each case. -/
theorem ite {c : Prop} [Decidable c] {m m' : Parse (Option Completed)} (h : MayStart m)
    (h' : MayStart m') : MayStart (if c then m else m') := fun p =>
  .ite (fun _ => h p) fun _ => h' p

/-- A step that looks at the state. -/
theorem get {f : Parser → Parse (Option Completed)} (hf : ∀ p, MayStart (f p)) :
    MayStart (get >>= f) := fun p => .get (hf p p)

/-- What is made of a node starts where it does; where there is none the
parse goes on at the same token. -/
theorem andThen {m : Parse (Option Completed)} {f : Option Completed → Parse (Option Completed)}
    (h : MayStart m) (hsome : ∀ node, Answers (f (some node)) (StartsAt node.offset))
    (hnone : MayStart (f none)) : MayStart (m >>= f) := fun p => (h p).bind fun result q hresult => by
  cases result with
  | some node =>
    have hnode : node.offset = p.position := hresult
    exact (hsome node q).mono fun _ _ hstarts => (hnode ▸ hstarts).found
  | none => exact (hnone q).mono fun _ _ hfound => hfound.after hresult

/-- What is done in any case behind a rule leaves its answer. -/
theorem ensuring {m : Parse (Option Completed)} {cleanup : Parser → Parser} (h : MayStart m)
    (hcleanup : ∀ p, (cleanup p).position = p.position) : MayStart (ensuring cleanup m) := fun p =>
  .ensuring ((h p).mono fun result q hresult => by
    cases result with
    | some node => exact hresult
    | none => exact (hcleanup q).trans hresult)

end MayStart

end MarkupSyntax.Parse
