import MarkupSyntax.Proofs.Parse.Leaves
import MarkupSyntax.Proofs.Parse.Steps

/-!
# `MarkupSyntax.Proofs.Parse.Forgets`: steps that remember nothing

A decision that was remembered is not reached anew. So where a decision
is to be reached, nothing may have been remembered before, and a rule that
is read in front of it has to leave the memo alone (`Parse.Forgets`). All
steps do but those that remember, and what is made of such steps does so,
too.
-/

set_option autoImplicit false

namespace MarkupSyntax.Parse

variable {α β σ : Type} {p q : Parser}

/-- The step leaves the memo alone. -/
def Forgets (m : Parse α) : Prop := ∀ p, Leaves m p fun _ q => q.memo = p.memo

/-- What a step that remembers nothing yields. -/
theorem Yields.forgets {m : Parse α} {post : α → Parser → Prop} (h : Yields m p post)
    (hm : Forgets m) : Yields m p fun answer q => post answer q ∧ q.memo = p.memo := by
  obtain ⟨answer, q, hrun, hpost⟩ := h.exists_ok
  exact .of_ok hrun ⟨hpost, (hm p).ok hrun⟩

namespace Forgets

variable {m m' : Parse α} {f : α → Parse β}

/-- Answering leaves the memo alone. -/
theorem pure (answer : α) : Forgets (pure answer) := fun _ => .pure rfl

/-- A fault leaves nothing to say. -/
theorem throw (fault : Fault) : Forgets (throw fault : Parse α) := fun _ => .throw

/-- One step after another. -/
theorem bind (h : Forgets m) (hf : ∀ answer, Forgets (f answer)) : Forgets (m >>= f) := fun p =>
  (h p).bind fun answer q hq => (hf answer q).mono fun _ _ hr => hr.trans hq

/-- A step in each case. -/
theorem ite {c : Prop} [Decidable c] (h : Forgets m) (h' : Forgets m') :
    Forgets (if c then m else m') := fun p => .ite (fun _ => h p) fun _ => h' p

/-- A step that looks at the state. -/
theorem get {f : Parser → Parse β} (hf : ∀ p, Forgets (f p)) : Forgets (get >>= f) := fun p =>
  .get (hf p p)

/-- A change of the state that leaves the memo alone. -/
theorem modify {g : Parser → Parser} (h : ∀ p, (g p).memo = p.memo) : Forgets (modify g) :=
  fun p => h p

/-- Whatever the loop knows, its rounds remember nothing. -/
theorem loop {round : σ → Parse (Round σ β)} (h : ∀ state, Forgets (round state)) (state : σ) :
    Forgets (loop round state) := fun p =>
  .loop (fun _ q => q.memo = p.memo) (fun state q hq => (h state q).mono fun next r hr => by
    cases next <;> exact hr.trans hq) rfl

/-- Steps that are repeated while they succeed. -/
theorem whileTrue {step : Parse Bool} (h : Forgets step) : Forgets (whileTrue step) :=
  loop (fun _ => h.bind fun _ => .ite (.pure _) (.pure _)) ()

end Forgets

/-! ### Steps -/

/-- Looking at the current token decides nothing. -/
theorem forgets_sees (kind : TokenKind) : Forgets (sees kind) := fun _ => .get (.pure rfl)

/-- Looking ahead decides nothing. -/
theorem forgets_nthIs (n : Nat) (kind : TokenKind) : Forgets (nthIs n kind) := by
  have hkind : Forgets (nthKind n) := fun _ => .get (.set (.pure rfl))
  exact hkind.bind fun _ => .pure _

/-- Consuming a token decides nothing. -/
theorem forgets_bump (context : LexContext) (field : Option String) (kind : Option SyntaxKind) :
    Forgets (bump context field kind) := .modify fun p => p.memo_bump ..

/-- Starting a marker decides nothing. -/
theorem forgets_start : Forgets start := fun _ => .get (.set (.pure rfl))

/-- Reading the record decides nothing. -/
theorem forgets_eventAt (index : Nat) : Forgets (eventAt index) := .get fun p => by
  split
  · exact .pure _
  · exact .throw _

/-- Changing a start event decides nothing. -/
theorem forgets_changeStart (index : Nat) (otherwise : Fault)
    (change : SyntaxKind → Option Nat → Option String → Event) :
    Forgets (changeStart index otherwise change) := by
  refine (forgets_eventAt index).bind fun event => ?_
  split
  · exact .modify fun _ => rfl
  · exact .throw _

/-- Completing a marker decides nothing. -/
theorem forgets_complete (marker : Marker) (kind : SyntaxKind) : Forgets (marker.complete kind) :=
  Forgets.bind (forgets_changeStart _ _ _) fun _ => Forgets.get fun _ =>
    Forgets.bind (.modify fun _ => rfl) fun _ => .pure _

/-- Giving up a marker decides nothing. -/
theorem forgets_abandon (marker : Marker) : Forgets marker.abandon := by
  intro p
  unfold Marker.abandon
  refine .get (.ite (fun _ => ?_) fun _ => ?_)
  on_goal 1 => split
  on_goal 1 => refine .set ?_
  -- Whether or not the last event was dropped, the first child is looked at.
  all_goals
    split
    · exact .pure rfl
    · refine (forgets_eventAt _ _).bind fun event q hq => ?_
      split
      · exact hq
      · exact .pure hq

/-- Setting a field decides nothing. -/
theorem forgets_setField (node : Completed) (field : Option String) :
    Forgets (node.setField field) :=
  Forgets.bind (forgets_changeStart _ _ _) fun _ => .pure _

/-- The same with a field that is given. -/
theorem forgets_into (node : Completed) (field : String) : Forgets (node.into field) :=
  (forgets_setField node _).bind fun _ => .pure _

/-- A node for something missing decides nothing. -/
theorem forgets_missing (field : Option String) (code : Code) : Forgets (missing field code) := by
  have hreport : Forgets (reportHere code) := .get fun _ => .modify fun _ => rfl
  exact hreport.bind fun _ => forgets_start.bind fun marker => (forgets_complete marker _).bind
    fun node => forgets_setField node field

end MarkupSyntax.Parse
