import MarkupSyntax.Parse.Marker

/-!
# `MarkupSyntax.Proofs.Parse.Yields`: parses that raise no fault

`Parse.Yields m p post` says that the step `m`, started in `p`, ends
without a fault, and that its answer and the state it leaves satisfy
`post`. There is one rule for each way to build a step. A loop needs an
invariant and a measure that each further round makes smaller, and the
measure of its first round has to be within the bound that the loop
starts with.
-/

set_option autoImplicit false

namespace MarkupSyntax.Parse

variable {α β σ : Type} {p q : Parser}

/-- `m` started in `p` raises no fault, and its answer and the state it
leaves satisfy `post`. -/
def Yields (m : Parse α) (p : Parser) (post : α → Parser → Prop) : Prop :=
  match m p with
  | .ok answer q => post answer q
  | .error _ _ => False

namespace Yields

variable {m : Parse α} {f : α → Parse β} {post post' : α → Parser → Prop}
  {post₂ : β → Parser → Prop}

/-- A step that yields has an answer. -/
theorem exists_ok (h : Yields m p post) : ∃ answer q, m p = .ok answer q ∧ post answer q := by
  unfold Yields at h
  cases hrun : m p with
  | ok answer q =>
    rw [hrun] at h
    exact ⟨answer, q, rfl, h⟩
  | error fault q =>
    rw [hrun] at h
    exact h.elim

/-- A run that is known yields what is known of it. -/
theorem of_ok {answer : α} (hrun : m p = .ok answer q) (h : post answer q) : Yields m p post := by
  unfold Yields
  rw [hrun]
  exact h

/-- Less may be said. -/
theorem mono (h : Yields m p post) (himp : ∀ answer q, post answer q → post' answer q) :
    Yields m p post' := by
  obtain ⟨answer, q, hrun, hpost⟩ := h.exists_ok
  exact of_ok hrun (himp answer q hpost)

/-! ### Sequences and branches -/

/-- What is known of the answer in two ways. -/
theorem and (h : Yields m p post) (h' : Yields m p post') :
    Yields m p fun answer q => post answer q ∧ post' answer q := by
  obtain ⟨answer, q, hrun, hpost⟩ := h.exists_ok
  unfold Yields at h'
  rw [hrun] at h'
  exact .of_ok hrun ⟨hpost, h'⟩

/-- An answer is yielded in the state where it is given. -/
theorem pure {answer : α} (h : post answer p) : Yields (pure answer) p post := h

/-- One step after another, neither of which has a fault. -/
theorem bind (h : Yields m p post) (hf : ∀ answer q, post answer q → Yields (f answer) q post₂) :
    Yields (m >>= f) p post₂ := by
  obtain ⟨answer, q, hrun, hpost⟩ := h.exists_ok
  obtain ⟨answer', q', hrun', hpost'⟩ := (hf answer q hpost).exists_ok
  refine of_ok ?_ hpost'
  show EStateM.bind m f p = _
  unfold EStateM.bind
  rw [hrun]
  exact hrun'

/-- A step whose answer and outcome are known is followed by the rest. -/
theorem bind_known {answer : α} (h : Yields m p fun given r => given = answer ∧ r = q)
    (hf : Yields (f answer) q post₂) : Yields (m >>= f) p post₂ := by
  refine h.bind ?_
  rintro _ _ ⟨rfl, rfl⟩
  exact hf

/-- The answer of a step, changed. -/
theorem map {g : α → β} (h : Yields m p post)
    (himp : ∀ answer q, post answer q → post₂ (g answer) q) : Yields (g <$> m) p post₂ := by
  obtain ⟨answer, q, hrun, hpost⟩ := h.exists_ok
  refine of_ok ?_ (himp answer q hpost)
  show EStateM.map g m p = _
  unfold EStateM.map
  rw [hrun]

/-- A step in each case, where the case is known. -/
theorem ite {c : Prop} [Decidable c] {m m' : Parse α} (hthen : c → Yields m p post)
    (helse : ¬ c → Yields m' p post) : Yields (if c then m else m') p post := by
  by_cases h : c
  · rw [if_pos h]
    exact hthen h
  · rw [if_neg h]
    exact helse h

/-! ### The state -/

/-- The state is what it is. -/
theorem get {f : Parser → Parse β} (h : Yields (f p) p post₂) : Yields (get >>= f) p post₂ := h

/-- The state is the one that was set. -/
theorem set {f : PUnit → Parse β} (h : Yields (f .unit) q post₂) :
    Yields (set q >>= f) p post₂ := h

/-- The state is changed as said. -/
theorem modify {g : Parser → Parser} {f : Unit → Parse β} (h : Yields (f ()) (g p) post₂) :
    Yields (modify g >>= f) p post₂ := h

/-- A step followed by a change of the state. -/
theorem ensuring {cleanup : Parser → Parser}
    (h : Yields m p fun answer q => post answer (cleanup q)) :
    Yields (Parse.ensuring cleanup m) p post := by
  obtain ⟨answer, q, hrun, hpost⟩ := h.exists_ok
  refine of_ok ?_ hpost
  unfold Parse.ensuring
  rw [hrun]

/-- The event at a place of the record. -/
theorem eventAt {index : Nat} {event : Event} {f : Event → Parse β}
    (hevent : p.events[index]? = some event) (h : Yields (f event) p post₂) :
    Yields (Parse.eventAt index >>= f) p post₂ := by
  have hyields : Yields (Parse.eventAt index) p fun a q => a = event ∧ q = p := by
    unfold Parse.eventAt
    refine get ?_
    rw [hevent]
    exact ⟨rfl, rfl⟩
  refine hyields.bind ?_
  intro _ _ hpost
  obtain ⟨rfl, rfl⟩ := hpost
  exact h

/-- A change of a start event. -/
theorem changeStart {index : Nat} {otherwise : Fault}
    {change : SyntaxKind → Option Nat → Option String → Event} {kind : SyntaxKind}
    {parent : Option Nat} {field : Option String} {f : Unit → Parse β}
    (hevent : p.events[index]? = some (.start kind parent field))
    (h : Yields (f ())
      { p with events := p.events.setIfInBounds index (change kind parent field) } post₂) :
    Yields (Parse.changeStart index otherwise change >>= f) p post₂ := by
  unfold Parse.changeStart
  rw [bind_assoc]
  exact eventAt hevent h

end Yields

/-! ### Loops -/

section Loops

variable {round : σ → Parse (Round σ β)} {post : β → Parser → Prop}

/-- What a round of a loop has to do: end with a result, or go on with
the invariant and a smaller measure. -/
def RoundKeeps (round : σ → Parse (Round σ β)) (inv : σ → Parser → Prop)
    (measure : σ → Parser → Nat) (post : β → Parser → Prop) : Prop :=
  ∀ state p, inv state p → Yields (round state) p fun next q =>
    match next with
    | .again state' => inv state' q ∧ measure state' q < measure state p
    | .done result => post result q

/-- Rounds end within any bound above the measure. The induction is on
the bound. -/
theorem yields_rounds {inv : σ → Parser → Prop} {measure : σ → Parser → Nat}
    (keeps : RoundKeeps round inv measure post)
    {fuel : Nat} {state : σ} (h : inv state p) (enough : measure state p < fuel) :
    Yields (rounds round fuel state) p post := by
  induction fuel generalizing state p with
  | zero => exact absurd enough (Nat.not_lt_zero _)
  | succ fuel ih =>
    unfold rounds
    refine (keeps state p h).bind ?_
    rintro (state' | result) q hq
    · exact ih hq.1 (by have := hq.2; omega)
    · exact .pure hq

/-- A loop ends without a fault if each round keeps an invariant and lowers a
measure, which is below the length of the source at the start. -/
theorem yields_loop (inv : σ → Parser → Prop) (measure : σ → Parser → Nat)
    (keeps : RoundKeeps round inv measure post) {state : σ} (h : inv state p)
    (enough : measure state p < p.text.length + 3) :
    Yields (loop round state) p post := by
  unfold loop
  refine .get ?_
  exact yields_rounds keeps h enough

/-- A step run as long as it answers true. -/
theorem yields_whileTrue {step : Parse Bool} {post : Parser → Prop} (inv : Parser → Prop)
    (measure : Parser → Nat)
    (keeps : ∀ p, inv p → Yields step p fun again q =>
      if again then inv q ∧ measure q < measure p else post q)
    (h : inv p) (enough : measure p < p.text.length + 3) :
    Yields (whileTrue step) p fun _ q => post q := by
  unfold whileTrue
  refine yields_loop (fun _ q => inv q) (fun _ q => measure q) ?_ h enough
  intro _ p hp
  refine (keeps p hp).bind ?_
  rintro (_ | _) q hq
  · exact .pure hq
  · exact .pure hq

end Loops

end MarkupSyntax.Parse
