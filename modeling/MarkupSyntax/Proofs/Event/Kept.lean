import MarkupSyntax.Proofs.Parse.Trace

/-!
# `MarkupSyntax.Proofs.Event.Kept`: what becomes of a record later

A record of events only grows, but the start events that it has can still
change: a node that was started gets its kind when it is completed, a
completed node can be put into a field, and it can get a parent that
starts later. `Event.Kept` says which changes of one event these are, and
`Event.KeptIn events later` says that the record `later` begins with these
events, changed in no other way.

What a record tells is kept then, as far as it goes: which tokens were
consumed (`KeptIn.taken_take`), and where the node ends that is open at
some place of it (`KeptIn.closing_eq`).

A start event names the start of its parent by the distance to it.
`Event.IsClosed` says that all these names are resolved within the record,
and `Event.IsParent` that a place is named so. A change of a record that
keeps it can add a name only for a place behind the record, so no place in
it becomes a parent that was none (`KeptIn.not_isParent`).
-/

set_option autoImplicit false

namespace MarkupSyntax

namespace Event

variable {event event' event'' : Event} {events events' later front behind : List Event}
  {room room' place depth : Nat}

/-! ### Changes of one event -/

/-- What may become of an event that has `room - 1` events behind it in
its record. A node gets a kind if it had none, goes into a field, and
gets a parent if it had none. The parent starts behind the record. -/
inductive Kept (room : Nat) : Event → Event → Prop
  | token (kind : SyntaxKind) (stop : Nat) (field : Option String) :
    Kept room (.token kind stop field) (.token kind stop field)
  | finish : Kept room .finish .finish
  | start {kind kind' : SyntaxKind} {parent parent' : Option Nat}
    {field field' : Option String}
    (same_kind : kind ≠ .tombstone → kind' = kind)
    (same_parent : parent' = parent ∨
      parent = none ∧ ∀ distance ∈ parent', room ≤ distance) :
    Kept room (.start kind parent field) (.start kind' parent' field')

namespace Kept

/-- An event that stays as it is is kept. -/
theorem refl (event : Event) : Kept room event event := by
  cases event with
  | start => exact .start (fun _ => rfl) (.inl rfl)
  | token => exact .token ..
  | finish => exact .finish

/-- In a shorter record less is asked for. -/
theorem mono (h : Kept room event event') (hle : room' ≤ room) : Kept room' event event' := by
  cases h with
  | token => exact .token ..
  | finish => exact .finish
  | start same_kind same_parent =>
    exact .start same_kind (same_parent.imp_right fun ⟨hnone, hroom⟩ =>
      ⟨hnone, fun distance hmem => Nat.le_trans hle (hroom distance hmem)⟩)

/-- What is kept twice is kept. A node gets its kind once and its parent once,
so the later change finds what the earlier one left. -/
theorem trans (h : Kept room event event') (h' : Kept room event' event'') :
    Kept room event event'' := by
  cases h with
  | token => exact h'
  | finish => exact h'
  | start same_kind same_parent =>
    cases h' with
    | start same_kind' same_parent' =>
      refine .start (fun hreal => ?_) ?_
      · have hkind := same_kind hreal
        rw [same_kind' (hkind ▸ hreal), hkind]
      · rcases same_parent with rfl | hfresh
        · exact same_parent'
        · rcases same_parent' with rfl | ⟨-, hroom⟩
          · exact .inr hfresh
          · exact .inr ⟨hfresh.1, hroom⟩

end Kept

/-! ### Changes of a record -/

/-- The record `later` begins with these events, each of them kept. -/
inductive KeptIn : List Event → List Event → Prop
  | nil (later : List Event) : KeptIn [] later
  | cons {event event' : Event} {events later : List Event}
    (first : Kept (events.length + 1) event event') (rest : KeptIn events later) :
    KeptIn (event :: events) (event' :: later)

namespace KeptIn

/-- A record that goes on is kept. -/
theorem append (events behind : List Event) : KeptIn events (events ++ behind) := by
  induction events with
  | nil => exact .nil _
  | cons event rest ih => exact .cons (.refl event) ih

/-- A record that stays as it is is kept. -/
theorem refl (events : List Event) : KeptIn events events := by
  have happend := append events []
  rwa [List.append_nil] at happend

/-- A record that keeps another is as long at least. -/
theorem length_le (h : KeptIn events later) : events.length ≤ later.length := by
  induction h with
  | nil => exact Nat.zero_le _
  | cons _ _ ih => exact Nat.succ_le_succ ih

/-- What is kept twice is kept. Asking for parents behind the longer record asks
for more, so the later changes are changes of the shorter one, too
(`Kept.mono`). -/
theorem trans {last : List Event} (h : KeptIn events later) (h' : KeptIn later last) :
    KeptIn events last := by
  induction h generalizing last with
  | nil => exact .nil _
  | cons first rest ih =>
    cases h' with
    | cons first' rest' =>
      exact .cons (first.trans (first'.mono (Nat.succ_le_succ rest.length_le))) (ih rest')

/-- What stands at a place of the record is kept there. -/
theorem exists_getElem? (h : KeptIn events later) (hevent : events[place]? = some event) :
    ∃ event', later[place]? = some event' ∧ Kept (events.length - place) event event' := by
  induction h generalizing place with
  | nil => cases hevent
  | cons first rest ih =>
    cases place with
    | zero =>
      rw [List.getElem?_cons_zero, Option.some.injEq] at hevent
      exact ⟨_, rfl, hevent ▸ first⟩
    | succ place =>
      obtain ⟨event', hlater, hkept⟩ := ih hevent
      refine ⟨event', hlater, ?_⟩
      rwa [List.length_cons, Nat.add_sub_add_right]

/-- The record without its last events. -/
theorem left (h : KeptIn (front ++ behind) later) : KeptIn front later := by
  induction front generalizing later with
  | nil => exact .nil _
  | cons event front ih =>
    cases h with
    | cons first rest =>
      have hle : front.length ≤ (front ++ behind).length := by
        rw [List.length_append]
        exact Nat.le_add_right _ _
      exact .cons (first.mono (Nat.succ_le_succ hle)) (ih rest)

/-- The record without its first events. -/
theorem right {front' : List Event} (h : KeptIn (front ++ behind) (front' ++ later))
    (hlength : front.length = front'.length) : KeptIn behind later := by
  induction front generalizing front' with
  | nil =>
    obtain rfl := List.length_eq_zero_iff.mp hlength.symm
    exact h
  | cons event front ih =>
    cases front' with
    | nil => cases hlength
    | cons event' front' =>
      cases h with
      | cons _ rest => exact ih rest (Nat.succ.inj hlength)

/-- Another start event that keeps the one at its place. -/
theorem set (hevent : events[place]? = some event)
    (hkept : Kept (events.length - place) event event') :
    KeptIn events (events.set place event') := by
  induction events generalizing place with
  | nil => cases hevent
  | cons first rest ih =>
    cases place with
    | zero =>
      rw [List.getElem?_cons_zero, Option.some.injEq] at hevent
      exact .cons (hevent ▸ hkept) (.refl rest)
    | succ place =>
      rw [List.length_cons, Nat.add_sub_add_right] at hkept
      exact .cons (.refl first) (ih hevent hkept)

/-- The tokens of the record are kept, and no other token comes between
them. -/
theorem taken_take (h : KeptIn events later) :
    taken (later.take events.length) = taken events := by
  induction h with
  | nil => rfl
  | @cons event event' events later first rest ih =>
    have hfirst : taken [event'] = taken [event] := by
      cases first <;> rfl
    show taken ([event'] ++ later.take events.length) = taken ([event] ++ events)
    rw [taken_append, taken_append, ih, hfirst]

end KeptIn

/-! ### Where nodes end -/

/-- The number of events before the finish of the node that is open, with
so many more open in it. -/
def closing : (depth : Nat) → List Event → Option Nat
  | _, [] => none
  | depth, .start .. :: rest => (closing (depth + 1) rest).map (· + 1)
  | depth, .token .. :: rest => (closing depth rest).map (· + 1)
  | 0, .finish :: _ => some 0
  | depth + 1, .finish :: rest => (closing depth rest).map (· + 1)

/-- A node ends in the later record where it ended before. -/
theorem KeptIn.closing_eq {count : Nat} (h : KeptIn events later)
    (hcount : closing depth events = some count) : closing depth later = some count := by
  induction h generalizing depth count with
  | nil => cases hcount
  | cons first rest ih =>
    cases first with
    | start =>
      obtain ⟨count, hinner, rfl⟩ := Option.map_eq_some_iff.mp hcount
      exact congrArg (Option.map (· + 1)) (ih hinner)
    | token =>
      obtain ⟨count, hinner, rfl⟩ := Option.map_eq_some_iff.mp hcount
      exact congrArg (Option.map (· + 1)) (ih hinner)
    | finish =>
      cases depth with
      | zero => exact hcount
      | succ depth =>
        obtain ⟨count, hinner, rfl⟩ := Option.map_eq_some_iff.mp hcount
        exact congrArg (Option.map (· + 1)) (ih hinner)

/-! ### Names of parents -/

/-- A start event before the place names the place as the start of its
parent. -/
def IsParent (events : List Event) (place : Nat) : Prop :=
  ∃ index distance kind field, index < place ∧ index + distance = place ∧
    events[index]? = some (.start kind (some distance) field)

/-- All parents that are named in the record start in it. -/
def IsClosed (events : List Event) : Prop :=
  ∀ index distance kind field, events[index]? = some (.start kind (some distance) field) →
    index + distance < events.length

/-- The names stay with more events around. -/
theorem IsParent.among (h : IsParent events place) (front behind : List Event) :
    IsParent (front ++ (events ++ behind)) (front.length + place) := by
  obtain ⟨index, distance, kind, field, hlt, hplace, hevent⟩ := h
  refine ⟨front.length + index, distance, kind, field, by omega, by omega, ?_⟩
  have hindex := (List.getElem?_eq_some_iff.mp hevent).1
  rw [List.getElem?_append_right (Nat.le_add_right _ _), Nat.add_sub_cancel_left,
    List.getElem?_append_left hindex]
  exact hevent

namespace IsClosed

/-- There is no name in an empty record. -/
theorem nil : IsClosed [] := fun _ _ _ _ hevent => nomatch hevent

/-- One more event in front, which names no parent or one in the record. -/
theorem cons (h : IsClosed events)
    (hevent : ∀ kind distance field, event = .start kind (some distance) field →
      distance ≤ events.length) : IsClosed (event :: events) := by
  intro index distance kind field hindex
  cases index with
  | zero =>
    rw [List.getElem?_cons_zero, Option.some.injEq] at hindex
    have := hevent kind distance field hindex
    rw [List.length_cons]
    omega
  | succ index =>
    have := h index distance kind field hindex
    rw [List.length_cons]
    omega

/-- A finish names no parent. -/
theorem cons_finish (h : IsClosed events) : IsClosed (.finish :: events) := by
  refine h.cons fun kind distance field heq => ?_
  cases heq

/-- A start without a kind and a parent names none, either. -/
theorem cons_pending (h : IsClosed events) : IsClosed (.pending :: events) := by
  refine h.cons fun kind distance field heq => ?_
  cases heq

/-- Two records that resolve their names do so one after the other. -/
theorem append (h : IsClosed front) (h' : IsClosed behind) : IsClosed (front ++ behind) := by
  intro index distance kind field hevent
  rw [List.length_append]
  by_cases hlt : index < front.length
  · rw [List.getElem?_append_left hlt] at hevent
    have := h index distance kind field hevent
    omega
  · rw [List.getElem?_append_right (Nat.le_of_not_lt hlt)] at hevent
    have := h' _ distance kind field hevent
    omega

/-- Another start event whose parent, if it names one, starts in the
record. -/
theorem set {kind : SyntaxKind} {parent : Option Nat} {field : Option String} (h : IsClosed events)
    (hparent : ∀ distance ∈ parent, place + distance < events.length) :
    IsClosed (events.set place (.start kind parent field)) := by
  intro index distance kind' field' hevent
  rw [List.length_set]
  by_cases heq : place = index
  · subst heq
    have hlt : place < events.length := by
      have hlt := (List.getElem?_eq_some_iff.mp hevent).1
      rwa [List.length_set] at hlt
    rw [List.getElem?_set_self hlt, Option.some.injEq] at hevent
    cases hevent
    exact hparent distance rfl
  · rw [List.getElem?_set_ne heq] at hevent
    exact h index distance kind' field' hevent

end IsClosed

/-- A place behind the first part of a record does not become the start of
a parent of what came before it. -/
theorem KeptIn.not_isParent (h : KeptIn (front ++ behind) later) (hclosed : IsClosed front)
    (hbehind : behind ≠ []) : ¬ IsParent later front.length := by
  rintro ⟨index, distance, kind, field, hlt, hplace, hlater⟩
  have hfront : front[index]? = some front[index] := List.getElem?_eq_getElem hlt
  obtain ⟨event', hlater', hkept⟩ :=
    h.exists_getElem? ((List.getElem?_append_left hlt).trans hfront)
  rw [hlater, Option.some.injEq] at hlater'
  subst hlater'
  generalize front[index] = earlier at hfront hkept
  cases hkept with
  | start same_kind same_parent =>
    rcases same_parent with rfl | ⟨-, hroom⟩
    · have := hclosed _ _ _ _ hfront
      omega
    · have hdistance := hroom distance rfl
      have hpos := List.length_pos_iff.mpr hbehind
      rw [List.length_append] at hdistance
      omega

end Event

end MarkupSyntax
