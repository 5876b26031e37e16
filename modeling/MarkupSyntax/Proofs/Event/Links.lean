import Mathlib.Data.List.Nodup
import MarkupSyntax.Event.Assembly

/-!
# `MarkupSyntax.Proofs.Event.Links`: replaying a record by its links

The start of a node may name a later start as that of the node around
it. A replay follows these names outward and takes all the starts on the
way at once. `Linked` says what a record has to satisfy for that to come
out right: the starts that are named are those of nodes, no two nodes
name the same one, and every node has one finish behind its start. How
the nodes overlap does not matter.

`Linked.exists_signs` is what such a record tells: a list of signs, which
are the steps of the replay with the place of each start. Every start is
taken once, a node right before the one that names it, and the starts and
finishes are balanced. Tokens and finishes are taken where they were
recorded, and a start where its first event was: its own place, or that
of the innermost node whose start leads to it (`FirstOf`). The proof is an
induction along the record. What is left of the record is linked again
when the starts that were taken are spent, with the nodes that are open
at the time.
-/

set_option autoImplicit false

namespace MarkupSyntax

/-! ### Steps and their signs -/

/-- The number of open nodes after these steps, if no node is finished
that was not started. -/
def BuildStep.level : (depth : Nat) → List BuildStep → Option Nat
  | depth, [] => some depth
  | depth, .start _ _ :: steps => level (depth + 1) steps
  | depth, .token _ _ _ :: steps => level depth steps
  | 0, .finish :: _ => none
  | depth + 1, .finish :: steps => level depth steps

/-- The level is reached step by step. -/
theorem BuildStep.level_append (depth : Nat) (steps steps' : List BuildStep) :
    level depth (steps ++ steps') = (level depth steps).bind (level · steps') := by
  induction steps generalizing depth with
  | nil => rfl
  | cons step rest ih =>
    cases step with
    | start => exact ih (depth + 1)
    | token => exact ih depth
    | finish =>
      cases depth with
      | zero => rfl
      | succ depth => exact ih depth

/-- True for a token. -/
def BuildStep.isToken : BuildStep → Bool
  | .token .. => true
  | _ => false

/-- A step of a replay, with the place in the record of what is
started. -/
inductive Sign where
  | start (place : Nat) (kind : SyntaxKind) (field : Option String)
  | token (kind : SyntaxKind) (stop : Nat) (field : Option String)
  | finish
deriving DecidableEq

namespace Sign

/-- The step without the place. -/
def step : Sign → BuildStep
  | start _ kind field => .start kind field
  | token kind stop field => .token kind stop field
  | finish => .finish

/-- The place of what is started. -/
def place? : Sign → Option Nat
  | start place _ _ => some place
  | _ => none

/-- The step, if it is a token. -/
def token? : Sign → Option BuildStep
  | token kind stop field => some (.token kind stop field)
  | _ => none

/-- The step, if it is a token or a finish: those are taken where they
were recorded. -/
def mark? : Sign → Option BuildStep
  | start .. => none
  | token kind stop field => some (.token kind stop field)
  | finish => some .finish

/-- The tokens are the marks that are no finishes. -/
theorem filterMap_token? (signs : List Sign) :
    signs.filterMap token? = (signs.filterMap mark?).filter BuildStep.isToken := by
  rw [List.filter_filterMap]
  congr 1
  funext sign
  cases sign <;> rfl

/-- Where more nodes are open than are left in the end, one of them is
finished: behind steps that finish the `extra` ones that were opened in it,
and all that they start themselves. -/
theorem exists_finish {signs : List Sign} {depth extra : Nat}
    (h : BuildStep.level (depth + extra + 1) (signs.map step) = some 0) :
    ∃ inside after, signs = inside ++ finish :: after ∧
      BuildStep.level extra (inside.map step) = some 0 := by
  induction signs generalizing extra with
  | nil => cases h
  | cons sign rest ih =>
    cases sign with
    | start place kind field =>
      obtain ⟨inside, after, rfl, hlevel⟩ := @ih (extra + 1) h
      exact ⟨start place kind field :: inside, after, rfl, hlevel⟩
    | token kind stop field =>
      obtain ⟨inside, after, rfl, hlevel⟩ := ih h
      exact ⟨token kind stop field :: inside, after, rfl, hlevel⟩
    | finish =>
      cases extra with
      | zero => exact ⟨[], rest, rfl, rfl⟩
      | succ extra =>
        obtain ⟨inside, after, rfl, hlevel⟩ := @ih extra h
        exact ⟨finish :: inside, after, rfl, hlevel⟩

end Sign

namespace Event

/-- The step of a token or a finish. -/
def mark? : Event → Option BuildStep
  | start .. => none
  | token kind stop field => some (.token kind stop field)
  | finish => some .finish

variable {events events' : Array Event} {place index : Nat} {kind : SyntaxKind}
  {parent : Option Nat} {field : Option String}

/-- The start of a node that is neither given up nor spent. -/
def Opens (events : Array Event) (place : Nat) (kind : SyntaxKind) (parent : Option Nat)
    (field : Option String) : Prop :=
  events[place]? = some (.start kind parent field) ∧ kind ≠ .tombstone

/-- Some node starts here. -/
def IsOpening (events : Array Event) (place : Nat) : Prop :=
  ∃ kind parent field, Opens events place kind parent field

/-- A token, a finish and a start without a kind open nothing. -/
theorem not_isOpening {event : Event} (hevent : events[place]? = some event)
    (h : ∀ {kind parent field}, event = .start kind parent field → ¬ kind ≠ .tombstone) :
    ¬ IsOpening events place := by
  rintro ⟨kind, parent, field, hopens, hreal⟩
  exact h (Option.some.inj (hevent.symm.trans hopens)) hreal

/-! ### Following the names -/

/-- The record with the starts at these places spent. -/
def spend (events : Array Event) (places : List Nat) : Array Event :=
  places.foldl (fun events place => events.setIfInBounds place .pending) events

/-- Taking start events off the record leaves their places. -/
@[simp] theorem size_spend (events : Array Event) (places : List Nat) :
    (spend events places).size = events.size := by
  induction places generalizing events with
  | nil => rfl
  | cons place places ih => exact (ih _).trans Array.size_setIfInBounds

/-- Other events stay. -/
theorem getElem?_spend_of_notMem {places : List Nat} (h : place ∉ places) :
    (spend events places)[place]? = events[place]? := by
  induction places generalizing events with
  | nil => rfl
  | cons first places ih =>
    rw [List.mem_cons, not_or] at h
    exact (ih h.2).trans (Array.getElem?_setIfInBounds_ne (Ne.symm h.1))

/-- An event that was taken off is a start without a kind. -/
theorem getElem?_spend_of_mem {places : List Nat} (h : place ∈ places)
    (hplace : place < events.size) : (spend events places)[place]? = some .pending := by
  induction places generalizing events with
  | nil => cases h
  | cons first places ih =>
    by_cases hrest : place ∈ places
    · exact ih hrest (by rwa [Array.size_setIfInBounds])
    · obtain rfl : place = first := by simpa [hrest] using h
      refine (getElem?_spend_of_notMem hrest).trans ?_
      rw [Array.getElem?_setIfInBounds_self_of_lt hplace]

/-- The nodes that can still be opened are those that were not. -/
theorem opens_spend {places : List Nat} :
    Opens (spend events places) place kind parent field ↔
      place ∉ places ∧ Opens events place kind parent field := by
  by_cases h : place ∈ places
  · simp only [h, not_true, false_and, iff_false]
    rintro ⟨hevent, hreal⟩
    have hlt : place < events.size := by
      rw [← size_spend events places]
      exact (Array.getElem?_eq_some_iff.mp hevent).1
    rw [getElem?_spend_of_mem h hlt] at hevent
    cases hevent
    exact hreal rfl
  · simp only [Opens, getElem?_spend_of_notMem h, h, not_false_eq_true, true_and]

/-- The same without the kind. -/
theorem isOpening_spend {places : List Nat} :
    IsOpening (spend events places) place ↔ place ∉ places ∧ IsOpening events place := by
  unfold IsOpening
  simp only [opens_spend]
  exact ⟨fun ⟨kind, parent, field, h⟩ => ⟨h.1, kind, parent, field, h.2⟩,
    fun ⟨h, kind, parent, field, h'⟩ => ⟨kind, parent, field, h, h'⟩⟩

/-- An event that is no start is not spent. -/
theorem getElem?_spend_finish {places : List Nat} (h : ∀ place ∈ places, IsOpening events place) :
    (spend events places)[place]? = some .finish ↔ events[place]? = some .finish := by
  by_cases hmem : place ∈ places
  · obtain ⟨kind, parent, field, hevent, -⟩ := h place hmem
    rw [getElem?_spend_of_mem hmem (Array.getElem?_eq_some_iff.mp hevent).1, hevent]
    exact ⟨nofun, nofun⟩
  · rw [getElem?_spend_of_notMem hmem]

/-- The node around a node, as its start names it, the node around that
one, and so on outward. `parent` is what the start at `place` says. -/
inductive Leading (events : Array Event) : (place : Nat) → (parent : Option Nat) →
    List (Nat × SyntaxKind × Option String) → Prop
  | last (place : Nat) : Leading events place none []
  | next {place distance : Nat} {kind : SyntaxKind} {parent : Option Nat} {field : Option String}
      {outer : List (Nat × SyntaxKind × Option String)} (later : 0 < distance)
      (opens : Opens events (place + distance) kind parent field)
      (further : Leading events (place + distance) parent outer) :
      Leading events place (some distance) ((place + distance, kind, field) :: outer)

namespace Leading

variable {outer : List (Nat × SyntaxKind × Option String)}

/-- All nodes around start later in the record. -/
theorem lt (h : Leading events place parent outer) : ∀ item ∈ outer, place < item.1 := by
  induction h with
  | last => exact nofun
  | @next place distance _ _ _ _ later _ _ ih =>
    intro item hmem
    rcases List.mem_cons.mp hmem with rfl | hmem
    · exact Nat.lt_add_of_pos_right later
    · have := ih item hmem
      omega

/-- They start one after another, outward. -/
theorem pairwise (h : Leading events place parent outer) :
    (place :: outer.map (·.1)).Pairwise (· < ·) := by
  have hlt := h.lt
  induction h with
  | last => exact List.pairwise_singleton _ _
  | next _ _ further ih =>
    refine List.pairwise_cons.mpr ⟨fun later hmem => ?_, ih further.lt⟩
    obtain ⟨item, hitem, rfl⟩ := List.mem_map.mp hmem
    exact hlt item hitem

/-- So none of them comes twice. -/
theorem nodup (h : Leading events place parent outer) : (outer.map (·.1)).Nodup :=
  (List.pairwise_cons.mp h.pairwise).2.imp Nat.ne_of_lt

/-- There are no more of them than events behind. -/
theorem length_lt (h : Leading events place parent outer) (hplace : place < events.size) :
    place + outer.length < events.size := by
  induction h with
  | last => exact hplace
  | next later opens further ih =>
    have := ih (Array.getElem?_eq_some_iff.mp opens.1).1
    rw [List.length_cons]
    omega

/-- All of them are starts of nodes. -/
theorem isOpening (h : Leading events place parent outer) :
    ∀ later ∈ outer.map (·.1), IsOpening events later := by
  induction h with
  | last => exact nofun
  | next later opens further ih => exact List.forall_mem_cons.mpr ⟨⟨_, _, _, opens⟩, ih⟩

/-- Each of the nodes around is a start of the record. -/
theorem opens (h : Leading events place parent outer) :
    ∀ item ∈ outer, ∃ parent, Opens events item.1 item.2.1 parent item.2.2 := by
  induction h with
  | last => exact nofun
  | next later opens further ih => exact List.forall_mem_cons.mpr ⟨⟨_, opens⟩, ih⟩

/-- Each of them is named by the start of the node inside it. -/
theorem exists_named (h : Leading events place parent outer)
    (hopens : Opens events place kind parent field) {later : Nat}
    (hmem : later ∈ outer.map (·.1)) :
    ∃ inner kind distance field, (inner = place ∨ inner ∈ outer.map (·.1)) ∧
      Opens events inner kind (some distance) field ∧ inner + distance = later := by
  induction h generalizing kind field with
  | last => cases hmem
  | next _ opens _ ih =>
    rcases List.mem_cons.mp hmem with rfl | hmem
    · exact ⟨_, _, _, _, .inl rfl, hopens, rfl⟩
    · obtain ⟨inner, kind, distance, field, hinner, hnamed⟩ := ih opens hmem
      refine ⟨inner, kind, distance, field, .inr ?_, hnamed⟩
      rw [List.map_cons, List.mem_cons]
      exact hinner

/-- What a start on the way names comes right behind it. -/
theorem named_infix (h : Leading events place parent outer)
    (hopens : Opens events place kind parent field) {inner distance : Nat} {kind' : SyntaxKind}
    {field' : Option String} (hmem : inner ∈ ((place, kind, field) :: outer).map (·.1))
    (hinner : Opens events inner kind' (some distance) field') :
    ∃ kind'' field'', [(inner, kind', field'), (inner + distance, kind'', field'')]
      <:+: (place, kind, field) :: outer := by
  induction h generalizing kind field with
  | last place =>
    obtain rfl : inner = place := by simpa using hmem
    have hsame := hopens.1.symm.trans hinner.1
    cases hsame
  | @next place distance' kind₁ parent₁ field₁ outer later opens further ih =>
    by_cases hfirst : inner = place
    · subst hfirst
      have hsame := hopens.1.symm.trans hinner.1
      cases hsame
      exact ⟨kind₁, field₁, [], outer, rfl⟩
    · obtain ⟨kind'', field'', hpair⟩ := ih opens (by simpa [hfirst] using hmem)
      exact ⟨kind'', field'', List.infix_cons hpair⟩

/-- Only the events behind matter. -/
theorem congr (h : Leading events place parent outer)
    (hsame : ∀ i, place < i → events'[i]? = events[i]?) : Leading events' place parent outer := by
  induction h with
  | last place => exact .last place
  | next later opens further ih =>
    refine .next later ⟨(hsame _ (Nat.lt_add_of_pos_right later)).trans opens.1, opens.2⟩ (ih ?_)
    intro i hi
    exact hsame i (by omega)

/-- Following the names gives the nodes around and spends their
starts. -/
theorem chain (h : Leading events place parent outer) {fuel : Nat} (enough : outer.length ≤ fuel)
    (inner : List (SyntaxKind × Option String)) :
    Event.chain fuel place parent inner events
      = .ok ((outer.map (·.2)).reverse ++ inner, spend events (outer.map (·.1))) := by
  induction outer generalizing events place parent fuel inner with
  | nil =>
    cases h
    unfold Event.chain
    cases fuel <;> rfl
  | cons item outer ih =>
    obtain ⟨fuel, rfl⟩ : ∃ fuel', fuel = fuel' + 1 := ⟨fuel - 1, by simp at enough; omega⟩
    cases h with
    | @next _ distance kind parent field _ later opens further =>
      have hrest : Leading (events.setIfInBounds (place + distance) .pending) (place + distance)
          parent outer :=
        further.congr fun i hi => Array.getElem?_setIfInBounds_ne (Nat.ne_of_lt hi)
      unfold Event.chain
      simp only [opens.1, if_neg opens.2, ih hrest (Nat.le_of_succ_le_succ enough)]
      simp [spend]

end Leading

/-! ### First events -/

/-- The events of the node that starts at `place` begin at `first`. That is
where the node itself starts if no start from `index` on names it, and the
first event of the node whose start does otherwise. -/
inductive FirstOf (events : Array Event) (index : Nat) : (first place : Nat) → Prop
  | self {place : Nat} (le : index ≤ place) (opening : IsOpening events place)
    (unnamed : ∀ {inner kind distance field}, index ≤ inner → inner < place →
      Opens events inner kind (some distance) field → inner + distance ≠ place) :
    FirstOf events index place place
  | inner {first place distance : Nat} {kind : SyntaxKind} {field : Option String}
    (opens : Opens events place kind (some distance) field) (h : FirstOf events index first place) :
    FirstOf events index first (place + distance)

namespace FirstOf

variable {first : Nat} {outer : List (Nat × SyntaxKind × Option String)}

/-- The first event of a node is not in front of where the search began. -/
theorem le (h : FirstOf events index first place) : index ≤ first := by
  induction h with
  | self le _ _ => exact le
  | inner _ _ ih => exact ih

/-- All that a start leads to begins with it. -/
theorem of_leading (h : FirstOf events index first place)
    (houter : Leading events place parent outer) (hopens : Opens events place kind parent field) :
    ∀ item ∈ outer, FirstOf events index first item.1 := by
  induction houter generalizing kind field with
  | last => exact nofun
  | next _ opens _ ih =>
    have hnext := h.inner hopens
    exact List.forall_mem_cons.mpr ⟨hnext, ih hnext opens⟩

/-- One more event in front that starts no node. -/
theorem of_not_isOpening (h : FirstOf events (index + 1) first place)
    (hstart : ¬ IsOpening events index) : FirstOf events index first place := by
  induction h with
  | self le opening unnamed =>
    refine .self (Nat.le_of_succ_le le) opening fun hle hlt hopens => unnamed ?_ hlt hopens
    exact Nat.lt_of_le_of_ne hle fun heq => hstart (heq ▸ ⟨_, _, _, hopens⟩)
  | inner opens _ ih => exact .inner opens ih

/-- One more start in front. What it leads to is spent behind it, and names
nothing else. -/
theorem of_spend (h : FirstOf (spend events (outer.map (·.1))) (index + 1) first place)
    (hopens : Opens events index kind parent field) (houter : Leading events index parent outer) :
    FirstOf events index first place := by
  induction h with
  | self le opening unnamed =>
    obtain ⟨hspent, hopening⟩ := isOpening_spend.mp opening
    refine .self (Nat.le_of_succ_le le) hopening fun {inner _ _ _} hinner hlt hopens' hplace => ?_
    by_cases hmem : inner ∈ ((index, kind, field) :: outer).map (·.1)
    · obtain ⟨kind'', field'', hpair⟩ := houter.named_infix hopens hmem hopens'
      have hnamed := hpair.subset (List.mem_cons_of_mem _ (List.mem_singleton_self _))
      rcases List.mem_cons.mp hnamed with heq | hnamed
      · have := congrArg Prod.fst heq
        dsimp only at this
        omega
      · exact hspent (hplace ▸ List.mem_map_of_mem (f := (·.1)) hnamed)
    · rw [List.map_cons, List.mem_cons, not_or] at hmem
      exact unnamed (Nat.lt_of_le_of_ne hinner (Ne.symm hmem.1)) hlt
        (opens_spend.mpr ⟨hmem.2, hopens'⟩) hplace
  | inner opens _ ih => exact .inner (opens_spend.mp opens).2 ih

end FirstOf

/-! ### Linked records -/

/-- From `index` on the record is linked. The nodes that start at the
places `opened` are open there, and `owner` is the place where the node
starts that an event finishes. -/
structure Linked (owner : Nat → Nat) (events : Array Event) (index : Nat) (opened : List Nat) :
    Prop where
  /-- The node that a start names starts later. -/
  forward : ∀ {place kind distance field}, index ≤ place →
    Opens events place kind (some distance) field →
    0 < distance ∧ IsOpening events (place + distance)
  /-- No two starts name the same node. -/
  apart : ∀ {place place' kind kind' distance distance' field field'}, index ≤ place →
    index ≤ place' → Opens events place kind (some distance) field →
    Opens events place' kind' (some distance') field' →
    place + distance = place' + distance' → place = place'
  /-- What is finished is open, or starts before. -/
  finishes : ∀ {place}, index ≤ place → events[place]? = some .finish →
    owner place ∈ opened ∨ index ≤ owner place ∧ owner place < place ∧
      IsOpening events (owner place)
  /-- No node is finished twice. -/
  once : ∀ {place place'}, index ≤ place → index ≤ place' → events[place]? = some .finish →
    events[place']? = some .finish → owner place = owner place' → place = place'
  /-- Every node is finished. -/
  closes : ∀ {place}, place ∈ opened ∨ index ≤ place ∧ IsOpening events place →
    ∃ finish, index ≤ finish ∧ events[finish]? = some .finish ∧ owner finish = place
  /-- No node that is open starts again. -/
  fresh : ∀ {place}, place ∈ opened → index ≤ place → ¬ IsOpening events place
  nodup : opened.Nodup

namespace Linked

variable {owner : Nat → Nat} {opened : List Nat}

/-- At the end of the record no node is open. -/
theorem opened_eq_nil (h : Linked owner events index opened) (hend : events.size ≤ index) :
    opened = [] := by
  cases opened with
  | nil => rfl
  | cons place opened =>
    obtain ⟨finish, hle, hfinish, -⟩ := h.closes (.inl (List.mem_cons_self ..))
    have hlt := (Array.getElem?_eq_some_iff.mp hfinish).1
    omega

/-- Past an event that starts and finishes nothing. -/
theorem skip (h : Linked owner events index opened) (hfinish : events[index]? ≠ some .finish)
    (hstart : ¬ IsOpening events index) : Linked owner events (index + 1) opened where
  forward hplace := h.forward (by omega)
  apart hplace hplace' := h.apart (by omega) (by omega)
  finishes hplace hevent := by
    rcases h.finishes (by omega) hevent with hopen | ⟨hle, hlt, hopening⟩
    · exact .inl hopen
    · refine .inr ⟨Nat.lt_of_le_of_ne hle fun heq => hstart (heq ▸ hopening), hlt, hopening⟩
  once hplace hplace' := h.once (by omega) (by omega)
  closes hplace := by
    obtain ⟨finish, hle, hevent, howner⟩ := h.closes (hplace.imp_right fun h => ⟨by omega, h.2⟩)
    exact ⟨finish, Nat.lt_of_le_of_ne hle fun heq => hfinish (heq ▸ hevent), hevent, howner⟩
  fresh hmem hplace := h.fresh hmem (by omega)
  nodup := h.nodup

/-- Past a finish one node less is open. -/
theorem finish (h : Linked owner events index opened) (hevent : events[index]? = some .finish) :
    owner index ∈ opened ∧ Linked owner events (index + 1) (opened.erase (owner index)) := by
  have hmem : owner index ∈ opened := by
    rcases h.finishes (Nat.le_refl _) hevent with hopen | ⟨hle, hlt, -⟩
    · exact hopen
    · omega
  have hstart : ¬ IsOpening events index := by
    rintro ⟨kind, parent, field, hopens, -⟩
    rw [hevent] at hopens
    cases hopens
  refine ⟨hmem, ?_⟩
  -- What is open is one less, and nothing else is finished by this event. Each clause holds for
  -- the places that are left.
  exact {
    forward := fun hplace => h.forward (by omega)
    apart := fun hplace hplace' => h.apart (by omega) (by omega)
    finishes := by
      intro place hplace hfinish
      have hne : owner place ≠ owner index := fun heq => by
        have := h.once (by omega) (Nat.le_refl _) hfinish hevent heq
        omega
      rcases h.finishes (by omega) hfinish with hopen | ⟨hle, hlt, hopening⟩
      · exact .inl ((List.mem_erase_of_ne hne).mpr hopen)
      · exact .inr ⟨Nat.lt_of_le_of_ne hle fun heq => hstart (heq ▸ hopening), hlt, hopening⟩
    once := fun hplace hplace' => h.once (by omega) (by omega)
    closes := by
      intro place hplace
      have hne : place ≠ owner index := by
        rintro rfl
        rcases hplace with hplace | ⟨hle, hopening⟩
        · exact h.nodup.not_mem_erase hplace
        · exact h.fresh hmem (by omega) hopening
      obtain ⟨finish, hle, hfinish, howner⟩ :=
        h.closes (hplace.imp List.mem_of_mem_erase fun h => ⟨by omega, h.2⟩)
      refine ⟨finish, Nat.lt_of_le_of_ne hle fun heq => hne ?_, hfinish, howner⟩
      rw [← howner, heq]
    fresh := fun hplace hle => h.fresh (List.mem_of_mem_erase hplace) (by omega)
    nodup := h.nodup.erase _ }

/-- The names lead somewhere. -/
theorem exists_leading (h : Linked owner events index opened) (hplace : index ≤ place)
    (hopens : Opens events place kind parent field) :
    ∃ outer, Leading events place parent outer := by
  -- The measure is the number of events behind.
  generalize hroom : events.size - place = room
  induction room using Nat.strongRecOn generalizing place kind parent field with
  | ind room ih =>
    cases parent with
    | none => exact ⟨[], .last place⟩
    | some distance =>
      obtain ⟨hlater, kind', parent', field', hopens'⟩ := h.forward hplace hopens
      have hlt := (Array.getElem?_eq_some_iff.mp hopens'.1).1
      obtain ⟨outer, houter⟩ := ih (events.size - (place + distance)) (by omega) (by omega)
        hopens' rfl
      exact ⟨_, .next hlater hopens' houter⟩

/-- Past a start all nodes are open of which the starts were taken with
it. -/
theorem start (h : Linked owner events index opened)
    (hopens : Opens events index kind parent field)
    {outer : List (Nat × SyntaxKind × Option String)} (houter : Leading events index parent outer) :
    Linked owner (spend events (outer.map (·.1))) (index + 1)
      (index :: outer.map (·.1) ++ opened) := by
  have hstart : events[index]? ≠ some .finish := by
    rw [hopens.1]
    exact nofun
  have hbehind : ∀ {place}, place ∈ outer.map (·.1) → index < place := by
    intro place hmem
    obtain ⟨item, hitem, rfl⟩ := List.mem_map.mp hmem
    exact houter.lt item hitem
  have hopening : ∀ {place}, place = index ∨ place ∈ outer.map (·.1) → IsOpening events place := by
    rintro place (rfl | hmem)
    · exact ⟨_, _, _, hopens⟩
    · exact houter.isOpening place hmem
  have hle : ∀ {place}, place = index ∨ place ∈ outer.map (·.1) → index ≤ place := by
    rintro place (rfl | hmem)
    · exact Nat.le_refl _
    · exact Nat.le_of_lt (hbehind hmem)
  have hfinish : ∀ {place : Nat}, (spend events (outer.map (·.1)))[place]? = some Event.finish →
      events[place]? = some Event.finish := (getElem?_spend_finish houter.isOpening).mp
  exact {
    forward := by
      intro place kind distance field hplace hlater
      obtain ⟨hmem, hlater⟩ := opens_spend.mp hlater
      obtain ⟨hpos, hnode⟩ := h.forward (by omega) hlater
      refine ⟨hpos, isOpening_spend.mpr ⟨fun hspent => hmem ?_, hnode⟩⟩
      -- What is spent is named by a start that was taken, and by no other.
      obtain ⟨inner, _, _, _, hinner, hnamed, heq⟩ := houter.exists_named hopens hspent
      obtain rfl := h.apart (by omega) (hle hinner) hlater hnamed heq.symm
      exact hinner.resolve_left (by omega)
    apart := fun hplace hplace' hlater hlater' =>
      h.apart (by omega) (by omega) (opens_spend.mp hlater).2 (opens_spend.mp hlater').2
    finishes := by
      intro place hplace hevent
      rcases h.finishes (by omega) (hfinish hevent) with hopen | ⟨howner, hlt, hnode⟩
      · exact .inl (List.mem_append_right _ hopen)
      · by_cases htaken : owner place = index ∨ owner place ∈ outer.map (·.1)
        · exact .inl (List.mem_append_left _ (List.mem_cons.mpr htaken))
        · rw [not_or] at htaken
          exact .inr ⟨by omega, hlt, isOpening_spend.mpr ⟨htaken.2, hnode⟩⟩
    once := fun hplace hplace' hevent hevent' =>
      h.once (by omega) (by omega) (hfinish hevent) (hfinish hevent')
    closes := by
      intro place hplace
      have hbefore : place ∈ opened ∨ index ≤ place ∧ IsOpening events place := by
        rcases hplace with hmem | ⟨hge, hnode⟩
        · rcases List.mem_append.mp hmem with hmem | hmem
          · exact .inr ⟨hle (List.mem_cons.mp hmem), hopening (List.mem_cons.mp hmem)⟩
          · exact .inl hmem
        · exact .inr ⟨by omega, (isOpening_spend.mp hnode).2⟩
      obtain ⟨finish, hge, hevent, howner⟩ := h.closes hbefore
      exact ⟨finish, Nat.lt_of_le_of_ne hge fun heq => hstart (heq ▸ hevent),
        (getElem?_spend_finish houter.isOpening).mpr hevent, howner⟩
    fresh := by
      intro place hmem hge hnode
      obtain ⟨hspent, hnode⟩ := isOpening_spend.mp hnode
      rcases List.mem_append.mp hmem with hmem | hmem
      · exact (List.mem_cons.mp hmem).elim (by omega) hspent
      · exact h.fresh hmem (by omega) hnode
    nodup := by
      refine List.nodup_append.mpr ⟨List.nodup_cons.mpr ⟨fun hmem => ?_, houter.nodup⟩, h.nodup, ?_⟩
      · exact absurd (hbehind hmem) (Nat.lt_irrefl _)
      · rintro place hmem _ hopen rfl
        exact h.fresh hopen (hle (List.mem_cons.mp hmem)) (hopening (List.mem_cons.mp hmem)) }

end Linked

/-! ### What a linked record tells -/

/-- In this order two nodes start: by their first events, and of two with
the same one the outer node before the inner. -/
def Precedes (events : Array Event) (index place place' : Nat) : Prop :=
  ∃ first first', FirstOf events index first place ∧ FirstOf events index first' place' ∧
    (first < first' ∨ first = first' ∧ place' < place)

/-- The signs tell what the record says from `index` on, with `depth`
nodes open there. -/
structure Tells (signs : List Sign) (events : Array Event) (index depth : Nat) : Prop where
  /-- No node is finished before it is started, and all are at the end. -/
  balanced : BuildStep.level depth (signs.map Sign.step) = some 0
  /-- The tokens and the finishes are those of the record, in order. -/
  marks : signs.filterMap Sign.mark? = (events.toList.drop index).filterMap Event.mark?
  /-- No start is taken twice. -/
  nodup : (signs.filterMap Sign.place?).Nodup
  /-- The starts that are taken are those of nodes. -/
  mem_places : ∀ place, place ∈ signs.filterMap Sign.place? ↔ index ≤ place ∧ IsOpening events place
  /-- A start is taken as the record has it. -/
  named : ∀ {place kind field}, Sign.start place kind field ∈ signs →
    ∃ parent, Opens events place kind parent field
  /-- The node around a node starts right before it. -/
  around : ∀ {place kind distance field}, index ≤ place →
    Opens events place kind (some distance) field →
    ∃ kind' field', [Sign.start (place + distance) kind' field', .start place kind field] <:+: signs
  /-- Nodes start in order. -/
  sorted : (signs.filterMap Sign.place?).Pairwise (Precedes events index)
  /-- A node starts behind what is recorded in front of its first event. -/
  begins : ∀ {before after place kind field}, signs = before ++ .start place kind field :: after →
    ∃ first, FirstOf events index first place ∧
      before.filterMap Sign.mark? = ((events.toList.take first).drop index).filterMap Event.mark?

/-- The record from a place on. -/
theorem drop_eq_cons {event : Event} (h : events[index]? = some event) :
    events.toList.drop index = event :: events.toList.drop (index + 1) := by
  rw [← Array.getElem?_toList] at h
  obtain ⟨hlt, rfl⟩ := List.getElem?_eq_some_iff.mp h
  exact List.drop_eq_getElem_cons hlt

/-- Spending starts loses no token and no finish. -/
theorem map_mark?_spend {places : List Nat} (h : ∀ place ∈ places, IsOpening events place) :
    (spend events places).toList.map mark? = events.toList.map mark? := by
  apply List.ext_getElem?
  intro i
  rw [List.getElem?_map, List.getElem?_map, Array.getElem?_toList, Array.getElem?_toList]
  by_cases hmem : i ∈ places
  · obtain ⟨kind, parent, field, hevent, -⟩ := h i hmem
    rw [getElem?_spend_of_mem hmem (Array.getElem?_eq_some_iff.mp hevent).1, hevent]
    rfl
  · rw [getElem?_spend_of_notMem hmem]

/-- Marks are found event by event. -/
theorem filterMap_mark? (events : List Event) :
    events.filterMap mark? = (events.map mark?).filterMap id := by
  rw [List.filterMap_map]
  rfl

namespace Tells

variable {signs : List Sign} {depth : Nat}

/-- At the end nothing is left to tell. -/
theorem nil (hend : events.size ≤ index) : Tells [] events index 0 where
  balanced := rfl
  marks := by
    rw [List.drop_eq_nil_of_le (by rwa [Array.length_toList])]
    rfl
  nodup := List.nodup_nil
  mem_places place := by
    refine ⟨nofun, ?_⟩
    rintro ⟨hle, kind, parent, field, hevent, -⟩
    have hlt := (Array.getElem?_eq_some_iff.mp hevent).1
    omega
  named := nofun
  around := by
    rintro place kind distance field hle ⟨hevent, -⟩
    have hlt := (Array.getElem?_eq_some_iff.mp hevent).1
    omega
  sorted := .nil
  begins h := absurd h.symm (List.append_ne_nil_of_right_ne_nil _ (List.cons_ne_nil _ _))

/-- What is recorded in front of a place, with one more event in front. -/
theorem drop_take {event : Event} {first : Nat} (hevent : events[index]? = some event)
    (hlt : index < first) :
    (events.toList.take first).drop index
      = event :: (events.toList.take first).drop (index + 1) := by
  rw [← Array.getElem?_toList] at hevent
  have htaken : (events.toList.take first)[index]? = some event := by
    rw [List.getElem?_take_of_lt hlt, hevent]
  obtain ⟨hlt', rfl⟩ := List.getElem?_eq_some_iff.mp htaken
  exact List.drop_eq_getElem_cons hlt'

/-- An event that starts no node, with the sign for it. -/
theorem cons (h : Tells signs events (index + 1) depth) {event : Event}
    (hevent : events[index]? = some event) (hstart : ¬ IsOpening events index) (sign : Option Sign)
    (hplace : sign.bind Sign.place? = none) (hmark : sign.bind Sign.mark? = event.mark?)
    {before : Nat} (hlevel : BuildStep.level before ((sign.toList ++ signs).map Sign.step)
      = BuildStep.level depth (signs.map Sign.step)) :
    Tells (sign.toList ++ signs) events index before := by
  have hplaces : (sign.toList ++ signs).filterMap Sign.place? = signs.filterMap Sign.place? := by
    cases sign with
    | none => rfl
    | some sign => exact List.filterMap_cons_none hplace
  have hmarks : ∀ (front : List Sign) (back : List Event),
      front.filterMap Sign.mark? = back.filterMap Event.mark? →
      (sign.toList ++ front).filterMap Sign.mark? = (event :: back).filterMap Event.mark? := by
    intro front back heq
    rw [List.filterMap_append, heq, List.filterMap_cons, ← hmark]
    cases sign with
    | none => rfl
    | some sign => cases hsign : sign.mark? <;> simp [hsign]
  have hlater : ∀ {place}, index ≤ place → IsOpening events place → index + 1 ≤ place :=
    fun hle hopening => Nat.lt_of_le_of_ne hle fun heq => hstart (heq ▸ hopening)
  exact {
    balanced := hlevel.trans h.balanced
    marks := by
      rw [drop_eq_cons hevent]
      exact hmarks _ _ h.marks
    nodup := hplaces ▸ h.nodup
    mem_places := by
      intro place
      rw [hplaces, h.mem_places]
      exact ⟨fun hplace => ⟨Nat.le_of_succ_le hplace.1, hplace.2⟩,
        fun hplace => ⟨hlater hplace.1 hplace.2, hplace.2⟩⟩
    named := by
      intro place kind field hmem
      refine h.named ((List.mem_append.mp hmem).resolve_left fun hmem => ?_)
      rw [Option.mem_toList.mp hmem] at hplace
      cases hplace
    around := by
      intro place kind distance field hle hopens
      obtain ⟨kind', field', hpair⟩ := h.around (hlater hle ⟨_, _, _, hopens⟩) hopens
      exact ⟨kind', field', hpair.trans (List.suffix_append _ _).isInfix⟩
    sorted := by
      rw [hplaces]
      exact h.sorted.imp fun ⟨first, first', hfirst, hfirst', hlt⟩ =>
        ⟨first, first', hfirst.of_not_isOpening hstart, hfirst'.of_not_isOpening hstart, hlt⟩
    begins := by
      intro before after place kind field hsigns
      -- The sign in front is not the start, so it is one of those before.
      obtain ⟨before, rfl⟩ : ∃ rest, before = sign.toList ++ rest := by
        cases sign with
        | none => exact ⟨before, rfl⟩
        | some sign =>
          cases before with
          | nil =>
            rw [(List.cons.inj hsigns).1] at hplace
            cases hplace
          | cons first rest => exact ⟨rest, by rw [(List.cons.inj hsigns).1]; rfl⟩
      rw [List.append_assoc] at hsigns
      obtain ⟨first, hfirst, heq⟩ := h.begins (List.append_cancel_left hsigns)
      refine ⟨first, hfirst.of_not_isOpening hstart, ?_⟩
      rw [drop_take hevent hfirst.le]
      exact hmarks _ _ heq }

/-- The sign of a start. -/
def opening (item : Nat × SyntaxKind × Option String) : Sign := .start item.1 item.2.1 item.2.2

/-- Opening the nodes around adds a level for each of them. -/
theorem level_openings (depth : Nat) (items : List (Nat × SyntaxKind × Option String))
    (signs : List Sign) :
    BuildStep.level depth ((items.map opening ++ signs).map Sign.step)
      = BuildStep.level (depth + items.length) (signs.map Sign.step) := by
  induction items generalizing depth with
  | nil => rfl
  | cons item items ih =>
    refine (ih (depth + 1)).trans ?_
    rw [List.length_cons, Nat.add_assoc, Nat.add_comm 1]

/-- The places of the nodes that are opened. -/
theorem places_openings (items : List (Nat × SyntaxKind × Option String)) :
    (items.map opening).filterMap Sign.place? = items.map (·.1) := by
  induction items with
  | nil => rfl
  | cons item items ih => exact congrArg (item.1 :: ·) ih

/-- Opening a node is no mark. -/
theorem marks_openings (items : List (Nat × SyntaxKind × Option String)) :
    (items.map opening).filterMap Sign.mark? = [] := by
  induction items with
  | nil => rfl
  | cons item items ih => exact ih

/-- Whatever starts has a first event. -/
theorem exists_firstOf (h : Tells signs events index depth)
    (hmem : place ∈ signs.filterMap Sign.place?) : ∃ first, FirstOf events index first place := by
  obtain ⟨sign, hsign, hplace⟩ := List.mem_filterMap.mp hmem
  obtain ⟨before, after, hsplit⟩ := List.append_of_mem hsign
  cases sign with
  | start =>
    cases hplace
    obtain ⟨first, hfirst, -⟩ := h.begins hsplit
    exact ⟨first, hfirst⟩
  | _ => cases hplace

/-- A sign of two lists is in the second or in the first. -/
theorem append_eq_append_cons {front before after : List Sign} {sign : Sign}
    (h : front ++ signs = before ++ sign :: after) :
    (∃ before', before = front ++ before' ∧ signs = before' ++ sign :: after) ∨
      ∃ behind, front = before ++ sign :: behind := by
  rcases List.append_eq_append_iff.mp h with ⟨before', rfl, hlater⟩ | ⟨behind, rfl, hlater⟩
  · exact .inl ⟨before', rfl, hlater⟩
  · cases behind with
    | nil => exact .inl ⟨[], by simp, hlater.symm⟩
    | cons first behind =>
      obtain ⟨rfl, -⟩ := List.cons.inj hlater
      exact .inr ⟨behind, rfl⟩

/-- A start, with those around it, the outermost first. -/
theorem start {outer : List (Nat × SyntaxKind × Option String)}
    (h : Tells signs (spend events (outer.map (·.1))) (index + 1) (depth + (outer.length + 1)))
    (hopens : Opens events index kind parent field) (houter : Leading events index parent outer) :
    Tells (((index, kind, field) :: outer).reverse.map opening ++ signs) events index depth := by
  have hplaces : ((((index, kind, field) :: outer).reverse.map opening ++ signs).filterMap
      Sign.place?) = (index :: outer.map (·.1)).reverse ++ signs.filterMap Sign.place? := by
    rw [List.filterMap_append, places_openings, List.map_reverse]
    rfl
  have hfirst : ∀ place ∈ index :: outer.map (·.1), FirstOf events index index place := by
    have hself : FirstOf events index index index :=
      .self (Nat.le_refl _) ⟨_, _, _, hopens⟩ fun hle hlt => absurd hlt (Nat.not_lt.mpr hle)
    intro place hmem
    rcases List.mem_cons.mp hmem with rfl | hmem
    · exact hself
    · obtain ⟨item, hitem, rfl⟩ := List.mem_map.mp hmem
      exact hself.of_leading houter hopens item hitem
  have htaken : ∀ {place}, place ∈ index :: outer.map (·.1) →
      index ≤ place ∧ IsOpening events place := by
    intro place hmem
    rcases List.mem_cons.mp hmem with rfl | hmem
    · exact ⟨Nat.le_refl _, _, _, _, hopens⟩
    · obtain ⟨item, hitem, rfl⟩ := List.mem_map.mp hmem
      exact ⟨Nat.le_of_lt (houter.lt item hitem), houter.isOpening _ hmem⟩
  have hmem_places : ∀ place, place ∈ signs.filterMap Sign.place? ↔
      (index ≤ place ∧ IsOpening events place) ∧ place ∉ index :: outer.map (·.1) := by
    intro place
    rw [h.mem_places, isOpening_spend, List.mem_cons, not_or]
    constructor
    · rintro ⟨hle, hmem, hopening⟩
      exact ⟨⟨Nat.le_of_succ_le hle, hopening⟩, by omega, hmem⟩
    · rintro ⟨⟨hle, hopening⟩, hne, hmem⟩
      exact ⟨Nat.lt_of_le_of_ne hle (Ne.symm hne), hmem, hopening⟩
  exact {
    balanced := by
      rw [level_openings, List.length_reverse, List.length_cons]
      exact h.balanced
    marks := by
      have hnone : Event.mark? (.start kind parent field) = none := rfl
      rw [List.filterMap_append, marks_openings, h.marks, filterMap_mark?, List.map_drop,
        map_mark?_spend houter.isOpening, ← List.map_drop, ← filterMap_mark?,
        drop_eq_cons hopens.1, List.filterMap_cons_none hnone]
      rfl
    nodup := by
      rw [hplaces]
      refine List.nodup_append.mpr ⟨List.nodup_reverse.mpr ?_, h.nodup, ?_⟩
      · refine List.nodup_cons.mpr ⟨fun hmem => ?_, houter.nodup⟩
        obtain ⟨item, hitem, heq⟩ := List.mem_map.mp hmem
        exact absurd (houter.lt item hitem) (heq ▸ Nat.lt_irrefl _)
      · rintro place hmem _ hmem' rfl
        exact ((hmem_places place).mp hmem').2 (List.mem_reverse.mp hmem)
    mem_places := by
      intro place
      rw [hplaces, List.mem_append, List.mem_reverse, hmem_places]
      by_cases hmem : place ∈ index :: outer.map (·.1)
      · simp only [hmem, htaken hmem, true_or]
        trivial
      · simp only [hmem, false_or, not_false_eq_true, and_true]
    named := by
      intro place kind' field' hmem
      rcases List.mem_append.mp hmem with hmem | hmem
      · obtain ⟨item, hitem, heq⟩ := List.mem_map.mp hmem
        cases heq
        rcases List.mem_cons.mp (List.mem_reverse.mp hitem) with rfl | hitem
        · exact ⟨parent, hopens⟩
        · exact houter.opens item hitem
      · obtain ⟨parent', hopens'⟩ := h.named hmem
        exact ⟨parent', (opens_spend.mp hopens').2⟩
    around := by
      intro place kind' distance field' hle hopens'
      by_cases hmem : place ∈ ((index, kind, field) :: outer).map (·.1)
      -- The two come one after the other among the starts that are taken here.
      · obtain ⟨kind'', field'', hpair⟩ := houter.named_infix hopens hmem hopens'
        refine ⟨kind'', field'', List.IsInfix.trans ?_ (List.prefix_append _ _).isInfix⟩
        exact (List.reverse_infix.mpr hpair).map opening
      · have hlater : index + 1 ≤ place := by
          refine Nat.lt_of_le_of_ne hle fun heq => hmem ?_
          rw [← heq]
          exact List.mem_cons_self ..
        obtain ⟨kind'', field'', hpair⟩ := h.around hlater
          (opens_spend.mpr ⟨fun hspent => hmem (List.mem_cons_of_mem _ hspent), hopens'⟩)
        exact ⟨kind'', field'', hpair.trans (List.suffix_append _ _).isInfix⟩
    sorted := by
      rw [hplaces]
      refine List.pairwise_append.mpr ⟨List.pairwise_reverse.mpr ?_, ?_, ?_⟩
      · exact houter.pairwise.imp_of_mem fun hmem hmem' hlt =>
          ⟨index, index, hfirst _ hmem', hfirst _ hmem, .inr ⟨rfl, hlt⟩⟩
      · exact h.sorted.imp fun ⟨first, first', hplace, hplace', hlt⟩ =>
          ⟨first, first', hplace.of_spend hopens houter, hplace'.of_spend hopens houter, hlt⟩
      · intro place hmem place' hmem'
        obtain ⟨first', hfirst'⟩ := h.exists_firstOf hmem'
        exact ⟨index, first', hfirst _ (List.mem_reverse.mp hmem), hfirst'.of_spend hopens houter,
          .inl hfirst'.le⟩
    begins := by
      intro before after place kind' field' hsigns
      rcases append_eq_append_cons hsigns with ⟨before', rfl, hlater⟩ | ⟨behind, hchain⟩
      · obtain ⟨first, hplace, hmarks⟩ := h.begins hlater
        have hnone : Event.mark? (.start kind parent field) = none := rfl
        refine ⟨first, hplace.of_spend hopens houter, ?_⟩
        rw [List.filterMap_append, marks_openings, List.nil_append, hmarks, filterMap_mark?,
          List.map_drop, List.map_take, map_mark?_spend houter.isOpening, ← List.map_take,
          ← List.map_drop, ← filterMap_mark?, drop_take hopens.1 hplace.le,
          List.filterMap_cons_none hnone]
      -- It is one of the starts that are taken here, and nothing is recorded before.
      · have hmem : place ∈ index :: outer.map (·.1) := by
          have hplaces := places_openings ((index, kind, field) :: outer).reverse
          rw [hchain, List.map_reverse] at hplaces
          refine List.mem_reverse.mp (hplaces ▸ ?_)
          exact List.mem_filterMap.mpr ⟨_, List.mem_append_right _ (List.mem_cons_self ..), rfl⟩
        have hnone := marks_openings ((index, kind, field) :: outer).reverse
        rw [hchain, List.filterMap_append] at hnone
        refine ⟨index, hfirst place hmem, ?_⟩
        rw [(List.append_eq_nil_iff.mp hnone).1, List.drop_eq_nil_of_le (List.length_take_le _ _)]
        rfl }

end Tells

/-- A node starts, after those that its start names. -/
theorem replayFrom_start {σ : Type} {step : σ → BuildStep → Except Fault σ} {count : Nat}
    {state : σ} (hopens : Opens events index kind parent field) :
    replayFrom step (count + 1) index events state = (do
      let (nodes, events) ← chain (events.size + 1) index parent [(kind, field)] events
      let state ← nodes.foldlM (fun state (kind, field) => step state (.start kind field)) state
      replayFrom step count (index + 1) events state) := by
  obtain ⟨hevent, hreal⟩ := hopens
  cases kind <;> first | exact absurd rfl hreal | (rw [replayFrom, hevent])

/-- A replay of the `count` events from `index` on takes the steps that
these tell. -/
def Told (events : Array Event) (index depth count : Nat) : Prop :=
  ∃ signs, Tells signs events index depth ∧
    ∀ {σ : Type} (step : σ → BuildStep → Except Fault σ) (state : σ),
      replayFrom step count index events state = (signs.map Sign.step).foldlM step state

namespace Told

variable {depth count : Nat}

/-- At the end of the record nothing is told. -/
theorem nil (hend : events.size ≤ index) : Told events index 0 count := by
  refine ⟨[], .nil hend, fun step state => ?_⟩
  cases count with
  | zero => rfl
  | succ count =>
    rw [replayFrom, Array.getElem?_eq_none_iff.mpr hend]
    rfl

/-- A finish leaves a level, and the rest is told one level up. -/
theorem finish (h : Told events (index + 1) depth count)
    (hevent : events[index]? = some .finish) : Told events index (depth + 1) (count + 1) := by
  obtain ⟨signs, htells, hrun⟩ := h
  refine ⟨.finish :: signs, ?_, fun step state => ?_⟩
  · exact htells.cons hevent (not_isOpening hevent nofun) (some .finish) rfl rfl rfl
  · rw [replayFrom, hevent, List.map_cons, List.foldlM_cons]
    simp only [hrun]
    rfl

/-- A token is taken where it stands. -/
theorem token (h : Told events (index + 1) depth count) {stop : Nat}
    (hevent : events[index]? = some (.token kind stop field)) :
    Told events index depth (count + 1) := by
  obtain ⟨signs, htells, hrun⟩ := h
  refine ⟨.token kind stop field :: signs, ?_, fun step state => ?_⟩
  · have hstart := not_isOpening hevent nofun
    exact htells.cons hevent hstart (some (.token kind stop field)) rfl rfl rfl
  · rw [replayFrom, hevent, List.map_cons, List.foldlM_cons]
    simp only [hrun]
    rfl

/-- A start that was given up or is spent. -/
theorem skip (h : Told events (index + 1) depth count)
    (hevent : events[index]? = some (.start .tombstone parent field)) :
    Told events index depth (count + 1) := by
  obtain ⟨signs, htells, hrun⟩ := h
  have hstart : ¬ IsOpening events index :=
    not_isOpening hevent fun heq hreal => hreal (Event.start.inj heq).1.symm
  refine ⟨signs, htells.cons hevent hstart none rfl rfl rfl, fun step state => ?_⟩
  rw [replayFrom, hevent]
  exact hrun step state

/-- A start is taken with those that its chain names. -/
theorem start {outer : List (Nat × SyntaxKind × Option String)}
    (h : Told (spend events (outer.map (·.1))) (index + 1) (depth + (outer.length + 1)) count)
    (hopens : Opens events index kind parent field) (houter : Leading events index parent outer) :
    Told events index depth (count + 1) := by
  obtain ⟨signs, htells, hrun⟩ := h
  refine ⟨_, htells.start hopens houter, fun step state => ?_⟩
  have henough : outer.length ≤ events.size + 1 := by
    have := houter.length_lt (Array.getElem?_eq_some_iff.mp hopens.1).1
    omega
  have htaken : ((((index, kind, field) :: outer).reverse.map Tells.opening).map Sign.step).foldlM
      step state = ((outer.map (·.2)).reverse ++ [(kind, field)]).foldlM
        (fun state (node : SyntaxKind × Option String) => step state (.start node.1 node.2))
        state := by
    rw [List.map_map, List.foldlM_map, List.reverse_cons, ← List.map_reverse,
      List.foldlM_append, List.foldlM_append, List.foldlM_map]
    rfl
  rw [replayFrom_start hopens, houter.chain henough, List.map_append, List.foldlM_append, htaken]
  simp only [← hrun]
  rfl

end Told

namespace Linked

variable {owner : Nat → Nat} {opened : List Nat}

/-- The induction is on the number of events that are left. -/
theorem told (count : Nat) (h : Linked owner events index opened)
    (hcount : events.size ≤ index + count) : Told events index opened.length count := by
  -- By induction on the events that are left. What is open is counted by `opened`, and `Linked`
  -- says that each of these has its finish ahead.
  induction count generalizing events index opened with
  | zero =>
    rw [h.opened_eq_nil hcount]
    exact .nil hcount
  | succ count ih =>
    have hcount' : events.size ≤ index + 1 + count := by omega
    cases hevent : events[index]? with
    | none =>
      have hend : events.size ≤ index := Array.getElem?_eq_none_iff.mp hevent
      rw [h.opened_eq_nil hend]
      exact .nil hend
    | some event =>
      cases event with
      | finish =>
        obtain ⟨hmem, hlinked⟩ := h.finish hevent
        have hlength : opened.length = (opened.erase (owner index)).length + 1 := by
          rw [List.length_erase_of_mem hmem]
          have := List.length_pos_of_mem hmem
          omega
        rw [hlength]
        exact (ih hlinked hcount').finish hevent
      | token kind stop field =>
        have hlinked := h.skip (by simp [hevent]) (not_isOpening hevent nofun)
        exact (ih hlinked hcount').token hevent
      | start kind parent field =>
        by_cases hkind : kind = .tombstone
        · subst hkind
          have hlinked := h.skip (by simp [hevent])
            (not_isOpening hevent fun heq hreal => hreal (Event.start.inj heq).1.symm)
          exact (ih hlinked hcount').skip hevent
        · -- A start opens itself and all nodes that are put around it.
          have hopens : Opens events index kind parent field := ⟨hevent, hkind⟩
          obtain ⟨outer, houter⟩ := h.exists_leading (Nat.le_refl _) hopens
          have htold := ih (h.start hopens houter) (by rwa [size_spend])
          have hlength : (index :: outer.map (·.1) ++ opened).length
              = opened.length + (outer.length + 1) := by
            simp only [List.length_append, List.length_cons, List.length_map]
            omega
          rw [hlength] at htold
          exact htold.start hopens houter

/-- The replay of a linked record takes the steps that the record
tells, whatever they do. -/
theorem exists_signs (h : Linked owner events 0 []) :
    ∃ signs, Tells signs events 0 0 ∧
      ∀ {σ : Type} (step : σ → BuildStep → Except Fault σ) (state : σ),
        replay step events state = (signs.map Sign.step).foldlM step state :=
  h.told events.size (Nat.le_of_eq (Nat.zero_add _).symm)

end Linked

end Event

end MarkupSyntax
