import MarkupSyntax.Proofs.Diagnostic.Placed
import MarkupSyntax.Proofs.Grammar.Precedence
import MarkupSyntax.Proofs.Grammar.Production
import MarkupSyntax.Proofs.Parse.Trace

/-!
# `MarkupSyntax.Proofs.Parse.Grows`: what a part of a parse adds

A rule of the grammar starts in one state of the parse and leaves
another. This module has the relations between the two in which the
rules are specified:

* `Still p q`: the current token is the same one.
* `Quiet p q`: besides, nothing was recorded or reported.
* `Marks p q`: only the record changes.
* `Notes p q`: the parse is as deep in speculation as it was, and no
  decision that is kept was lost.
* `Calm p q`: whatever is consumed and recorded, nothing is reported, and
  the depth of nesting is the same.
* `Moves p q`: the parse went on, and only diagnostics of the grammar were
  added, with the first error at least one to show for it.
* `Grows p q sprouts`: besides, the record grew by these sprouts.
* `Adds p q word`: besides, without errors the roles of the sprouts are
  a word of a language, and everything below obeys the productions.
* `Spells p q slots word`: besides, the sprouts fill these slots, errors
  or not.
* `Makes p q node field kinds`: the record grew by one node, which the
  handle `node` points at.
* `Builds p q node field kinds`: besides, its kind is one of these with
  errors too.
* `Forms p q node outlines`: besides, its outline is one of these.
* `Opened p marker q word`: a node was started, and what it has so far
  are children of these roles.

Whether the children of a node are the right ones is claimed only for a
parse without errors so far. So a rule that reports that something is
missing has nothing more to show (`Adds.of_failed`). What every tree
keeps to holds with errors too, and every sprout in a record is
`Orderly`.
-/

set_option autoImplicit false

namespace MarkupSyntax

open Grammar
open Sprout hiding node token

/-- True for the codes with which the parser reports tokens that do not fit
the grammar. What the checks on a finished tree report is grammatical too. -/
def Code.isOfGrammar (code : Code) : Bool :=
  code.category? = some .grammatical && code ≠ .tagMismatch && code ≠ .duplicateRoot

/-- The diagnostic is of the parser's own. -/
structure Diagnostic.OfGrammar (diagnostic : Diagnostic) : Prop where
  code : diagnostic.code.isOfGrammar = true
  category : diagnostic.category = diagnostic.code.category?

/-- The range that the decision remembers lies in a source of this
length. -/
def Outcome.IsIn (length : Nat) : Outcome → Prop
  | .content shape => ∀ range ∈ shape.control, range.IsIn length
  | _ => True

/-- A body without a control construct remembers no range. -/
theorem Outcome.isIn_content (isElements : Bool) (length : Nat) :
    (Outcome.content ⟨isElements, none⟩).IsIn length :=
  fun _ hmem => absurd hmem (Option.not_mem_none _)

/-- What was reported points into the source, and what is remembered lies
in it. -/
structure Parser.Placed (p : Parser) : Prop where
  diagnostics : ∀ diagnostic ∈ p.diagnostics.toList, diagnostic.IsPlaced p.text.length p.file
  memo : ∀ entry ∈ p.memo, entry.2.IsIn p.text.length

/-- The current token stays the current one. -/
structure Still (p q : Parser) : Prop where
  way : Trace p [] q
  current : q.source.current = p.source.current

/-- The parse is as deep in speculation as it was. It keeps the decisions
that it kept, and perhaps more; in speculation these are all about the
form of an `if`. -/
structure Notes (p q : Parser) : Prop where
  speculation : q.speculation = p.speculation
  memoizes : q.memoizes = p.memoizes
  memo : ∃ fresh, q.memo = fresh ++ p.memo ∧
    (p.isSpeculative = true → ∀ entry ∈ fresh, entry.1.1 = "if_form") ∧
    ∀ entry ∈ fresh, entry.2.IsIn q.text.length

/-- No token is consumed or read anew, and nothing is recorded or
reported. -/
structure Quiet (p q : Parser) : Prop extends Still p q where
  events : q.events = p.events
  diagnostics : q.diagnostics = p.diagnostics
  errorCount : q.errorCount = p.errorCount
  options : q.options = p.options
  file : q.file = p.file
  notes : Notes p q

/-- Only the record changes. -/
def Marks (p q : Parser) : Prop := q = { p with events := q.events }

/-- Nothing is reported, and the parse is as deep as it was. -/
structure Calm (p q : Parser) : Prop where
  diagnostics : q.diagnostics = p.diagnostics
  errorCount : q.errorCount = p.errorCount
  options : q.options = p.options
  file : q.file = p.file
  depth : q.depth = p.depth

/-- The parse goes on and only adds diagnostics, all of them of the grammar
and placed in the source, and at least one with its first error. -/
structure Moves (p q : Parser) : Prop where
  start : p.Live
  reaches : Reaches p q
  diagnostics : ∃ fresh, q.diagnostics.toList = p.diagnostics.toList ++ fresh ∧
    ∀ diagnostic ∈ fresh, diagnostic.OfGrammar
  errors : p.errorCount ≤ q.errorCount
  shown : p.errorCount < q.errorCount → q.diagnostics ≠ #[]
  placed : p.Placed → q.Placed
  options : q.options = p.options
  file : q.file = p.file
  notes : Notes p q

/-- The parse goes on, and the record grows by these sprouts. -/
structure Grows (p q : Parser) (sprouts : List Sprout) : Prop extends Moves p q where
  events : q.events.toList = p.events.toList ++ eventsList sprouts
  sound : SoundList sprouts
  orderly : OrderlyList sprouts

variable {p q r : Parser}

namespace Still

/-- A parser stands where it stands. -/
theorem refl (p : Parser) : Still p p := ⟨.refl p, rfl⟩

/-- Standing still twice is standing still. -/
theorem trans (h : Still p q) (h' : Still q r) : Still p r :=
  ⟨h.way.trans h'.way, h'.current.trans h.current⟩

/-- A change of the state apart from its tokens. -/
theorem of_source (source : q.source = p.source)
    (taken : Event.taken q.events.toList = Event.taken p.events.toList)
    (speculation : q.speculation = p.speculation) : Still p q :=
  ⟨.other (.refl p) source taken (by rw [speculation]; exact id), by rw [source]⟩

/-- To stand still is a way to a state, along no token. -/
theorem reaches (h : Still p q) : Reaches p q := ⟨_, h.way⟩

/-- The current token is of the same kind. -/
theorem kind (h : Still p q) : q.kind = p.kind := congrArg TokenSource.Current.kind h.current

/-- It is read in the same context. -/
theorem context (h : Still p q) : q.context = p.context :=
  congrArg TokenSource.Current.context h.current

/-- There is as much room in front as before. -/
theorem room (h : Still p q) (hp : p.Live) : q.room = p.room := by
  unfold Parser.room
  rw [h.reaches.text hp]
  exact congrArg (fun current => p.text.length - current.origin.position) h.current

/-- The parser stands at the same seam. -/
theorem at_ {seam : Seam} (h : Still p q) (hp : p.At seam) : q.At seam := (h.way.at_ hp).1

/-- What consumes the current token afterwards consumes that of the
start. -/
theorem takes (h : Still p q) (h' : Takes q r) : Takes p r := by
  obtain ⟨contexts, h'⟩ := h'
  rw [h.context] at h'
  exact ⟨contexts, h.way.trans h'⟩

end Still

namespace Notes

/-- Where the memo is as it was, nothing new has to be said about it. -/
theorem of_memo (speculation : q.speculation = p.speculation)
    (memoizes : q.memoizes = p.memoizes) (memo : q.memo = p.memo) : Notes p q :=
  ⟨speculation, memoizes, [], memo, nofun, nofun⟩

/-- Doing nothing remembers nothing. -/
theorem refl (p : Parser) : Notes p p := .of_memo rfl rfl rfl

/-- Whether the parse is speculative stays. -/
theorem isSpeculative (h : Notes p q) : q.isSpeculative = p.isSpeculative := by
  unfold Parser.isSpeculative
  rw [h.speculation]

/-- Decisions are added step by step. The text is the same, so their ranges stay
in it. -/
theorem trans (h : Notes p q) (h' : Notes q r) (text : r.text = q.text) : Notes p r where
  speculation := h'.speculation.trans h.speculation
  memoizes := h'.memoizes.trans h.memoizes
  memo := by
    obtain ⟨fresh, hq, hfresh, hin⟩ := h.memo
    obtain ⟨fresh', hr, hfresh', hin'⟩ := h'.memo
    refine ⟨fresh' ++ fresh, by rw [hr, hq, List.append_assoc], fun hp entry hmem => ?_,
      fun entry hmem => ?_⟩
    · rcases List.mem_append.mp hmem with hmem | hmem
      · exact hfresh' (h.isSpeculative.trans hp) entry hmem
      · exact hfresh hp entry hmem
    · rcases List.mem_append.mp hmem with hmem | hmem
      · exact hin' entry hmem
      · rw [text]
        exact hin entry hmem

end Notes

/-- What is recalled is among what is kept to the end. -/
theorem Parser.Placed.recalled {rule : String} {offset : Nat} {outcome : Outcome}
    (hq : q.Placed) (h : Notes p q) (hrecall : p.recall? rule offset = some outcome) :
    outcome.IsIn q.text.length := by
  obtain ⟨fresh, hmemo, -⟩ := h.memo
  unfold Parser.recall? at hrecall
  split at hrecall
  · obtain ⟨front, back, hlookup, -⟩ := List.lookup_eq_some_iff.mp hrecall
    refine hq.memo ((rule, offset), outcome) ?_
    rw [hmemo, hlookup]
    exact List.mem_append_right _ (List.mem_append_right _ List.mem_cons_self)
  · cases hrecall

namespace Quiet

/-- Doing nothing is quiet. -/
theorem refl (p : Parser) : Quiet p p := ⟨.refl p, rfl, rfl, rfl, rfl, rfl, .refl p⟩

/-- One quiet step after another. -/
theorem trans (h : Quiet p q) (h' : Quiet q r) : Quiet p r where
  toStill := h.toStill.trans h'.toStill
  events := h'.events.trans h.events
  diagnostics := h'.diagnostics.trans h.diagnostics
  errorCount := h'.errorCount.trans h.errorCount
  options := h'.options.trans h.options
  file := h'.file.trans h.file
  notes := h.notes.trans h'.notes h'.way.text

/-- A change of the depth of nesting or of the memo. -/
theorem of_source (source : q.source = p.source) (events : q.events = p.events)
    (diagnostics : q.diagnostics = p.diagnostics) (errorCount : q.errorCount = p.errorCount)
    (options : q.options = p.options) (file : q.file = p.file) (notes : Notes p q) : Quiet p q :=
  ⟨.of_source source (by rw [events]) notes.speculation, events, diagnostics, errorCount, options,
    file, notes⟩

/-- What was placed stays so, and what is remembered is placed. -/
theorem placed (h : Quiet p q) (hp : p.Placed) : q.Placed where
  diagnostics := by
    rw [h.diagnostics, h.way.text, h.file]
    exact hp.diagnostics
  memo := by
    obtain ⟨fresh, hmemo, -, hin⟩ := h.notes.memo
    intro entry hmem
    rw [hmemo] at hmem
    rcases List.mem_append.mp hmem with hmem | hmem
    · exact hin entry hmem
    · rw [h.way.text]
      exact hp.memo entry hmem

/-- After a quiet step the record has grown by nothing. -/
theorem grows (h : Quiet p q) (hp : p.Live) : Grows p q [] where
  start := hp
  reaches := h.reaches
  diagnostics := ⟨[], by rw [h.diagnostics, List.append_nil], fun _ hmem => nomatch hmem⟩
  errors := Nat.le_of_eq h.errorCount.symm
  shown := fun hlt => by rw [h.errorCount] at hlt; exact absurd hlt (Nat.lt_irrefl _)
  placed := h.placed
  options := h.options
  file := h.file
  notes := h.notes
  events := by rw [h.events]; exact (List.append_nil _).symm
  sound := trivial
  orderly := orderlyList_nil

end Quiet

/-- Marks are in the record, so the source is as it was. -/
theorem Marks.source (h : Marks p q) : q.source = p.source := by rw [h]

/-- One mark after another. -/
theorem Marks.trans (h : Marks p q) (h' : Marks q r) : Marks p r := by
  unfold Marks
  rw [h', h]

/-- Marks are in the record, so the memo is as it was. -/
theorem Marks.memo (h : Marks p q) : q.memo = p.memo := by rw [h]

/-- No decision is made. -/
theorem Marks.notes (h : Marks p q) : Notes p q := by
  rw [h]
  exact .of_memo rfl rfl rfl

/-- Nothing is reported, and no level is entered. -/
theorem Marks.calm (h : Marks p q) : Calm p q := by
  rw [h]
  exact ⟨rfl, rfl, rfl, rfl, rfl⟩

namespace Calm

/-- Doing nothing is calm. -/
theorem refl (p : Parser) : Calm p p := ⟨rfl, rfl, rfl, rfl, rfl⟩

/-- One calm step after another. -/
theorem trans (h : Calm p q) (h' : Calm q r) : Calm p r where
  diagnostics := h'.diagnostics.trans h.diagnostics
  errorCount := h'.errorCount.trans h.errorCount
  options := h'.options.trans h.options
  file := h'.file.trans h.file
  depth := h'.depth.trans h.depth

end Calm

namespace Moves

/-- A parse goes on step by step. If the first error is in the second step, the
diagnostic of that is still there; if it is in the first, the second only adds
to it. -/
theorem trans (h : Moves p q) (h' : Moves q r) : Moves p r where
  start := h.start
  reaches := h.reaches.trans h'.reaches
  diagnostics := by
    obtain ⟨fresh, hq, hfresh⟩ := h.diagnostics
    obtain ⟨fresh', hr, hfresh'⟩ := h'.diagnostics
    refine ⟨fresh ++ fresh', by rw [hr, hq, List.append_assoc], ?_⟩
    intro diagnostic hmem
    rcases List.mem_append.mp hmem with hmem | hmem
    · exact hfresh diagnostic hmem
    · exact hfresh' diagnostic hmem
  errors := Nat.le_trans h.errors h'.errors
  shown := by
    intro hlt
    rcases Nat.lt_or_ge q.errorCount r.errorCount with hlater | hlater
    · exact h'.shown hlater
    · obtain ⟨fresh, hr, -⟩ := h'.diagnostics
      intro hnone
      rw [hnone] at hr
      have hq := (List.append_eq_nil_iff.mp hr.symm).1
      exact h.shown (Nat.lt_of_lt_of_le hlt hlater) (Array.toList_inj.mp hq)
  placed := fun hp => h'.placed (h.placed hp)
  options := h'.options.trans h.options
  file := h'.file.trans h.file
  notes := h.notes.trans h'.notes (h'.reaches.text h'.start)

/-- The parse stays in front of a seam. -/
theorem live (h : Moves p q) : q.Live := h.reaches.live h.start

/-- A change of the record alone, around the same tokens. -/
theorem marks (h : Moves p q) (hstill : Still q r) (hmarks : Marks q r) : Moves p r where
  start := h.start
  reaches := h.reaches.trans hstill.reaches
  diagnostics := by rw [hmarks]; exact h.diagnostics
  errors := by rw [hmarks]; exact h.errors
  shown := by rw [hmarks]; exact h.shown
  placed := fun hp => by
    rw [hmarks]
    exact ⟨(h.placed hp).diagnostics, (h.placed hp).memo⟩
  options := by rw [hmarks]; exact h.options
  file := by rw [hmarks]; exact h.file
  notes := h.notes.trans hmarks.notes hstill.way.text

/-- There is no more room than before. -/
theorem room_le (h : Moves p q) : q.room ≤ p.room := h.reaches.room_le h.start

/-- Without errors at the end there were none at the start. -/
theorem errorCount_start (h : Moves p q) (hq : q.errorCount = 0) : p.errorCount = 0 :=
  Nat.le_zero.mp (hq ▸ h.errors)

end Moves

namespace Grows

variable {sprouts sprouts' : List Sprout}

/-- The record grows step by step, by the sprouts of both. -/
theorem trans (h : Grows p q sprouts) (h' : Grows q r sprouts') :
    Grows p r (sprouts ++ sprouts') where
  toMoves := h.toMoves.trans h'.toMoves
  events := by rw [h'.events, h.events, eventsList_append, List.append_assoc]
  sound := soundList_append h.sound h'.sound
  orderly := orderlyList_append h.orderly h'.orderly

/-- Doing nothing grows by nothing. -/
theorem refl (hp : p.Live) : Grows p p [] := (Quiet.refl p).grows hp

/-- Without a new part the record is the same. -/
theorem events_nil (h : Grows p q []) : q.events.toList = p.events.toList :=
  h.events.trans (List.append_nil _)

end Grows

/-! ### Words over roles -/

/-- The record grows, and without errors by parts whose roles are a word
of the language. -/
def Adds (p q : Parser) (word : Language Role) : Prop :=
  ∃ sprouts, Grows p q sprouts ∧
    (q.errorCount = 0 → ObeysList production sprouts ∧ sprouts.map role ∈ word)

/-- The record grows by parts that fill the slots. Without errors their
roles are a word of the language. -/
def Spells (p q : Parser) (slots : List Slot) (word : Language Role) : Prop :=
  ∃ sprouts, Grows p q sprouts ∧ Fills slots (outlines sprouts) ∧
    (q.errorCount = 0 → ObeysList production sprouts ∧ sprouts.map role ∈ word)

/-- The record grows by one node, the one of a handle, in no field, and
its outline is one of these. -/
def Forms (p q : Parser) (node : Completed) (outlines : Set Outline) : Prop :=
  ∃ sprout, Grows p q [sprout] ∧ node.PointsAt p.events.toList.length sprout ∧
    sprout.field = none ∧ sprout.outline ∈ outlines ∧
    (q.errorCount = 0 → sprout.Obeys production)

/-- The record grows by one node, the one of a handle. Without errors it
is of one of these kinds, and with errors it may be another one without
an operator. -/
def Makes (p q : Parser) (node : Completed) (field : Option String) (kinds : Set SyntaxKind) :
    Prop :=
  ∃ sprout, Grows p q [sprout] ∧ node.PointsAt p.events.toList.length sprout ∧
    sprout.field = field ∧ sprout.kind ∈ kinds ∪ plainKinds ∧
    (q.errorCount = 0 → sprout.Obeys production ∧ sprout.kind ∈ kinds)

/-- The record grows by one node, the one of a handle, of one of these
kinds. -/
def Builds (p q : Parser) (node : Completed) (field : Option String) (kinds : Set SyntaxKind) :
    Prop :=
  ∃ sprout, Grows p q [sprout] ∧ node.PointsAt p.events.toList.length sprout ∧
    sprout.field = field ∧ sprout.kind ∈ kinds ∧ (q.errorCount = 0 → sprout.Obeys production)

namespace Adds

variable {word word' : Language Role}

/-- What adds a word goes on. -/
theorem moves (h : Adds p q word) : Moves p q := by
  obtain ⟨sprouts, h, -⟩ := h
  exact h.toMoves

/-- The parse stays in front of a seam. -/
theorem live (h : Adds p q word) : q.Live := h.moves.live

/-- There is no more room than before. -/
theorem room_le (h : Adds p q word) : q.room ≤ p.room := h.moves.room_le

/-- The state is reached. -/
theorem reaches (h : Adds p q word) : Reaches p q := h.moves.reaches

/-- Growing by nothing adds the empty word. -/
theorem of_grows (h : Grows p q []) : Adds p q 1 := ⟨[], h, fun _ => ⟨trivial, rfl⟩⟩

/-- Doing nothing adds the empty word. -/
theorem refl (hp : p.Live) : Adds p p 1 := .of_grows (.refl hp)

/-- One word after another. -/
theorem trans (h : Adds p q word) (h' : Adds q r word') : Adds p r (word * word') := by
  obtain ⟨sprouts, h, hclean⟩ := h
  obtain ⟨sprouts', h', hclean'⟩ := h'
  refine ⟨sprouts ++ sprouts', h.trans h', fun hr => ?_⟩
  obtain ⟨hobeys, hword⟩ := hclean (h'.errorCount_start hr)
  obtain ⟨hobeys', hword'⟩ := hclean' hr
  refine ⟨obeysList_append hobeys hobeys', ?_⟩
  rw [List.map_append]
  exact Language.append_mem_mul hword hword'

/-- A word of a smaller language is one of a larger. -/
theorem mono (h : Adds p q word) (hle : word ≤ word') : Adds p q word' := by
  obtain ⟨sprouts, h, hclean⟩ := h
  exact ⟨sprouts, h, fun hq => ⟨(hclean hq).1, hle (hclean hq).2⟩⟩

/-- After an error there is nothing to show. -/
theorem of_failed (h : Adds p q word) (hfail : q.errorCount ≠ 0) : Adds p q word' := by
  obtain ⟨sprouts, h, -⟩ := h
  exact ⟨sprouts, h, fun hq => absurd hq hfail⟩

/-- What is added stays. -/
theorem stays (h : Adds p q word) (h' : Grows q r []) : Adds p r word := by
  rw [← mul_one word]
  exact h.trans (.of_grows h')

/-- Quiet steps add nothing. -/
theorem quiet (h : Adds p q word) (h' : Quiet q r) : Adds p r word := h.stays (h'.grows h.live)

end Adds

namespace Spells

variable {slots slots' : List Slot} {slot : Slot} {word word' : Language Role}

/-- What fills slots adds a word. -/
theorem adds (h : Spells p q slots word) : Adds p q word := by
  obtain ⟨sprouts, h, -, hclean⟩ := h
  exact ⟨sprouts, h, hclean⟩

/-- The parse stays in front of a seam. -/
theorem live (h : Spells p q slots word) : q.Live := h.adds.live

/-- There is no more room than before. -/
theorem room_le (h : Spells p q slots word) : q.room ≤ p.room := h.adds.room_le

/-- Growing by nothing fills no slot. -/
theorem of_grows (h : Grows p q []) : Spells p q [] 1 := ⟨[], h, .nil, fun _ => ⟨trivial, rfl⟩⟩

/-- Slots are filled one after another. -/
theorem trans (h : Spells p q slots word) (h' : Spells q r slots' word') :
    Spells p r (slots ++ slots') (word * word') := by
  obtain ⟨sprouts, h, hfills, hclean⟩ := h
  obtain ⟨sprouts', h', hfills', hclean'⟩ := h'
  refine ⟨sprouts ++ sprouts', h.trans h', ?_, fun hr => ?_⟩
  · rw [outlines_append]
    exact hfills.append hfills'
  obtain ⟨hobeys, hword⟩ := hclean (h'.errorCount_start hr)
  obtain ⟨hobeys', hword'⟩ := hclean' hr
  refine ⟨obeysList_append hobeys hobeys', ?_⟩
  rw [List.map_append]
  exact Language.append_mem_mul hword hword'

/-- A word of a smaller language is one of a larger. -/
theorem mono (h : Spells p q slots word) (hle : word ≤ word') : Spells p q slots word' := by
  obtain ⟨sprouts, h, hfills, hclean⟩ := h
  exact ⟨sprouts, h, hfills, fun hq => ⟨(hclean hq).1, hle (hclean hq).2⟩⟩

/-- After an error only the slots count. -/
theorem of_failed (h : Spells p q slots word) (hfail : q.errorCount ≠ 0) :
    Spells p q slots word' := by
  obtain ⟨sprouts, h, hfills, -⟩ := h
  exact ⟨sprouts, h, hfills, fun hq => absurd hq hfail⟩

/-- What fills a slot fills it as an optional one. -/
theorem optional (h : Spells p q [slot] word) : Spells p q [slot.optional] word := by
  obtain ⟨sprouts, h, hfills, hclean⟩ := h
  exact ⟨sprouts, h, hfills.optional, hclean⟩

/-- An optional slot is left empty. -/
theorem nothing (h : Grows p q []) (slot : Slot) : Spells p q [slot.optional] 1 :=
  ⟨[], h, .empty slot, fun _ => ⟨trivial, rfl⟩⟩

/-- Nothing is added before. -/
theorem after (h' : Spells q r slots word) (h : Grows p q []) : Spells p r slots word := by
  have hspells := (of_grows h).trans h'
  rwa [List.nil_append, one_mul] at hspells

end Spells

namespace Makes

variable {node : Completed} {field : Option String} {kinds kinds' : Set SyntaxKind}

/-- What makes a node goes on. -/
theorem moves (h : Makes p q node field kinds) : Moves p q := by
  obtain ⟨sprout, h, -⟩ := h
  exact h.toMoves

/-- The parse stays in front of a seam. -/
theorem live (h : Makes p q node field kinds) : q.Live := h.moves.live

/-- There is no more room than before. -/
theorem room_le (h : Makes p q node field kinds) : q.room ≤ p.room := h.moves.room_le

/-- A node of fewer kinds is one of more. -/
theorem mono (h : Makes p q node field kinds) (hle : kinds ⊆ kinds') :
    Makes p q node field kinds' := by
  obtain ⟨sprout, h, hpoints, hfield, hkind, hclean⟩ := h
  exact ⟨sprout, h, hpoints, hfield, Set.union_subset_union_left _ hle hkind,
    fun hq => ⟨(hclean hq).1, hle (hclean hq).2⟩⟩

/-- A node of a plain kind passes for one of any kind once an error was counted:
of a parse with errors no production is asked. -/
theorem of_failed (h : Makes p q node field kinds) (hplain : kinds ⊆ plainKinds)
    (hfail : q.errorCount ≠ 0) : Makes p q node field kinds' := by
  obtain ⟨sprout, h, hpoints, hfield, hkind, -⟩ := h
  exact ⟨sprout, h, hpoints, hfield, .inr (Set.union_subset hplain (le_refl _) hkind),
    fun hq => absurd hq hfail⟩

/-- A node is a word of one role. -/
theorem adds (h : Makes p q node field kinds) : Adds p q (part field kinds) := by
  obtain ⟨sprout, h, -, hfield, -, hclean⟩ := h
  refine ⟨[sprout], h, fun hq => ?_⟩
  obtain ⟨hobeys, hkind⟩ := hclean hq
  exact ⟨⟨hobeys, trivial⟩, sprout.kind, hkind, by rw [← hfield]; rfl⟩

/-- A node of whatever kind fills a field. -/
theorem fills {field : String} (h : Makes p q node (some field) kinds) : Adds p q (into field) :=
  (h.mono (Set.subset_univ _)).adds

/-- The node fills a slot of its field, errors or not. -/
theorem spells {field : String} (h : Makes p q node (some field) kinds) :
    Spells p q [.node field] (part (some field) kinds) := by
  obtain ⟨sprout, h, hpoints, hfield, -, hclean⟩ := h
  have hlabel : sprout.outline.label = (some field, none) := by
    rw [Sprout.label_outline hpoints.isNode, hfield]
  refine ⟨[sprout], h, .one ⟨hlabel, trivial⟩, fun hq => ?_⟩
  obtain ⟨hobeys, hkind⟩ := hclean hq
  exact ⟨⟨hobeys, trivial⟩, sprout.kind, hkind, by rw [← hfield]; rfl⟩

/-- Nothing is added before the node. -/
theorem after (h' : Makes q r node field kinds) (h : Grows p q []) : Makes p r node field kinds := by
  obtain ⟨sprout, h', hpoints, hrest⟩ := h'
  rw [h.events_nil] at hpoints
  exact ⟨sprout, h.trans h', hpoints, hrest⟩

/-- The node stays. -/
theorem stays (h : Makes p q node field kinds) (h' : Grows q r []) :
    Makes p r node field kinds := by
  obtain ⟨sprout, h, hpoints, hfield, hkind, hclean⟩ := h
  exact ⟨sprout, h.trans h', hpoints, hfield, hkind,
    fun hr => hclean (h'.errorCount_start hr)⟩

/-- Quiet steps leave the node alone. -/
theorem quiet (h : Makes p q node field kinds) (h' : Quiet q r) : Makes p r node field kinds :=
  h.stays (h'.grows h.live)

end Makes

namespace Builds

variable {node : Completed} {field : Option String} {kinds kinds' : Set SyntaxKind}

/-- What is built is made. -/
theorem makes (h : Builds p q node field kinds) : Makes p q node field kinds := by
  obtain ⟨sprout, h, hpoints, hfield, hkind, hclean⟩ := h
  exact ⟨sprout, h, hpoints, hfield, .inl hkind, fun hq => ⟨hclean hq, hkind⟩⟩

/-- The parse stays in front of a seam. -/
theorem live (h : Builds p q node field kinds) : q.Live := h.makes.live

/-- A node of fewer kinds is one of more. -/
theorem mono (h : Builds p q node field kinds) (hle : kinds ⊆ kinds') :
    Builds p q node field kinds' := by
  obtain ⟨sprout, h, hpoints, hfield, hkind, hclean⟩ := h
  exact ⟨sprout, h, hpoints, hfield, hle hkind, hclean⟩

/-- Nothing is added before the node. -/
theorem after (h' : Builds q r node field kinds) (h : Grows p q []) :
    Builds p r node field kinds := by
  obtain ⟨sprout, h', hpoints, hrest⟩ := h'
  rw [h.events_nil] at hpoints
  exact ⟨sprout, h.trans h', hpoints, hrest⟩

/-- The node fills a slot that asks for its kind. -/
theorem spells {field : String} (h : Builds p q node (some field) kinds) :
    Spells p q [{ Slot.node field with kinds }] (part (some field) kinds) := by
  obtain ⟨sprout, h, hpoints, hfield, hkind, hclean⟩ := h
  have hlabel : sprout.outline.label = (some field, none) := by
    rw [Sprout.label_outline hpoints.isNode, hfield]
  refine ⟨[sprout], h, .one ⟨hlabel, ?_⟩, fun hq => ?_⟩
  · rw [kind_outline]
    exact hkind
  · exact ⟨⟨hclean hq, trivial⟩, sprout.kind, hkind, by rw [← hfield]; rfl⟩

end Builds

namespace Forms

variable {node : Completed} {outlines outlines' : Set Outline}

/-- What forms a node goes on. -/
theorem moves (h : Forms p q node outlines) : Moves p q := by
  obtain ⟨sprout, h, -⟩ := h
  exact h.toMoves

/-- A node of fewer outlines is one of more. -/
theorem mono (h : Forms p q node outlines) (hle : outlines ⊆ outlines') :
    Forms p q node outlines' := by
  obtain ⟨sprout, h, hpoints, hfield, hmem, hclean⟩ := h
  exact ⟨sprout, h, hpoints, hfield, hle hmem, hclean⟩

/-- The outline tells the kind. -/
theorem builds {kinds : Set SyntaxKind} (h : Forms p q node outlines)
    (hkinds : ∀ outline ∈ outlines, outline.kind ∈ kinds) : Builds p q node none kinds := by
  obtain ⟨sprout, h, hpoints, hfield, hmem, hclean⟩ := h
  have hkind := hkinds _ hmem
  rw [kind_outline] at hkind
  exact ⟨sprout, h, hpoints, hfield, hkind, hclean⟩

/-- A node with a known outline is of a known kind. -/
theorem makes {kinds : Set SyntaxKind} (h : Forms p q node outlines)
    (hkinds : ∀ outline ∈ outlines, outline.kind ∈ kinds) : Makes p q node none kinds :=
  (h.builds hkinds).makes

/-- A node of a known kind has a known outline, if all outlines of these kinds
are allowed. -/
theorem of_makes {kinds : Set SyntaxKind} (h : Makes p q node none kinds)
    (hkinds : ∀ outline : Outline, outline.kind ∈ kinds ∪ plainKinds → outline ∈ outlines) :
    Forms p q node outlines := by
  obtain ⟨sprout, h, hpoints, hfield, hkind, hclean⟩ := h
  rw [← kind_outline] at hkind
  exact ⟨sprout, h, hpoints, hfield, hkinds _ hkind, fun hq => (hclean hq).1⟩

/-- Nothing is added before the node. -/
theorem after (h' : Forms q r node outlines) (h : Grows p q []) : Forms p r node outlines := by
  obtain ⟨sprout, h', hpoints, hrest⟩ := h'
  rw [h.events_nil] at hpoints
  exact ⟨sprout, h.trans h', hpoints, hrest⟩

/-- Quiet steps leave the node alone. -/
theorem quiet (h : Forms p q node outlines) (h' : Quiet q r) : Forms p r node outlines := by
  have hgrows := h'.grows h.moves.live
  obtain ⟨sprout, h, hpoints, hfield, hmem, hclean⟩ := h
  exact ⟨sprout, h.trans hgrows, hpoints, hfield, hmem,
    fun hr => hclean (hgrows.errorCount_start hr)⟩

end Forms

/-! ### Open nodes -/

/-- The first child of an open node in the record, if the node was put
around one. -/
def Sprout.opening : Option Sprout → List Event
  | none => []
  | some first => first.events (some first.own)

/-- The node that an open one becomes. -/
def Sprout.close (first : Option Sprout) (kind : SyntaxKind) (rest : List Sprout) : Sprout :=
  match first with
  | none => node kind none rest
  | some first => around first kind none rest

/-- A node was started, perhaps around a first child, and has these
further children so far. -/
structure OpenedWith (p : Parser) (marker : Marker) (q : Parser) (first : Option Sprout)
    (rest : List Sprout) : Prop extends Moves p q where
  events : q.events.toList
    = p.events.toList ++ opening first ++ Event.pending :: eventsList rest
  index : marker.index = (p.events.toList ++ opening first).length
  firstEvent : marker.firstEvent = p.events.toList.length
  firstSound : ∀ sprout ∈ first, sprout.isNode = true ∧ sprout.Sound
  firstOrderly : ∀ sprout ∈ first, sprout.Orderly
  sound : SoundList rest
  orderly : OrderlyList rest

/-- The children of an open node become more. -/
theorem OpenedWith.grows {marker : Marker} {first : Option Sprout} {rest sprouts : List Sprout}
    (h : OpenedWith p marker q first rest) (h' : Grows q r sprouts) :
    OpenedWith p marker r first (rest ++ sprouts) where
  toMoves := h.toMoves.trans h'.toMoves
  events := by
    rw [h'.events, h.events, eventsList_append, List.append_assoc]
    rfl
  index := h.index
  firstEvent := h.firstEvent
  firstSound := h.firstSound
  firstOrderly := h.firstOrderly
  sound := soundList_append h.sound h'.sound
  orderly := orderlyList_append h.orderly h'.orderly

/-- A node with these children was started, and without errors their
roles are a word of the language. -/
def OpenedAs (p : Parser) (marker : Marker) (q : Parser) (first : Option Sprout)
    (rest : List Sprout) (word : Language Role) : Prop :=
  OpenedWith p marker q first rest ∧
    (q.errorCount = 0 → (∀ sprout ∈ first, sprout.Obeys production) ∧
      ObeysList production rest ∧ first.toList.map role ++ rest.map role ∈ word)

/-- More children make a longer word. -/
theorem OpenedAs.grows {marker : Marker} {first : Option Sprout} {rest sprouts : List Sprout}
    {word word' : Language Role} (h : OpenedAs p marker q first rest word)
    (h' : Grows q r sprouts)
    (hclean' : r.errorCount = 0 → ObeysList production sprouts ∧ sprouts.map role ∈ word') :
    OpenedAs p marker r first (rest ++ sprouts) (word * word') := by
  obtain ⟨h, hclean⟩ := h
  refine ⟨h.grows h', fun hr => ?_⟩
  obtain ⟨hfirst, hobeys, hword⟩ := hclean (h'.errorCount_start hr)
  obtain ⟨hobeys', hword'⟩ := hclean' hr
  refine ⟨hfirst, obeysList_append hobeys hobeys', ?_⟩
  rw [List.map_append, ← List.append_assoc]
  exact Language.append_mem_mul hword hword'

/-- A node was started, and without errors the roles of its children so
far are a word of the language. -/
def Opened (p : Parser) (marker : Marker) (q : Parser) (word : Language Role) : Prop :=
  ∃ first rest, OpenedAs p marker q first rest word

namespace Opened

variable {marker : Marker} {word word' : Language Role}

/-- A parse with an open node went on. -/
theorem moves (h : Opened p marker q word) : Moves p q := by
  obtain ⟨first, rest, h, -⟩ := h
  exact h.toMoves

/-- The parse stays in front of a seam. -/
theorem live (h : Opened p marker q word) : q.Live := h.moves.live

/-- There is no more room than before. -/
theorem room_le (h : Opened p marker q word) : q.room ≤ p.room := h.moves.room_le

/-- A word is added to the open node. -/
theorem adds (h : Opened p marker q word) (h' : Adds q r word') :
    Opened p marker r (word * word') := by
  obtain ⟨first, rest, h⟩ := h
  obtain ⟨sprouts, h', hclean'⟩ := h'
  exact ⟨first, rest ++ sprouts, h.grows h' hclean'⟩

/-- A word of a smaller language is one of a larger. -/
theorem mono (h : Opened p marker q word) (hle : word ≤ word') : Opened p marker q word' := by
  obtain ⟨first, rest, h, hclean⟩ := h
  exact ⟨first, rest, h, fun hq => ⟨(hclean hq).1, (hclean hq).2.1, hle (hclean hq).2.2⟩⟩

/-- With an error counted the word may be any. -/
theorem of_failed (h : Opened p marker q word) (hfail : q.errorCount ≠ 0) :
    Opened p marker q word' := by
  obtain ⟨first, rest, h, -⟩ := h
  exact ⟨first, rest, h, fun hq => absurd hq hfail⟩

/-- The open node stays. -/
theorem stays (h : Opened p marker q word) (h' : Grows q r []) : Opened p marker r word := by
  rw [← mul_one word]
  exact h.adds (.of_grows h')

end Opened

end MarkupSyntax
