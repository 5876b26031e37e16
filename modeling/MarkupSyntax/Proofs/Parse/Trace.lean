import MarkupSyntax.Parse.State
import MarkupSyntax.Proofs.Token.Seam

/-!
# `MarkupSyntax.Proofs.Parse.Trace`: which tokens a parse has consumed

`Trace p contexts q` says how a parse gets from `p` to `q`: by consuming
the current token, reading it anew, looking ahead, going back to a
checkpoint, and by changes that concern no token. `contexts` are the
contexts of the tokens that were consumed on the way and not given back,
each the one in which the token was the current one.

Going back is the step that could break the link between the record, the
trivia and the lexer. It is a step of a trace only if the token that was
current at the checkpoint has been consumed since in the context that it
had then, or is the current one again in that context, and if the record
still begins with the events that it had then.

The main statement is `Trace.at_`: where `p` stands at a seam, `q` stands
at the seam along the contexts, and what the record of `q` has more than
that of `p` are the tokens on this way. So all that the grammar does to
the token source is one walk from seam to seam.
-/

set_option autoImplicit false

namespace MarkupSyntax

/-- The kind that the lexer gives to a token of this kind. -/
def SyntaxKind.lexeme? : SyntaxKind → Option TokenKind
  | token kind => some kind
  | rawKeyword => some .identifier
  | _ => none

/-- The tokens of a record: the lexer's kind of each, and where it
stops. -/
def Event.taken (events : List Event) : List (Option TokenKind × Nat) :=
  events.filterMap fun
    | .token kind stop _ => some (kind.lexeme?, stop)
    | _ => none

/-- The tokens of two records one after another. -/
@[simp] theorem Event.taken_append (events events' : List Event) :
    taken (events ++ events') = taken events ++ taken events' :=
  List.filterMap_append

namespace Seam

variable {seam : Seam} {context : LexContext}

/-- The tokens on the way along these contexts. -/
def takes (seam : Seam) : List LexContext → List (Option TokenKind × Nat)
  | [] => []
  | context :: rest =>
    (some (seam.current context).kind, (seam.current context).range.stop) ::
      (seam.pass context).takes rest

/-- The last token that is taken. -/
theorem takes_concat (contexts : List LexContext) :
    seam.takes (contexts ++ [context]) = seam.takes contexts ++
      [(some ((seam.along contexts).current context).kind,
        ((seam.along contexts).current context).range.stop)] := by
  induction contexts generalizing seam with
  | nil => rfl
  | cons first rest ih => exact congrArg (_ :: ·) ih

/-- The last token on a way stops where the way ends. -/
theorem getLast?_takes {contexts : List LexContext} (h : contexts ≠ []) :
    (seam.takes contexts).getLast?.map (·.2) = some (seam.along contexts).lexer.position := by
  obtain ⟨before, last, rfl⟩ : ∃ before last, contexts = before ++ [last] :=
    ⟨_, _, (List.dropLast_concat_getLast h).symm⟩
  rw [takes_concat, List.getLast?_concat, along_concat]
  rfl

/-- None of the tokens along these contexts is the end of the source. -/
def Passes (seam : Seam) : List LexContext → Prop
  | [] => True
  | context :: rest => (seam.current context).kind ≠ .eof ∧ (seam.pass context).Passes rest

/-- So none of them is recorded as the end. -/
theorem Passes.ne_of_mem_takes {contexts : List LexContext} (h : seam.Passes contexts)
    {item : Option TokenKind × Nat} (hmem : item ∈ seam.takes contexts) : item.1 ≠ some .eof := by
  induction contexts generalizing seam with
  | nil => cases hmem
  | cons context rest ih =>
    rcases List.mem_cons.mp hmem with rfl | hmem
    · intro heof
      exact h.1 (Option.some.inj heof)
    · exact ih h.2 hmem

/-- One token more is passed if it is not the end of the source. -/
theorem passes_concat {contexts : List LexContext} (h : seam.Passes contexts)
    (hkind : ((seam.along contexts).current context).kind ≠ .eof) :
    seam.Passes (contexts ++ [context]) := by
  induction contexts generalizing seam with
  | nil => exact ⟨hkind, trivial⟩
  | cons first rest ih => exact ⟨h.1, ih h.2 hkind⟩

/-- The seam only goes forward. -/
theorem position_le_along (inside : seam.lexer.IsInside) (contexts : List LexContext) :
    seam.lexer.position ≤ (seam.along contexts).lexer.position :=
  (reads_legs inside contexts).position_le

end Seam

namespace Parser

variable {p : Parser} {seam : Seam}

/-- The context of the current token. -/
def context (p : Parser) : LexContext := p.source.current.context

/-- The offset up to which the source is consumed. -/
def done (p : Parser) : Nat := p.source.current.origin.position

/-- The number of characters that are not consumed. -/
def room (p : Parser) : Nat := p.text.length - p.done

/-- The parse stands at a seam. -/
structure At (p : Parser) (seam : Seam) : Prop where
  inside : seam.lexer.IsInside
  stands : p.source.StandsAt seam

namespace At

/-- The current token is the one behind the seam. -/
theorem current (h : p.At seam) : p.source.current = seam.current p.context := h.stands.current

/-- The kind of the current token. -/
theorem kind (h : p.At seam) : p.kind = (seam.current p.context).kind :=
  congrArg TokenSource.Current.kind h.current

/-- The range of the current token. -/
theorem range (h : p.At seam) : p.range = (seam.current p.context).range :=
  congrArg TokenSource.Current.range h.current

/-- The source is consumed up to the seam. -/
theorem done (h : p.At seam) : p.done = seam.lexer.position := by
  show p.source.current.origin.position = _
  rw [h.current]
  rfl

/-- The text of the parse is that of the seam. -/
theorem text (h : p.At seam) : p.text = seam.lexer.source := by
  show p.source.buffer.lexer.source = _
  rw [h.stands.buffer.source]
  exact (Seam.reads_leg h.inside _).extends_.source

/-- No more is consumed than there is. -/
theorem done_le (h : p.At seam) : p.done ≤ p.text.length := by
  rw [h.done, h.text]
  exact h.inside

end At

/-- A parse that stands at a seam. -/
def Live (p : Parser) : Prop := ∃ seam, p.At seam

end Parser

/-- The way of a parse from one state to another, with the contexts of
the tokens consumed. -/
inductive Trace : Parser → List LexContext → Parser → Prop
  | refl (p : Parser) : Trace p [] p
  /-- The current token is consumed; `raw` may be recorded as a
  keyword. -/
  | bump {p q : Parser} {contexts : List LexContext} (way : Trace p contexts q)
      (context : LexContext) (field : Option String) {kind : Option SyntaxKind}
      (notEnd : q.kind ≠ .eof)
      (plain : (kind.getD (.token q.kind)).lexeme? = some q.kind) :
      Trace p (contexts ++ [q.context]) (q.bump context field kind)
  | relex {p q : Parser} {contexts : List LexContext} (way : Trace p contexts q)
      (context : LexContext) : Trace p contexts (q.relex context)
  | lookKind {p q : Parser} {contexts : List LexContext} (way : Trace p contexts q) (n : Nat) :
      Trace p contexts { q with source := (q.source.nthKind n).2 }
  | lookTrivia {p q : Parser} {contexts : List LexContext} (way : Trace p contexts q) (n : Nat) :
      Trace p contexts { q with source := (q.source.nthAfterTrivia n).2 }
  /-- A change that concerns no token, and ends no speculation that was
  not begun. -/
  | other {p q q' : Parser} {contexts : List LexContext} (way : Trace p contexts q)
      (source : q'.source = q.source)
      (taken : Event.taken q'.events.toList = Event.taken q.events.toList)
      (speculation : 0 ≤ q.speculation → 0 ≤ q'.speculation) : Trace p contexts q'
  /-- The parse goes back to a checkpoint. -/
  | rewind {p q r : Parser} {contexts contexts' : List LexContext} (way : Trace p contexts q)
      (detour : Trace q contexts' r)
      (onTheWay : (contexts' ++ [r.context]).head? = some q.context)
      (record : q.events.toList <+: r.events.toList) :
      Trace p contexts (r.rewind q.checkpoint)

namespace Trace

variable {p q r : Parser} {contexts contexts' : List LexContext} {seam : Seam}

/-- One way after another is a way. The induction is on the second. -/
theorem trans (h : Trace p contexts q) (h' : Trace q contexts' r) :
    Trace p (contexts ++ contexts') r := by
  induction h' with
  | refl q =>
    rw [List.append_nil]
    exact h
  | bump _ context field notEnd plain ih =>
    rw [← List.append_assoc]
    exact .bump (ih h) context field notEnd plain
  | relex _ context ih => exact .relex (ih h) context
  | lookKind _ n ih => exact .lookKind (ih h) n
  | lookTrivia _ n ih => exact .lookTrivia (ih h) n
  | other _ source taken speculation ih => exact .other (ih h) source taken speculation
  | rewind _ detour onTheWay record ih _ => exact .rewind (ih h) detour onTheWay record

/-- A record is cut back to what it was, if it only grew. -/
theorem take_size {α : Type} {xs ys : Array α} (h : xs.toList <+: ys.toList) :
    ys.take xs.size = xs := by
  apply Array.toList_inj.mp
  rw [Array.take_eq_extract, Array.toList_extract, List.extract_eq_take_drop, Nat.sub_zero,
    List.drop_zero]
  exact (List.prefix_iff_eq_take.mp h).symm

/-- A parse that stands at a seam goes from seam to seam, and records
the tokens on its way. -/
theorem at_ (h : Trace p contexts q) (hp : p.At seam) :
    q.At (seam.along contexts) ∧ seam.Passes contexts ∧
      Event.taken q.events.toList = Event.taken p.events.toList ++ seam.takes contexts := by
  induction h generalizing seam with
  | refl p => exact ⟨hp, trivial, (List.append_nil _).symm⟩
  | @bump p q contexts _ context field kind notEnd plain ih =>
    obtain ⟨hq, hpasses, htaken⟩ := ih hp
    have hkind : ((seam.along contexts).current q.context).kind = q.kind := hq.kind.symm
    have hrange : ((seam.along contexts).current q.context).range = q.range := hq.range.symm
    unfold Parser.bump
    rw [if_neg notEnd, Seam.along_concat, Seam.takes_concat, hkind, hrange]
    refine ⟨⟨Seam.isInside_pass hq.inside _, hq.stands.bump hq.inside notEnd⟩, ?_, ?_⟩
    · exact Seam.passes_concat hpasses (by rw [hkind]; exact notEnd)
    · rw [Array.toList_push, Event.taken_append, htaken, List.append_assoc]
      show _ ++ (_ ++ [((kind.getD (.token q.kind)).lexeme?, q.range.stop)]) = _
      rw [plain]
  | relex _ context ih =>
    obtain ⟨hq, hpasses, htaken⟩ := ih hp
    exact ⟨⟨hq.inside, hq.stands.relex hq.inside⟩, hpasses, htaken⟩
  | lookKind _ n ih =>
    obtain ⟨hq, hpasses, htaken⟩ := ih hp
    exact ⟨⟨hq.inside, (hq.stands.nthKind hq.inside n).2.1⟩, hpasses, htaken⟩
  | lookTrivia _ n ih =>
    obtain ⟨hq, hpasses, htaken⟩ := ih hp
    exact ⟨⟨hq.inside, (hq.stands.nthAfterTrivia hq.inside n).2.1⟩, hpasses, htaken⟩
  | other _ source taken _ ih =>
    obtain ⟨hq, hpasses, htaken⟩ := ih hp
    exact ⟨⟨hq.inside, source ▸ hq.stands⟩, hpasses, taken.trans htaken⟩
  | @rewind p q r contexts contexts' _ _ onTheWay record ih ih' =>
    obtain ⟨hq, hpasses, htaken⟩ := ih hp
    obtain ⟨hr, -, -⟩ := ih' hq
    -- The way from the checkpoint starts with the token that was current there.
    have hway : ∃ rest, contexts' ++ [r.context] = q.context :: rest := by
      cases hall : contexts' ++ [r.context] with
      | nil => exact absurd hall (by simp)
      | cons first rest =>
        rw [hall] at onTheWay
        exact ⟨rest, by rw [Option.some.inj onTheWay]⟩
    obtain ⟨rest, hway⟩ := hway
    have hpass : ((seam.along contexts).along contexts').pass r.context
        = ((seam.along contexts).pass q.context).along rest := by
      rw [← Seam.along_concat, hway]
      rfl
    refine ⟨⟨hq.inside, (hq.stands.rewind hq.inside hr.stands hpass).1⟩, hpasses, ?_⟩
    show Event.taken (r.events.take q.events.size).toList = _
    rw [take_size record]
    exact htaken

/-- On the way the text is the same. -/
theorem text (h : Trace p contexts q) : q.text = p.text := by
  induction h with
  | refl p => rfl
  | bump _ context field notEnd _ ih =>
    unfold Parser.bump
    rw [if_neg notEnd, ← ih]
    exact TokenSource.text_bump
  | relex _ context ih => exact TokenSource.text_relex.trans ih
  | lookKind _ n ih => exact (TokenSource.text_nthKind n).trans ih
  | lookTrivia _ n ih => exact (TokenSource.text_nthAfterTrivia n).trans ih
  | other _ source _ _ ih => exact (congrArg TokenSource.text source).trans ih
  | rewind _ _ _ _ ih ih' => exact ih'.trans ih

/-- No speculation ends that was not begun. -/
theorem speculation_nonneg (h : Trace p contexts q) (hp : 0 ≤ p.speculation) :
    0 ≤ q.speculation := by
  induction h with
  | refl p => exact hp
  | bump _ context field notEnd _ ih =>
    unfold Parser.bump
    rw [if_neg notEnd]
    exact ih hp
  | relex _ context ih => exact ih hp
  | lookKind _ n ih => exact ih hp
  | lookTrivia _ n ih => exact ih hp
  | other _ _ _ speculation ih => exact speculation (ih hp)
  | rewind _ _ _ _ ih _ => exact ih hp

end Trace

/-! ### Progress -/

/-- `q` is reached from `p`. -/
def Reaches (p q : Parser) : Prop := ∃ contexts, Trace p contexts q

/-- `q` is reached from `p` by consuming the current token of `p`, and
perhaps more. -/
def Takes (p q : Parser) : Prop := ∃ contexts, Trace p (p.context :: contexts) q

namespace Reaches

variable {p q r : Parser}

/-- A state is reached from itself. -/
theorem refl (p : Parser) : Reaches p p := ⟨[], .refl p⟩

/-- Ways follow one another. -/
theorem trans (h : Reaches p q) (h' : Reaches q r) : Reaches p r := by
  obtain ⟨contexts, h⟩ := h
  obtain ⟨contexts', h'⟩ := h'
  exact ⟨_, h.trans h'⟩

/-- What is reached is in front of a seam. -/
theorem live (h : Reaches p q) (hp : p.Live) : q.Live := by
  obtain ⟨contexts, h⟩ := h
  obtain ⟨seam, hp⟩ := hp
  exact ⟨_, (h.at_ hp).1⟩

/-- The text is the same all the way. -/
theorem text (h : Reaches p q) (hp : p.Live) : q.text = p.text := by
  obtain ⟨contexts, h⟩ := h
  obtain ⟨seam, hp⟩ := hp
  rw [(h.at_ hp).1.text, hp.text]
  exact (Seam.reads_legs hp.inside _).extends_.source

/-- As much is consumed at least. -/
theorem done_le (h : Reaches p q) (hp : p.Live) : p.done ≤ q.done := by
  obtain ⟨contexts, h⟩ := h
  obtain ⟨seam, hp⟩ := hp
  rw [(h.at_ hp).1.done, hp.done]
  exact Seam.position_le_along hp.inside contexts

/-- There is no more room than before. -/
theorem room_le (h : Reaches p q) (hp : p.Live) : q.room ≤ p.room := by
  have := h.done_le hp
  unfold Parser.room
  rw [h.text hp]
  omega

end Reaches

namespace Takes

variable {p q r : Parser}

/-- What takes a token is reached. -/
theorem reaches (h : Takes p q) : Reaches p q := by
  obtain ⟨contexts, h⟩ := h
  exact ⟨_, h⟩

/-- A way behind a token takes the token. -/
theorem trans (h : Takes p q) (h' : Reaches q r) : Takes p r := by
  obtain ⟨contexts, h⟩ := h
  obtain ⟨contexts', h'⟩ := h'
  exact ⟨contexts ++ contexts', h.trans h'⟩

/-- The token that was consumed is behind. -/
theorem stop_le_done (h : Takes p q) (hp : p.Live) : p.range.stop ≤ q.done := by
  obtain ⟨contexts, h⟩ := h
  obtain ⟨seam, hp⟩ := hp
  rw [(h.at_ hp).1.done, hp.range]
  exact Seam.position_le_along (Seam.isInside_pass hp.inside _) contexts

/-- The token that is taken is behind. -/
theorem position_lt_done (h : Takes p q) (hp : p.Live) : p.position < q.done := by
  have hstop := h.stop_le_done hp
  obtain ⟨contexts, h⟩ := h
  obtain ⟨seam, hp⟩ := hp
  have hlt := Seam.start_lt_stop hp.inside (h.at_ hp).2.1.1
  rw [← hp.range] at hlt
  exact Nat.lt_of_lt_of_le hlt hstop

end Takes

/-- The record grows by tokens of which the last stops where the source
is consumed up to. -/
theorem Takes.taken {p q : Parser} (h : Takes p q) (hp : p.Live) :
    ∃ fresh, Event.taken q.events.toList = Event.taken p.events.toList ++ fresh ∧
      fresh.getLast?.map (·.2) = some q.done := by
  obtain ⟨contexts, h⟩ := h
  obtain ⟨seam, hp⟩ := hp
  obtain ⟨hq, -, htaken⟩ := h.at_ hp
  refine ⟨_, htaken, ?_⟩
  rw [hq.done]
  exact Seam.getLast?_takes (List.cons_ne_nil _ _)

/-- The current token starts where the source is consumed up to, or behind
trivia. -/
theorem Parser.Live.done_le_position {p : Parser} (hp : p.Live) : p.done ≤ p.position := by
  obtain ⟨seam, hp⟩ := hp
  unfold Parser.position
  rw [hp.done, hp.range]
  exact Seam.position_le_start hp.inside

/-- To take a token leaves less room. This is what rules terminate by. -/
theorem Takes.room_lt {p q : Parser} (h : Takes p q) (hp : p.Live) : q.room < p.room := by
  have hlt := h.position_lt_done hp
  have hle := hp.done_le_position
  obtain ⟨seam, hq⟩ := h.reaches.live hp
  have hinside := hq.done_le
  unfold Parser.room
  rw [h.reaches.text hp] at hinside ⊢
  omega

end MarkupSyntax
