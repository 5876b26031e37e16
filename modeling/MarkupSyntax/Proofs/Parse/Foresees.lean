import MarkupSyntax.Proofs.Parse.Yields
import MarkupSyntax.Proofs.Token.Foresight

/-!
# `MarkupSyntax.Proofs.Parse.Foresees`: questions about what is ahead

Two states of a parse are abreast if they differ in the record and in
what is read ahead only (`Parser.Abreast`). A question foresees what comes
if all states that are abreast answer it the same, and it leaves the
record alone and the state abreast (`Parse.Foresees`). Questions about the
current token and the tokens ahead do, and so does what is put together of
them.

Nothing is asked of a state but that its token source is poised, as it is
whatever was done with it (`TokenSource.Session.exists_poised`).
-/

set_option autoImplicit false

namespace MarkupSyntax

namespace TokenSource

variable {L : Lexer} {a b c : TokenSource}

/-- The token sources are poised at the same place, with the same trivia
behind them. What they have read ahead may differ. -/
structure Abreast (L : Lexer) (a b : TokenSource) : Prop where
  poised : Poised L a
  reads : Lookahead.ReadsFrom L b.buffer
  trivia : b.trivia = a.trivia
  current : b.current = a.current

namespace Abreast

/-- A source stands where it stands. -/
theorem refl (h : Poised L a) : Abreast L a a := ⟨h, h.reads, rfl, rfl⟩

/-- Both sources stand before the same tokens. -/
theorem poised_right (h : Abreast L a b) : Poised L b :=
  ⟨h.reads, h.poised.inside, h.current ▸ h.poised.kind, h.current ▸ h.poised.range⟩

/-- Standing at one place is transitive. -/
theorem trans (h : Abreast L a b) (h' : Abreast L b c) : Abreast L a c :=
  ⟨h.poised, h'.reads, h'.trivia.trans h.trivia, h'.current.trans h.current⟩

/-- The current tokens are of one kind. -/
theorem kind (h : Abreast L a b) : b.current.kind = a.current.kind := congrArg Current.kind h.current

/-- The sources are of one text. -/
theorem text (h : Abreast L a b) : b.text = a.text := by
  show b.buffer.lexer.source = a.buffer.lexer.source
  rw [h.reads.source, h.poised.reads.source]

/-- They stay abreast when both go to the next token. -/
theorem bump (h : Abreast L a b) (hkind : a.current.kind ≠ .eof) :
    Abreast (L.target .normal) (a.bump .normal) (b.bump .normal) := by
  have hstands := @standsAt_advanceFrom ⟨L, a.trivia⟩ .normal a.buffer h.poised.reads h.poised.inside
  have hstands' := @standsAt_advanceFrom ⟨L, a.trivia⟩ .normal b.buffer h.reads h.poised.inside
  have ha : a.bump .normal = advanceFrom a.buffer a.trivia .normal := if_neg hkind
  have hb : b.bump .normal = advanceFrom b.buffer a.trivia .normal := by
    rw [← h.trivia]
    exact if_neg (h.kind ▸ hkind)
  refine ⟨(h.poised.bump hkind).1, ((h.poised_right).bump (h.kind ▸ hkind)).1.reads, ?_, ?_⟩
  · rw [ha, hb]
    exact hstands'.trivia.trans hstands.trivia.symm
  · rw [ha, hb]
    exact hstands'.current.trans hstands.current.symm

/-- A question is answered by the tokens ahead of the lexer. -/
theorem nthKind (h : Abreast L a b) (n : Nat) :
    (b.nthKind n).1 = (a.current.viewAhead L n).kind ∧ Abreast L a (b.nthKind n).2 := by
  obtain ⟨hanswer, hpoised, hcurrent⟩ := h.poised_right.nthKind n
  rw [h.current] at hanswer
  refine ⟨hanswer, h.trans ⟨h.poised_right, hpoised.reads, ?_, hcurrent⟩⟩
  unfold TokenSource.nthKind
  split <;> rfl

/-- Looking ahead for trivia answers the same and moves nothing that can be
seen. -/
theorem nthAfterTrivia (h : Abreast L a b) (n : Nat) :
    (b.nthAfterTrivia n).1 = (a.current.viewAhead L n).afterTrivia ∧
      Abreast L a (b.nthAfterTrivia n).2 := by
  obtain ⟨hanswer, hpoised, hcurrent⟩ := h.poised_right.nthAfterTrivia n
  rw [h.current] at hanswer
  refine ⟨hanswer, h.trans ⟨h.poised_right, hpoised.reads, ?_, hcurrent⟩⟩
  have hrange : ∀ (source : TokenSource) m, (source.nthRange m).2.trivia = source.trivia := by
    intro source m
    unfold TokenSource.nthRange
    split <;> rfl
  unfold TokenSource.nthAfterTrivia
  split
  · rfl
  · exact (hrange _ _).trans (hrange _ _)

/-- So the same tokens are to come. -/
theorem alike (h : Abreast L a b) (inside : a.current.origin.position ≤ a.text.length) :
    Alike b a := by
  refine ⟨congrArg Current.reading h.current, by rw [h.current], by rw [h.current], ?_, L, L,
    h.reads, h.poised.reads, ⟨rfl, rfl, rfl⟩, h.poised.inside⟩
  rw [h.current, h.text]
  exact inside

end Abreast

end TokenSource

namespace Parser

variable {L : Lexer} {p q r : Parser}

/-- The states differ in the record and in what is read ahead only. -/
structure Abreast (L : Lexer) (p q : Parser) : Prop where
  source : TokenSource.Abreast L p.source q.source
  rest : q = { p with events := q.events, source := q.source }

namespace Abreast

/-- A parser stands where it stands. -/
theorem refl (h : TokenSource.Poised L p.source) : Abreast L p p := ⟨.refl h, rfl⟩

/-- The current tokens are of one kind. -/
theorem kind (h : Abreast L p q) : q.kind = p.kind := h.source.kind

/-- The current tokens are at one range. -/
theorem range (h : Abreast L p q) : q.range = p.range :=
  congrArg TokenSource.Current.range h.source.current

/-- The parser stands before known tokens, too. -/
theorem poised (h : Abreast L p q) : TokenSource.Poised L q.source := h.source.poised_right

/-- A change of the record. -/
theorem record (h : Abreast L p q) (events : Array Event) :
    Abreast L p { q with events } := ⟨h.source, by rw [h.rest]⟩

/-- Both consume the current token. -/
theorem bump (h : Abreast L p q) (notEnd : p.kind ≠ .eof) :
    Abreast (L.target .normal) (p.bump .normal none none) (q.bump .normal none none) := by
  have hp : p.bump .normal none none = { p with
      events := p.events.push (.token (.token p.kind) p.range.stop none)
      source := p.source.bump .normal } := if_neg notEnd
  have hq : q.bump .normal none none = { q with
      events := q.events.push (.token (.token q.kind) q.range.stop none)
      source := q.source.bump .normal } := if_neg (h.kind ▸ notEnd)
  rw [hp, hq]
  exact ⟨h.source.bump notEnd, by rw [h.rest]⟩

end Abreast

end Parser

namespace Parse

variable {α β : Type} {L : Lexer} {p q : Parser} {m m' : Parse α} {f : α → Parse β} {a : α} {b : β}

/-- Every state abreast of `p` answers `a`, keeps its record and stays
abreast. -/
def Foretells (L : Lexer) (p : Parser) (m : Parse α) (a : α) : Prop :=
  ∀ q, p.Abreast L q → Yields m q fun answer r => answer = a ∧ p.Abreast L r ∧ r.events = q.events

/-- Whatever the state, the answer is settled by what a parse is to see,
and asking changes nothing but what is read ahead. -/
def Foresees (m : Parse α) : Prop :=
  ∀ L p, TokenSource.Poised L p.source → ∃ a, Foretells L p m a

namespace Foretells

/-- An answer is known in advance. -/
theorem pure (a : α) : Foretells L p (pure a) a := fun _ hq => ⟨rfl, hq, rfl⟩

/-- One question after another: the second may depend on the first answer, which
is known. -/
theorem bind (h : Foretells L p m a) (h' : Foretells L p (f a) b) : Foretells L p (m >>= f) b := by
  intro q hq
  refine (h q hq).bind ?_
  rintro _ r ⟨rfl, hr, hevents⟩
  refine (h' r hr).mono ?_
  rintro _ s ⟨rfl, hs, hevents'⟩
  exact ⟨rfl, hs, hevents'.trans hevents⟩

/-- The kind of the current token is known. -/
theorem sees (kind : TokenKind) : Foretells L p (sees kind) (decide (p.kind = kind)) :=
  fun q hq => ⟨by rw [hq.kind], hq, rfl⟩

/-- Whether it is one of some kinds is known. -/
theorem seesAny (kinds : List TokenKind) : Foretells L p (seesAny kinds) (kinds.contains p.kind) :=
  fun q hq => ⟨by rw [hq.kind], hq, rfl⟩

/-- The kind of a token ahead is known. -/
theorem nthKind (n : Nat) :
    Foretells L p (nthKind n) (p.source.current.viewAhead L n).kind := by
  intro q hq
  obtain ⟨hanswer, hsource⟩ := hq.source.nthKind n
  exact ⟨hanswer, ⟨hsource, by rw [hq.rest]⟩, rfl⟩

/-- Whether there is trivia in front of a token ahead is known. -/
theorem nthAfterTrivia (n : Nat) :
    Foretells L p (nthAfterTrivia n) (p.source.current.viewAhead L n).afterTrivia := by
  intro q hq
  obtain ⟨hanswer, hsource⟩ := hq.source.nthAfterTrivia n
  exact ⟨hanswer, ⟨hsource, by rw [hq.rest]⟩, rfl⟩

end Foretells

namespace Foresees

/-- An answer foresees itself. -/
theorem pure (a : α) : Foresees (pure a) := fun _ _ _ => ⟨a, .pure a⟩

/-- One question after another. -/
theorem bind (h : Foresees m) (h' : ∀ a, Foresees (f a)) : Foresees (m >>= f) := by
  intro L p hp
  obtain ⟨a, ha⟩ := h L p hp
  obtain ⟨b, hb⟩ := h' a L p hp
  exact ⟨b, ha.bind hb⟩

/-- A question in each case. -/
theorem ite {c : Prop} [Decidable c] (h : Foresees m) (h' : Foresees m') :
    Foresees (if c then m else m') := by
  split
  · exact h
  · exact h'

/-- A question about the current token. -/
theorem sees (kind : TokenKind) : Foresees (sees kind) := fun _ _ _ => ⟨_, .sees kind⟩

/-- The same for some kinds. -/
theorem seesAny (kinds : List TokenKind) : Foresees (seesAny kinds) := fun _ _ _ => ⟨_, .seesAny kinds⟩

/-- A question about a token ahead. -/
theorem nthKind (n : Nat) : Foresees (nthKind n) := fun _ _ _ => ⟨_, .nthKind n⟩

/-- Whether a token ahead is of a kind. -/
theorem nthIs (n : Nat) (kind : TokenKind) : Foresees (nthIs n kind) :=
  (nthKind n).bind fun _ => .pure _

/-- Whether a closing tag comes next, which is a question about two tokens. -/
theorem seesCloseTag : Foresees seesCloseTag :=
  (sees .lessThan).bind fun _ => .ite (nthIs 1 .slash) (.pure false)

end Foresees

end Parse

end MarkupSyntax
