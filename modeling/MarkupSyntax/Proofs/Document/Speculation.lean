import MarkupSyntax.Document.Basic
import MarkupSyntax.Proofs.Document.Parse
import MarkupSyntax.Proofs.Token.Relex

/-!
# `MarkupSyntax.Proofs.Document.Speculation`: speculation leaves no trace

To tell the forms of `if` apart, a parse reads an expression behind a
brace and then goes back to the brace. The expression may be anything:
elements whose bodies are read twice, further speculations, groups that
are too deep, and errors. `Untouched` says what of the parse is then as
it was before, which is all but the memo and what is read ahead, and
`speculateIfForm_untouched` that it holds wherever a parse can come to
such a brace.

The relations of `MarkupSyntax.Proofs.Parse.Grows` carry the proof. Each
rule of the grammar only adds to the record and to the diagnostics,
restores the depth of speculation and remembers nothing in speculation
(`Notes`). What is added lies behind the checkpoint, and the brace is the
token from which it was reached.
-/

set_option autoImplicit false

namespace MarkupSyntax

/-- All that is to be seen of a parse is as it was. The fields say it of each
part of the parser. What is left out is what cannot be seen: the tokens that are
read ahead, and the decisions on the form of an `if`, which may have been added
to the memo. -/
structure Untouched (p q : Parser) : Prop where
  options : q.options = p.options
  file : q.file = p.file
  events : q.events = p.events
  diagnostics : q.diagnostics = p.diagnostics
  errorCount : q.errorCount = p.errorCount
  depth : q.depth = p.depth
  speculation : q.speculation = p.speculation
  current : q.source.current = p.source.current
  /-- The trivia and the diagnostics of the lexer are the same, and so is
  all that is read or asked later. -/
  source : ∀ steps, TokenSource.watch TokenSource.sight steps q.source
    = TokenSource.watch TokenSource.sight steps p.source
  memoizes : q.memoizes = p.memoizes
  memo : ∃ fresh, q.memo = fresh ++ p.memo ∧ ∀ entry ∈ fresh, entry.1.1 = "if_form"

variable {p q : Parser}

/-- At the same seam and at the same token there are the same tokens to
come. -/
theorem Still.twins (h : Still p q) (hp : p.Live) : TokenSource.Twins q.source p.source := by
  obtain ⟨seam, hp⟩ := hp
  exact ⟨seam, hp.inside, (h.at_ hp).stands, hp.stands, h.current⟩

namespace Grammar

/-- The parsers of the recursive constructs as a parse has them where the source
has this much room: those that it starts with, or some levels below. Four levels
for each character are enough, since every rule takes a token before it comes
back to itself. -/
inductive Ample (room : Nat) : Descent → Prop
  | whole : Ample room descent
  | levels {depth : Nat} (enough : 4 * room ≤ depth) : Ample room (descentTo depth)

/-- Such parsers do what the grammar asks of them, as far as the source goes. -/
theorem Ample.works {room : Nat} {descend : Descent} (h : Ample room descend) :
    ∃ bound, Works descend bound ∧ 4 * room ≤ bound := by
  cases h with
  | whole => exact ⟨4 * room, works_descent _, Nat.le_refl _⟩
  | levels enough => exact ⟨_, works_descentTo _, enough⟩

end Grammar

namespace Document

open Grammar

/-- Take any state that a parse can come to in which a brace comes next, in
speculation or not. Finding out which form of `if` the brace opens raises no
fault there, and what was done to find out is not to be seen afterwards
(`Untouched`).

The text behind the brace is arbitrary. That it may hold errors and further
speculation makes no difference, for all that a rule adds to the record and to
the diagnostics is dropped again with the checkpoint. -/
theorem speculateIfForm_untouched (source file : Text) (options : Options) {descend : Descent}
    (hreaches : Reaches (parser source options file) p) (hkind : p.kind = .lBrace)
    (hdescend : Ample p.room descend) :
    ∃ outcome q, speculateIfForm descend p = .ok outcome q ∧ Untouched p q := by
  have hstart : (parser source options file).Live := ⟨_, at_ofSource source options file⟩
  have hlive := hreaches.live hstart
  obtain ⟨bound, hworks, hbound⟩ := hdescend.works
  -- `Quiet` is what is known of a rule and the rewind behind it. The fields of `Untouched` are
  -- read off it, and only the source needs the tokens to come.
  obtain ⟨outcome, q, hrun, -, hquiet, hdepth, hmemo⟩ :=
    (yields_speculateIfForm hworks hlive hbound hkind).exists_ok
  obtain ⟨contexts, hway⟩ := hreaches
  refine ⟨outcome, q, hrun, ?_⟩
  exact {
    options := hquiet.options
    file := hquiet.file
    events := hquiet.events
    diagnostics := hquiet.diagnostics
    errorCount := hquiet.errorCount
    depth := hdepth
    speculation := hquiet.notes.speculation
    current := hquiet.current
    source := (hquiet.twins hlive).watch_sight
    memoizes := hquiet.notes.memoizes
    memo := hmemo (hway.speculation_nonneg (Int.le_refl 0)) }

/-- The condition of the arm is an element with text in it. Its body is read as
code first and then as text, and the closing tag again as code, so this detour
changes contexts on the way. -/
theorem speculateIfForm_untouched_element :
    let p := ((parser "if a {<b>c</b>: d}" {} "f").bump .normal none none).bump .normal none none
    p.kind = .lBrace ∧
      ∃ outcome q, speculateIfForm descent p = .ok outcome q ∧ Untouched p q := by
  intro p
  have hkind : p.kind = .lBrace := by decide +kernel
  have hreaches : Reaches (parser "if a {<b>c</b>: d}" {} "f") p :=
    ⟨_, .bump (.bump (.refl _) .normal none (by decide +kernel) (by decide +kernel)) .normal none
      (by decide +kernel) (by decide +kernel)⟩
  exact ⟨hkind, speculateIfForm_untouched _ _ _ hreaches hkind .whole⟩

end Document

end MarkupSyntax
