import Mathlib
import MarkupSyntax.Document.Basic
import MarkupSyntax.Proofs.Grammar.Definitions
import MarkupSyntax.Proofs.Parse.Skipping
import MarkupSyntax.Proofs.Token.Relex

/-!
# `MarkupSyntax.Proofs.Document.Recovery`: recovery in every state of a parse

Whatever was done with a token source before, recovery stops at the first
balanced safe place, and refuses in three cases only (`recover_first`). The
theorem asks of the recovery that its own question foresees what comes.
The question of a list of properties, which looks ahead as far as a name
goes, does (`foresees_seesPropertyItem`); those of the other recoveries of
the grammar are about kinds of tokens.
-/

set_option autoImplicit false

namespace MarkupSyntax

variable {L : Lexer} {p q : Parser}

/-! ### Names of properties -/

namespace Grammar

open Parse TokenSource

/-- A token ahead that continues a name is one of the source. -/
theorem le_of_continuesName (hp : Poised L p.source) {n : Nat} (hn : 0 < n)
    (hname : nameContinuation.contains (p.source.current.viewAhead L n).kind = true) :
    n ≤ p.text.length + 1 := by
  have htext : p.text.length = L.source.length := congrArg List.length hp.reads.source
  have hlength := Lexer.length_solid_le hp.inside
  rcases Nat.lt_or_ge (n - 1) L.solid.length with hlt | hge
  · omega
  · have heof : (p.source.current.viewAhead L n).kind = .eof := by
      rw [Current.viewAhead, if_neg (Nat.ne_of_gt hn), List.getElem?_eq_none hge]
      rfl
    rw [heof] at hname
    exact absurd hname (by decide)

/-- One round of looking for the `=` behind a name. It answers the same in every
state that stands where `p` does, so its answer is known in advance. It goes on
only if the token that it looks at continues a name, and such a token is one of
the source, so the rounds are bounded by its length. -/
theorem foretells_propertyNameRound (hp : Poised L p.source) {n : Nat} (hn : 0 < n) :
    ∃ round, Foretells L p (propertyNameRound n) round ∧
      ∀ m, round = .again m → m = n + 1 ∧ n ≤ p.text.length + 1 := by
  have hkind := @Foretells.nthKind L p n
  unfold propertyNameRound
  by_cases hequal : (p.source.current.viewAhead L n).kind = .equal
  · exact ⟨.done true, hkind.bind (by rw [if_pos hequal]; exact .pure _), nofun⟩
  by_cases hname : nameContinuation.contains (p.source.current.viewAhead L n).kind = true
  · have hapart := @Foretells.nthAfterTrivia L p n
    cases htrivia : (p.source.current.viewAhead L n).afterTrivia with
    | true =>
      refine ⟨.done false, hkind.bind ?_, nofun⟩
      rw [if_neg hequal, hname]
      exact hapart.bind (by rw [htrivia]; exact .pure _)
    | false =>
      refine ⟨.again (n + 1), hkind.bind ?_,
        fun m hm => ⟨(Round.again.inj hm).symm, le_of_continuesName hp hn hname⟩⟩
      rw [if_neg hequal, hname]
      exact hapart.bind (by rw [htrivia]; exact .pure _)
  · refine ⟨.done false, hkind.bind ?_, nofun⟩
    rw [if_neg hequal, Bool.eq_false_iff.mpr hname]
    exact .pure _

/-- All rounds together are foretold as well. The induction is on the rounds
that are left. There are more of them than tokens in the source, and a round
goes on at a token of the source only, so the case without a round left does not
occur. -/
theorem foretells_propertyName (hp : Poised L p.source) (fuel : Nat) {n : Nat} (hn : 0 < n)
    (hle : n ≤ p.text.length + 2) (enough : p.text.length + 3 ≤ fuel + n) :
    ∃ answer, Foretells L p (rounds propertyNameRound fuel n) answer := by
  induction fuel generalizing n with
  | zero => omega
  | succ fuel ih =>
    obtain ⟨round, hround, hagain⟩ := foretells_propertyNameRound hp hn
    unfold rounds
    cases round with
    | done answer => exact ⟨answer, hround.bind (.pure answer)⟩
    | again m =>
      obtain ⟨rfl, hin⟩ := hagain m rfl
      obtain ⟨answer, hanswer⟩ := ih (Nat.succ_pos n) (by omega) (by omega)
      exact ⟨answer, hround.bind hanswer⟩

/-- The loop starts with as many rounds as the source has characters, and a few
more, which is what `foretells_propertyName` asks for. -/
theorem foresees_propertyLoop : Foresees (loop propertyNameRound 1) := by
  intro L p hp
  obtain ⟨answer, hanswer⟩ := foretells_propertyName hp (p.text.length + 3) Nat.one_pos
    (by omega) (by omega)
  refine ⟨answer, fun q hq => ?_⟩
  unfold loop
  refine .get ?_
  rw [show q.text = p.text from hq.source.text]
  exact hanswer q hq

/-- The question whether a property or a control construct comes next looks
ahead as far as a name goes, and is foreseen all the same. -/
theorem foresees_seesPropertyItem : Foresees seesPropertyItem := by
  refine Foresees.bind ?_ fun _ => .ite (.pure true) (.seesAny _)
  exact (Foresees.seesAny markupNameTokens).bind fun _ => .ite foresees_propertyLoop (.pure false)

/-- So the hypothesis of `recover_first` holds of each recovery that the grammar
uses. -/
theorem foresees_resumes : ∀ recovery ∈ recoveries, Foresees recovery.resumes := by
  simp only [recoveries, List.forall_mem_cons, List.not_mem_nil, false_implies, implies_true,
    and_true]
  exact ⟨.pure false, .pure false, foresees_seesPropertyItem, .pure false⟩

end Grammar

/-! ### Recovery -/

namespace Recovery

open Parse TokenSource

/-- Recovery in an arbitrary state: the token source is any that a sequence of
moves leads to, and record, diagnostics, depth and memo of `rest` are arbitrary.
Recovery ends without a fault and changes neither diagnostics nor depth nor
memo.

It refuses if and only if the end of the source comes next, or a safe place, or
the parse is speculative. Then the parser is the same to every later
observation. Otherwise it answers with an error node, and `Skips` says which
tokens are in it: the shortest run of whole groups up to a place where recovery
may stop.

Of the recovery itself only `Foresees recovery.resumes` is asked, which
`foresees_resumes` proves for those of the grammar. -/
theorem recover_first (recovery : Recovery) (hresumes : Foresees recovery.resumes)
    (text file : Text) (first : LexContext) (moves : List Move) (rest : Parser) :
    let p := { rest with source := ((Session.ofSource text file first).run moves).source }
    ∃ result q, recovery.recover p = .ok result q ∧
      (q.diagnostics = p.diagnostics ∧ q.errorCount = p.errorCount ∧ q.depth = p.depth ∧
        q.memo = p.memo) ∧
      ((∃ refusal, result = .error refusal) ↔
        p.kind = .eof ∨ recovery.IsSafeAt p ∨ p.isSpeculative = true) ∧
      (∀ refusal, result = .error refusal → Unmoved p q ∧
        ∀ steps, watch TokenSource.reading steps q.source
          = watch TokenSource.reading steps p.source) ∧
      ∀ node, result = .ok node → ∃ k, recovery.Skips p k node q := by
  intro p
  obtain ⟨L, -, hp⟩ := Session.exists_poised text file first moves
  have horigin : p.source.current.origin.position ≤ p.source.text.length := by
    have hroams := ((Session.roams_ofSource text file first).run moves).source
    exact hroams.origin.trans (congrArg List.length hroams.lexer_source).ge
  have hunmoved : ∀ q, Unmoved p q →
      (q.diagnostics = p.diagnostics ∧ q.errorCount = p.errorCount ∧ q.depth = p.depth ∧
        q.memo = p.memo) ∧
      ∀ steps, watch TokenSource.reading steps q.source
        = watch TokenSource.reading steps p.source := by
    rintro q ⟨⟨L, hq⟩, -⟩
    refine ⟨?_, (hq.source.alike horigin).watch_reading⟩
    rw [hq.rest]
    exact ⟨rfl, rfl, rfl, rfl⟩
  obtain ⟨result, q, hrun, hpost⟩ := (yields_recover_first hresumes hp (p := p)).exists_ok
  refine ⟨result, q, hrun, ?_⟩
  -- The answer decides which side of the equivalence holds: a refusal names its own reason, and a
  -- node was made only where there was none.
  cases result with
  | error refusal =>
    have hrefused : Unmoved p q ∧
        (p.kind = .eof ∨ recovery.IsSafeAt p ∨ p.isSpeculative = true) := by
      cases refusal with
      | atEnd => exact ⟨hpost.1, .inl hpost.2⟩
      | alreadySafe => exact ⟨hpost.1, .inr (.inl hpost.2.2)⟩
      | speculative => exact ⟨hpost.1, .inr (.inr hpost.2.2.2)⟩
    obtain ⟨hsame, hwatch⟩ := hunmoved q hrefused.1
    exact ⟨hsame, iff_of_true ⟨refusal, rfl⟩ hrefused.2, fun _ _ => ⟨hrefused.1, hwatch⟩, nofun⟩
  | ok node =>
    obtain ⟨⟨notEnd, notSafe, notSpeculative⟩, k, hskips⟩ := hpost
    refine ⟨?_, iff_of_false nofun ?_, nofun, fun _ hnode => ⟨k, Except.ok.inj hnode ▸ hskips⟩⟩
    · obtain ⟨L', hq⟩ := hskips.abreast
      rw [hq.rest, p.later_eq k]
      exact ⟨rfl, rfl, rfl, rfl⟩
    · rintro (hend | hsafe | hspeculative)
      · exact notEnd hend
      · exact notSafe hsafe
      · rw [notSpeculative] at hspeculative
        cases hspeculative

/-- A state in front of a stray comma and a group in braces. In the group a
property starts, and behind it the one that recovery is to find. -/
def beforeProperty : Parser :=
  { source := ((Session.ofSource ", { a=1 } , b=2" "f" .tag).run []).source
    options := {}
    file := "f" }

/-- The group is passed as a whole: the property in it does not stop recovery,
the one behind it does, seven tokens on. -/
theorem recover_first_property : Foresees Grammar.propertyRecovery.resumes ∧
    ∃ node q, Grammar.propertyRecovery.recover beforeProperty = .ok (.ok node) q ∧
      Grammar.propertyRecovery.Skips beforeProperty 7 node q := by
  have hresumes : Foresees Grammar.propertyRecovery.resumes := Grammar.foresees_seesPropertyItem
  refine ⟨hresumes, ?_⟩
  -- The last event of the node tells the number of tokens in it.
  have hcheck : (match Grammar.propertyRecovery.recover beforeProperty with
      | .ok (.ok node) _ => node.finish
      | _ => 0) = 8 := by decide +kernel
  have hempty : beforeProperty.events.size = 0 := rfl
  obtain ⟨result, q, hrun, -, -, -, hskips⟩ :=
    recover_first Grammar.propertyRecovery hresumes ", { a=1 } , b=2" "f" .tag [] beforeProperty
  change Grammar.propertyRecovery.recover beforeProperty = _ at hrun
  rw [hrun] at hcheck
  cases result with
  | error => cases hcheck
  | ok node =>
    obtain ⟨k, hskips⟩ := hskips node rfl
    change Grammar.propertyRecovery.Skips beforeProperty k node q at hskips
    have hfinish : node.finish = 8 := hcheck
    rw [hskips.node, hempty] at hfinish
    obtain rfl : k = 7 := by
      dsimp only at hfinish
      omega
    exact ⟨node, q, hrun, hskips⟩

end Recovery

end MarkupSyntax
