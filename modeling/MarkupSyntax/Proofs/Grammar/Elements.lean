import MarkupSyntax.Grammar.Elements
import MarkupSyntax.Proofs.Grammar.Properties
import MarkupSyntax.Proofs.Parse.Records

/-!
# `MarkupSyntax.Proofs.Grammar.Elements`: sequences of elements
-/

set_option autoImplicit false

namespace MarkupSyntax.Grammar

open Parse

variable {p q r : Parser} {descend : Descent} {bound : Nat}

/-- The tokens that an item of a sequence of elements starts with. -/
def elementsStart : List TokenKind := [.lessThan, .ifKeyword, .forKeyword, .lBrace]

/-- Whether an item among elements follows is settled as long as the current
token stays, so it may be asked again. -/
theorem settled_seesElementsItem : Settled seesElementsItem :=
  (settled_sees .lessThan).bind fun _ =>
    .ite ((settled_nthIs 1 .slash).bind fun _ => .pure _) (settled_seesAny _)

/-- If an item is said to follow, the current token is one that starts items.
The parse is as before, but for what was read ahead. -/
theorem yields_seesElementsItem (hp : p.Live) :
    Yields seesElementsItem p fun answer q =>
      (answer = true → p.kind ∈ elementsStart) ∧ Quiet p q := by
  unfold seesElementsItem
  refine .sees fun sees hsees => .ite (fun h => ?_) fun _ => ?_
  -- A `<` starts an item unless a slash follows it.
  · have hkind : p.kind ∈ elementsStart := by rw [hsees.mp h]; decide
    refine ((settled_nthIs 1 .slash).quiet hp).bind ?_
    exact fun _ q hq => .pure ⟨fun _ => hkind, hq⟩
  · exact ⟨fun h => List.mem_cons_of_mem _ (List.contains_iff_mem.mp h), .refl p⟩

/-! Where the current token is known, so is the answer. -/

/-- A closing tag starts with `<`. -/
theorem yields_seesCloseTag_other (h : p.kind ≠ .lessThan) :
    Yields seesCloseTag p fun answer q => answer = false ∧ q = p := by
  unfold seesCloseTag seesPair
  exact .sees_false h (.ite_false Bool.false_ne_true (.pure ⟨rfl, rfl⟩))

/-- A control construct is an item. -/
theorem yields_seesElementsItem_word (h : p.kind ∈ [TokenKind.ifKeyword, .forKeyword]) :
    Yields seesElementsItem p fun answer q => answer = true ∧ q = p := by
  have hword : ∀ kind ∈ [TokenKind.ifKeyword, .forKeyword], kind ≠ .lessThan ∧
      [TokenKind.ifKeyword, .forKeyword, .lBrace].contains kind = true := by decide
  obtain ⟨hless, hitem⟩ := hword _ h
  unfold seesElementsItem
  exact .sees_false hless (.ite_false Bool.false_ne_true ⟨hitem, rfl⟩)

/-- An item starts with one of a few tokens. -/
theorem yields_seesElementsItem_other (h : p.kind ∉ elementsStart) :
    Yields seesElementsItem p fun answer q => answer = false ∧ q = p := by
  have hother : p.kind ≠ .lessThan ∧
      [TokenKind.ifKeyword, .forKeyword, .lBrace].contains p.kind = false := by
    revert h
    cases p.kind <;> decide
  unfold seesElementsItem
  exact .sees_false hother.1 (.ite_false Bool.false_ne_true ⟨hother.2, rfl⟩)

/-- An item of a sequence of elements, where the current token is read
as outside tags. -/
theorem yields_elementsItem (hw : Works descend bound) (hp : p.Live)
    (hroom : 4 * p.room < bound) (hcontext : p.context = .normal) :
    Yields (elementsItem descend) p (Finds p none Set.univ) := by
  unfold elementsItem
  refine .modify ?_
  rw [Parser.relex_of_context hcontext]
  refine (yields_seesElementsItem hp).bind ?_
  intro answer q hpost
  obtain ⟨hanswer, hq⟩ := hpost
  have hgrows := hq.grows hp
  have hlive := hgrows.live
  have hroom' : 4 * q.room < bound := by rw [hq.room hp]; exact hroom
  -- What consumes the current token of `q` is found at `p`.
  have hfound : ∀ {kinds : Set SyntaxKind} (node : Completed) (r : Parser),
      Makes q r node none kinds ∧ Takes q r → Finds p none Set.univ (some node) r :=
    fun node r hr => ⟨(hr.1.after hgrows).mono (Set.subset_univ _), hq.takes hr.2⟩
  refine .ite (fun _ => .pure ⟨hgrows, hq.toStill⟩) fun h => .get ?_
  have hstart : q.kind ∈ elementsStart := hq.kind ▸ hanswer (by simpa using h)
  split
  · rename_i hkind
    refine (yields_ifExpression hw hlive (by omega) hkind .elements).bind ?_
    exact fun node r hr => .pure (hfound node r ⟨makes_of_controls hr.1, hr.2⟩)
  · rename_i hkind
    refine (yields_forExpression hw hlive (by omega) hkind .elements).bind ?_
    exact fun node r hr => .pure (hfound node r ⟨makes_of_controls hr.1, hr.2⟩)
  · rename_i hkind
    refine (yields_interpolation hw hlive (by omega) hkind none).bind ?_
    exact fun node r hr => .pure (hfound node r hr)
  -- Of the tokens that start an item only `<` is left.
  · rename_i hif hfor hbrace
    have hkind : q.kind = .lessThan := by
      simp only [elementsStart, List.mem_cons, List.not_mem_nil, or_false] at hstart
      rcases hstart with hkind | hkind | hkind | hkind
      · exact hkind
      · exact absurd hkind hif
      · exact absurd hkind hfor
      · exact absurd hkind hbrace
    refine (hw.element none q hlive hkind hroom').mono ?_
    intro _ r hpost
    obtain ⟨node, rfl, hr⟩ := hpost
    exact hfound node r hr

/-- A sequence takes its items where the source has no more left than at
its start. -/
theorem fits_elementsExpression (hw : Works descend bound) (hroom : 4 * p.room < bound)
    (inArm : Bool) :
    ItemList.Fits
      { nodeKind := .elementsExpression
        context := .normal
        ends := do if ← sees .rBrace then return true else seesCloseTag
        item := elementsItem descend
        recovery := elementsRecovery
        yields := if inArm then seesAny armStartTokens else pure false } p where
  ends := (settled_sees .rBrace).bind fun _ => .ite (.pure true) settled_seesCloseTag
  yields := .ite (settled_seesAny _) (.pure false)
  resumes := .pure false
  plain := rfl
  skipPlain := rfl
  free := le_refl _
  item q hq hcontext hle := by
    refine (yields_elementsItem hw hq (by omega) hcontext).mono ?_
    intro node r hr
    cases node with
    | none => exact ⟨(Adds.of_grows hr.1).anything, hr.2⟩
    | some node => exact ⟨hr.1.adds.anything, hr.2⟩

/-- One or more items, or nothing. -/
theorem yields_elementsExpression (hw : Works descend bound) (hp : p.Live)
    (hroom : 4 * p.room < bound) (field : Option String) (inArm : Bool) :
    Yields (elementsExpression descend field inArm) p fun result q =>
      match result with
      | some node => Makes p q node field Set.univ
      | none => Grows p q [] := by
  have hrelex := p.grows_relex hp .normal
  unfold elementsExpression
  -- The lookahead only answers whether there is a first item.
  refine .modify ((settled_seesElementsItem.quiet hrelex.live).bind ?_)
  intro answer q hq
  have hq' := hrelex.trans (hq.grows hrelex.live)
  refine .ite (fun _ => .pure hq') fun _ => ?_
  have hle := hq'.room_le
  refine (ItemList.yields_parse (fits_elementsExpression hw (by omega) inArm) hq'.live).bind ?_
  intro node r hmakes
  refine (Completed.yields_setField (hmakes.after hq') field).bind ?_
  intro _ s hpost
  obtain ⟨rfl, hmakes, -⟩ := hpost
  exact .pure (hmakes.mono (Set.subset_univ _))

end MarkupSyntax.Grammar
