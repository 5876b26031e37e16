import MarkupSyntax.Proofs.Grammar.Placed

/-!
# `MarkupSyntax.Proofs.Grammar.ArmBody`: closed values as the bodies of arms

An arm has no mark at its end: its body ends where its value does. A value
is closed if no `else` behind it can go on with it. That is every value but
a simple `if` without `else` (`ClosedValue`).

A closed value is read as the same tree in the braces of a definition
(`readsInBraces_closed`) and as the body of an arm (`readsBody_closed`),
where an `else` or the brace of the arms comes next. The match around it is
a value in the braces of a definition, too (`readsInBraces_around`).
-/

set_option autoImplicit false

namespace MarkupSyntax

open Grammar

/-- A value that ends by itself: a simple `if` has its `else`. -/
inductive ClosedValue where
  /-- An expression without control constructs. -/
  | expression (proper : ProperTerm)
  /-- An element that closes itself. -/
  | element (empty : EmptyElement)
  /-- A control construct, which does not take an `else` behind it. -/
  | construct (control : Construct .value) (closed : ¬ control.IsOpen)

/-- The tree that a closed value should be read as. -/
def ClosedValue.tree : ClosedValue → Tree
  | .expression proper => proper.term.tree
  | .element empty => empty.tree
  | .construct control _ => control.tree none

/-- A match on a value with an arm whose body is left out. Perhaps there is
an arm for everything else behind it. -/
structure MatchAround where
  scrutinee : ProperTerm
  head : Head .matchArm
  separator : Separator
  otherwise : Option (ElseArm .value)

namespace MatchAround

variable (around : MatchAround) (body : Tree)

/-- The arms with a body filled in. -/
def arms : List Tree :=
  around.head.around .value around.separator (body.withField (some "body")) ::
    elseArmTrees around.otherwise

/-- What stands behind `if`. -/
def parts : List Tree :=
  around.scrutinee.tree "scrutinee" :: Word.isKeyword.leaf :: bracedTrees (around.arms body)

/-- The match with a body filled in, in a field. -/
def tree (field : Option String) : Tree :=
  .node field (.control .value .ifMatch) (Word.ifKeyword.leaf :: around.parts body)

end MatchAround

namespace Grammar

open Parse

variable {p : Parser} {n total : Nat} {rest : Text}

/-- A closed value ends in front of whatever ends an expression. -/
theorem yields_value_closed (hbound : 4 * total + 2 < n) (value : ClosedValue)
    (h : Awaits { p with depth := p.depth + 1 } total .normal (value.tree.spread ++ rest))
    (hends : EndsValue rest) (hmemo : p.memo = []) (field : String) :
    Yields (descentTo (n + 2) (.value (some field))) p
      (CastsSome p (value.tree.withField (some field)) .normal) := by
  cases value with
  | expression proper =>
    have h : Awaits p total .normal ((proper.tree field).spread ++ rest) := by
      rw [ProperTerm.tree, Tree.spread_withField]
      exact h.shallower
    refine (yields_value_expression (parses_descentTo (n + 2)) h hends (by omega)
      (some field)).mono ?_
    rintro _ q ⟨node, rfl, hq, -⟩
    exact ⟨node, rfl, hq⟩
  | element empty => exact yields_value_empty (by omega) h.shallower hends.loose (some field)
  | construct control closed =>
    exact yields_value_construct hbound h hmemo (fun hopen => absurd hopen closed) (some field)

/-- In the braces of a definition a closed value is read as its tree. Nothing
may be remembered yet. -/
theorem readsInBraces_closed (value : ClosedValue) (hmemo : p.memo = []) :
    ReadsInBraces total p (value.tree.withField (some "value")) rest := by
  intro q hsame h
  rw [Tree.spread_withField] at h
  exact yields_value_closed (by omega) value h
    (BodyEnd.brace rest).endsValue
    (hsame.trans hmemo) "value"

/-- A closed value is the whole body of an arm. -/
theorem readsBody_closed (hbound : 4 * total + 5 < n) (value : ClosedValue) (hend : BodyEnd rest)
    (hmemo : p.memo = []) :
    ReadsBody n total .value p "body" (value.tree.withField (some "body")) rest := by
  intro q hsame h
  obtain ⟨m, rfl⟩ : ∃ m, n = m + 3 := ⟨n - 3, by omega⟩
  have hrelex := Enters.relex h.shallower.live .normal
  have h := h.same (Enters.relex h.live .normal)
  rw [Tree.spread_withField] at h
  unfold Grammar.body
  refine .modify ?_
  have hvalue : Yields (descentTo (m + 3) (.body .value "body")) (q.relex .normal)
      (CastsSome (q.relex .normal) (value.tree.withField (some "body")) .normal) :=
    @yields_value_closed (q.relex .normal) m total rest (by omega) value h hend.endsValue (hsame.trans hmemo) "body"
  refine hvalue.bind ?_
  rintro _ r ⟨node, rfl, hr⟩
  exact .ite_false Bool.false_ne_true (.pure (hrelex.trans hr.enters))

variable {around : MatchAround} {value : ClosedValue}

/-- A match starts with its word. -/
theorem lexes_around (around : MatchAround) (body : Tree) (rest : Text) :
    Lexes ((around.tree body none).spread ++ rest) [Word.ifKeyword.lexed]
      (Tree.spreadList (around.parts body) ++ rest) := by
  have hloose : (Tree.spreadList (around.parts body) ++ rest).Loose := by
    rw [MatchAround.parts, Tree.spreadList_cons, List.append_assoc]
    exact Tree.loose_spread _ (Text.loose_space _)
  rw [MatchAround.tree, Tree.spread_node, Tree.spreadList_cons, List.append_assoc]
  exact (Lexed.Spell.singleton Word.ifKeyword.solo none).lexes hloose

/-- The match around a closed value is read as one: behind the value the
arms go on or end. -/
theorem yields_primary_around (hbound : 4 * total + 5 < n)
    (h : Awaits p total .normal ((around.tree value.tree none).spread ++ rest))
    (hmemo : p.memo = []) :
    Yields (primary (descentTo n)) p (CastsSome p (around.tree value.tree none) .normal) := by
  have hlexes := lexes_around around value.tree rest
  have hkind : p.kind = .ifKeyword := (h.faces.append hlexes).kind h.context
  have hend := @bodyEnd_arms .matchArm .value [] around.otherwise rest
  have harms : ReadsArms n total .value .matchArm p (around.arms value.tree) rest :=
    readsArms_around (by omega) (readsBody_closed hbound value hend hmemo)
  have h : Awaits p total Word.ifKeyword.lexed.context _ := h
  have hrule := yields_ifMatch_around (by omega) h Word.ifKeyword.solo hlexes hmemo harms
  unfold primary
  refine (yields_literal_other (by rw [hkind]; rfl) none).bind_known (.get ?_)
  rw [hkind]
  exact hrule.bind fun node q hq => .pure ⟨node, rfl, hq.1⟩

/-- So it is a value of a definition. -/
theorem readsInBraces_around (hmemo : p.memo = []) :
    ReadsInBraces total p (around.tree value.tree (some "value")) rest := by
  intro q hsame h
  have h : Awaits { q with depth := q.depth + 1 } total .normal
      ((around.tree value.tree none).spread ++ (Word.rBrace.leaf.spread ++ rest)) := h
  have hkind : q.kind = .ifKeyword :=
    (h.faces.append (lexes_around around value.tree _)).kind h.context
  have hdepth : q.depth + 1 + (Parser.room { q with depth := q.depth + 1 } : Nat) ≤
    q.options.maxNestingDepth := h.depth
  exact yields_value_plain (by rw [hkind]; decide) (by rw [hkind]; decide) (by omega) rfl rfl
    (yields_primary_around (by omega) h (hsame.trans hmemo)) (some "value")

end Grammar

end MarkupSyntax
