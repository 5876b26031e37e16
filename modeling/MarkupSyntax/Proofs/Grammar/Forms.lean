import MarkupSyntax.Proofs.Grammar.Arms

/-!
# `MarkupSyntax.Proofs.Grammar.Forms`: constructs are read as they are written

An `if` of any form, and a `for`, are read as the construct that they are
written for (`yields_construct_written`), whatever the domain of their
bodies is.

Behind `if`, an expression and `{` the form is found out by reading on in
speculation, as a value whatever the body is. A body starts with a value
in every domain: an expression, an element, or the name of a property. No
separator follows it (`yields_value_body`). A condition of an arm is a
value with a separator behind it.
-/

set_option autoImplicit false

namespace MarkupSyntax.Grammar

open Parse

variable {p q r s : Parser} {n total : Nat} {domain : Domain} {context : LexContext} {rest : Text}
  {kind : TokenKind} {marker : Marker} {front : List Tree}

/-! ### Values without operators -/

/-- What stands for a value as it is: no call and no operator is looked for
behind it. It is one level of nesting. -/
theorem yields_value_plain {tree : Tree} (hstart : p.kind ∈ expressionStart)
    (hminus : p.kind ≠ .minus) (hdepth : p.depth < p.options.maxNestingDepth)
    (hclosed : takesPostfix tree.kind = false)
    (hkind : (tree.kind = .element || tree.kind.isControl) = true)
    (hprimary : Yields (primary (descentTo n)) { p with depth := p.depth + 1 }
      (CastsSome { p with depth := p.depth + 1 } tree context)) (field : Option String) :
    Yields (descentTo (n + 2) (.value field)) p (CastsSome p (tree.withField field) context) := by
  -- Nothing is put around an element or a control construct: no member, no call and, by `hkind`,
  -- no operator.
  have hunary : Yields (unary (descentTo n)) { p with depth := p.depth + 1 }
      (CastsSome { p with depth := p.depth + 1 } tree context) := by
    have hminus' : ({ p with depth := p.depth + 1 } : Parser).kind ≠ .minus := hminus
    unfold unary postfixExpression
    refine .sees_false hminus' (.ite_false Bool.false_ne_true (hprimary.bind ?_))
    rintro _ q ⟨node, rfl, hq⟩
    refine hq.kind.bind ?_
    rintro _ _ ⟨rfl, rfl⟩
    exact .ite_false (by rw [hclosed]; exact Bool.false_ne_true) (.pure ⟨node, rfl, hq⟩)
  have hoperators : Yields (operators (descentTo n) 0) { p with depth := p.depth + 1 }
      (CastsSome { p with depth := p.depth + 1 } tree context) := by
    unfold operators
    refine hunary.bind ?_
    rintro _ q ⟨node, rfl, hq⟩
    refine hq.kind.bind ?_
    rintro _ _ ⟨rfl, rfl⟩
    exact .ite_true hkind (.pure ⟨node, rfl, hq⟩)
  have hvalue : Yields (ensuring Parser.leaveNesting (descentTo (n + 1) (.operators 0)))
      { p with depth := p.depth + 1 } (CastsSome p tree context) := by
    refine .ensuring (hoperators.mono ?_)
    rintro _ q ⟨node, rfl, hq⟩
    exact ⟨node, rfl, hq.nested⟩
  show Yields (value (descentTo (n + 1)) field) p _
  unfold value
  refine .seesAny_true hstart (.ite_false Bool.false_ne_true ?_)
  refine .enterNesting hdepth (.ite_false Bool.false_ne_true (hvalue.bind ?_))
  rintro _ q ⟨node, rfl, hq⟩
  refine (hq.setField field).bind ?_
  rintro _ r ⟨rfl, hr⟩
  exact .pure ⟨_, rfl, hr⟩

/-- An element is a value. -/
theorem yields_value_empty (hbound : 4 * total + 2 < n) {empty : EmptyElement}
    (h : Awaits p total .normal (empty.tree.spread ++ rest)) (hrest : rest.Loose)
    (field : Option String) :
    Yields (descentTo n (.value field)) p (CastsSome p (empty.tree.withField field) .normal) := by
  obtain ⟨m, rfl⟩ : ∃ m, n = m + 2 := ⟨n - 2, by omega⟩
  obtain ⟨hkind, -⟩ := yields_nthIs_slash_empty h.faces h.context
  -- The element is a level of nesting inside that of the value.
  have hdepth : p.depth + 1 < p.options.maxNestingDepth := by
    have hlength := h.faces.length_eq_room
    have hdepth := h.depth
    obtain ⟨more, hspread⟩ := exists_spread_empty empty rest
    rw [hspread] at hlength
    simp [← Word.leaf_lexed] at hlength
    omega
  have helement : Yields (descentTo m (.element none)) { p with depth := p.depth + 1 }
      (CastsSome { p with depth := p.depth + 1 } empty.tree .normal) := by
    refine readsEmpty_descentTo m empty none _ rest h.faces.deeper hrest h.context hdepth ?_
    show 4 * p.text.length < m
    rw [h.total]
    omega
  have hprimary : Yields (primary (descentTo m)) { p with depth := p.depth + 1 }
      (CastsSome { p with depth := p.depth + 1 } empty.tree .normal) := by
    have hkind' : ({ p with depth := p.depth + 1 } : Parser).kind = .lessThan := hkind
    unfold primary
    refine (yields_literal_other (by rw [hkind']; rfl) none).bind_known (.get ?_)
    rw [hkind']
    exact helement
  exact yields_value_plain (by rw [hkind]; decide) (by rw [hkind]; decide) (by omega) rfl rfl
    hprimary field

/-! ### What a body starts with -/

/-- What ends a body is none of the separators of an arm. -/
theorem kind_of_bodyEnd (h : Awaits p total .normal rest) (hend : BodyEnd rest) :
    p.kind ∉ [TokenKind.colon, .fatArrow] := by
  obtain ⟨kind, hkind, hnext⟩ := hend.exists_next
  rw [kind_of_next hnext h.faces h.context]
  revert hkind
  cases kind <;> decide

/-- The name of a property, as an expression. -/
def nameExpression (assignment : Assignment) : ProperTerm := ⟨.identifier assignment.name, trivial⟩

/-- Whatever its domain is, a body starts with a value that no separator
follows. -/
theorem yields_value_body (hbound : 4 * total + 2 < n) {body : Body domain} {into : String}
    (h : Awaits p total .normal ((body.tree into).spread ++ rest)) (hend : BodyEnd rest) :
    p.kind ≠ .elseKeyword ∧ Yields (descentTo n (.value none)) p fun answer q =>
      answer.isSome = true ∧ q.kind ∉ [TokenKind.colon, .fatArrow] := by
  -- Telling the forms of `if` apart tries a value where the body of a simple `if` stands.
  -- Whatever that body is, a value is found, and no separator of an arm is behind it.
  cases body with
  | value expression =>
    have hstart := kind_mem_expressionStart h hend.endsValue
    refine ⟨fun hkind => absurd (hkind ▸ hstart) (by decide), ?_⟩
    refine (yields_value_expression (parses_descentTo n) h hend.endsValue (by omega) none).mono ?_
    rintro _ q ⟨node, rfl, -, h, -⟩
    exact ⟨rfl, kind_of_bodyEnd h hend⟩
  | elements first others =>
    have hloose := Tree.loose_spreadList (others.map EmptyElement.tree) hend.loose
    simp only [Body.tree, Tree.spread_node, List.map_cons, Tree.spreadList_cons,
      List.append_assoc] at h
    obtain ⟨hkind, -⟩ := yields_nthIs_slash_empty h.faces h.context
    refine ⟨by rw [hkind]; decide, ?_⟩
    refine (yields_value_empty hbound h hloose none).mono ?_
    rintro _ q ⟨node, rfl, hq⟩
    have h := h.enters_one hq.enters hloose
    refine ⟨rfl, ?_⟩
    cases others with
    | nil => exact kind_of_bodyEnd h hend
    | cons next others =>
      rw [List.map_cons, Tree.spreadList_cons, List.append_assoc] at h
      rw [(yields_nthIs_slash_empty h.faces h.context).1]
      decide
  | properties first others =>
    have hloose := Tree.loose_spreadList (others.map Assignment.tree) hend.loose
    have hvalue := Tree.loose_spread first.value.word.leaf hloose
    have hends := endsValue_word Word.equal (by decide) hvalue
    simp only [Body.tree, Tree.spread_node, List.map_cons, Tree.spreadList_cons,
      Assignment.spread_tree, List.append_assoc] at h
    -- A property is tried as an expression: its name is one, and `=` ends it.
    have h : Awaits p total .normal (((nameExpression first).tree into).spread ++ (Word.equal.leaf.spread ++
        (first.value.word.leaf.spread ++ (Tree.spreadList (others.map (·.tree)) ++ rest)))) := h
    have hstart := kind_mem_expressionStart h hends
    refine ⟨fun hkind => absurd (hkind ▸ hstart) (by decide), ?_⟩
    refine (yields_value_expression (parses_descentTo n) h hends (by omega) none).mono ?_
    rintro _ q ⟨node, rfl, -, h, -⟩
    refine ⟨rfl, ?_⟩
    rw [kind_of_code h.faces hvalue h.context]
    decide

/-! ### Which form it is -/

/-- The form of an `if` is told by what follows the value behind its
brace. -/
theorem yields_speculateIfForm_found {found : Bool} (hbound : 4 * total + 2 < n)
    (h : Awaits p total .normal (Word.lBrace.leaf.spread ++ rest)) (hrest : rest.Loose)
    (hinside : ∀ q, Awaits q total .normal rest → q.kind ≠ .elseKeyword ∧
      Yields (descentTo n (.value none)) q fun answer r => answer.isSome = true ∧
        Yields seesArmSeparator r fun found' _ => found' = found) :
    Yields (speculateIfForm (descentTo n)) p fun outcome q =>
      outcome = .ifForm (if found then .conditionList else .simple) ∧ Enters p [] .normal q := by
  have hkind := kind_of_code h.faces hrest h.context
  have hroom := h.room_le
  have hquiet := yields_speculateIfForm (works_descentTo n) h.live (by omega) hkind
  have houtcome : Yields (speculateIfForm (descentTo n)) p fun outcome _ =>
      outcome = .ifForm (if found then .conditionList else .simple) := by
    have hstill : Awaits p.enterSpeculation total .normal (Word.lBrace.leaf.spread ++ rest) :=
      h.later ⟨rfl, rfl, rfl, rfl, rfl⟩ (Parser.still_enterSpeculation p).reaches
        h.faces.speculative h.context
    unfold speculateIfForm
    refine .get (Yields.bind (@yields_speculating _ _ _ (fun found' _ => found' = found) ?_) ?_)
    · refine (yields_bump_code hstill.faces hrest hstill.context .normal).bind ?_
      rintro _ q ⟨hq, hfaces, -⟩
      have h := hstill.later hq.calm hq.way hfaces hq.context_eq
      obtain ⟨helse, hvalue⟩ := hinside q h
      refine .sees_false helse (.ite_false Bool.false_ne_true (hvalue.bind ?_))
      rintro answer r ⟨hanswer, hr⟩
      exact .ite_true hanswer hr
    · rintro _ q rfl
      exact .modify (.pure rfl)
  refine (houtcome.and hquiet).mono ?_
  rintro outcome q ⟨hfound, -, hq, hdepth, -⟩
  exact ⟨hfound, .of_records (.of_quiet h.live h.context hq
    ⟨hq.diagnostics, hq.errorCount, hq.options, hq.file, hdepth⟩)⟩

/-- The form is found out where nothing was decided before. -/
theorem yields_ifForm {found : Bool} (h : Awaits p total .normal rest) (hmemo : p.memo = [])
    (hreach : Yields (speculateIfForm (descentTo n)) p fun outcome q =>
      outcome = .ifForm (if found then .conditionList else .simple) ∧ Enters p [] .normal q) :
    Yields (memoized "if_form" (speculateIfForm (descentTo n))) p fun outcome q =>
      outcome = .ifForm (if found then .conditionList else .simple) ∧ Enters p [] .normal q := by
  unfold memoized
  refine .get (.get ?_)
  have hrecall : p.recall? "if_form" p.position = none := by
    unfold Parser.recall?
    rw [hmemo]
    split <;> rfl
  rw [hrecall]
  refine hreach.bind ?_
  rintro _ q ⟨rfl, hq⟩
  have hlive := (h.same hq).live
  exact .modify (.pure ⟨rfl, hq.trans
    (.of_records (.keep hlive hq.context_eq (fun _ => rfl) p.position trivial))⟩)

/-- A body in braces makes a simple `if`. -/
theorem yields_ifForm_simple (hbound : 4 * total + 2 < n) {body : Body domain} {into : String}
    (h : Awaits p total .normal (Tree.spreadList (body.braced into) ++ rest)) (hmemo : p.memo = []) :
    Yields (memoized "if_form" (speculateIfForm (descentTo n))) p fun outcome q =>
      outcome = .ifForm .simple ∧ Enters p [] .normal q := by
  rw [spread_braced] at h
  have hend := BodyEnd.brace rest
  refine @yields_ifForm _ _ _ _ false h hmemo (yields_speculateIfForm_found hbound h
    (Tree.loose_spread _ hend.loose) fun q hq => ?_)
  obtain ⟨helse, hvalue⟩ := yields_value_body hbound hq hend
  refine ⟨helse, hvalue.mono ?_⟩
  rintro answer r ⟨hanswer, hkind⟩
  exact ⟨hanswer, (yields_seesArmSeparator_other hkind).mono fun _ _ hseen => hseen.1⟩

/-- Conditions in braces make a list of conditions. -/
theorem yields_ifForm_conditionList (hbound : 4 * total + 2 < n) {written : Arms .conditionArm domain}
    (h : Awaits p total .normal (Tree.spreadList written.braced ++ rest)) (hmemo : p.memo = []) :
    Yields (memoized "if_form" (speculateIfForm (descentTo n))) p fun outcome q =>
      outcome = .ifForm .conditionList ∧ Enters p [] .normal q := by
  rw [Arms.spread_braced] at h
  obtain ⟨⟨head, separator, body⟩, others, otherwise⟩ := written
  cases head with
  | condition expression starts =>
    have hend := bodyEnd_arms others otherwise rest
    have hbody := Tree.loose_spread (body.tree "body") hend.loose
    refine @yields_ifForm _ _ _ _ true h hmemo (yields_speculateIfForm_found hbound h
      (Tree.loose_spreadList _ (Word.rBrace.loose none rest)) fun q hq => ?_)
    simp only [Arms.trees, List.map_cons, List.cons_append, Tree.spreadList_cons, Arm.tree,
      Tree.spread_node, Tree.spreadList_append, Head.trees, Tree.spreadList_nil, List.append_nil,
      List.append_assoc] at hq
    have hends : EndsValue (separator.leaf.spread ++ _) := endsValue_separator hbody
    have hstart := kind_mem_expressionStart hq hends
    refine ⟨fun hkind => absurd (hkind ▸ hstart) (by decide), ?_⟩
    refine (yields_value_expression (parses_descentTo n) hq hends (by omega) none).mono ?_
    rintro _ r ⟨node, rfl, -, hr, -⟩
    exact ⟨rfl, (yields_seesArmSeparator_written hr hbody).mono fun _ _ hseen => hseen.1⟩

/-! ### The forms of `if` -/

/-- No `else` comes next in code. -/
def NoElse (text : Text) : Prop :=
  ∃ kind gap first behind, Scans .normal text gap kind first behind ∧ kind ≠ .elseKeyword

/-- A construct was read as this tree, and behind it the rest comes next. -/
def Builds (p : Parser) (tree : Tree) (total : Nat) (rest : Text) (node : Completed) (q : Parser) :
    Prop := Casts p tree node .normal q ∧ Awaits q total .normal rest

/-- To complete a marker that has gathered these trees builds the construct of
them. -/
theorem yields_complete_builds {trees : List Tree} (hq : Gathers p marker trees .normal q)
    (h : Awaits q total .normal rest) (form : ControlForm) :
    Yields (marker.complete (.control domain form)) q
      (Builds p (.node none (.control domain form) trees) total rest) := by
  refine (hq.finish rfl rfl).mono ?_
  rintro node r ⟨hr, hsame⟩
  exact ⟨hr, h.later hsame.calm ⟨_, hsame.way⟩ (h.faces.same hsame) hsame.context⟩

section Forms

variable (hbound : 4 * total + 2 < n) (hq : Gathers p marker front .normal q)

include hbound hq

/-- A body, and another one behind `else` if there is one. -/
theorem yields_simpleRest_written {body : Body domain} {otherwise : Option (Body domain)}
    (h : Awaits q total .normal
      (Tree.spreadList (body.braced "then" ++ Construct.elseTrees otherwise) ++ rest))
    (hrest : otherwise = none → NoElse rest) :
    Yields (simpleRest (descentTo n) domain marker) q (Builds p (.node none
      (.control domain .ifSimple) (front ++ (body.braced "then" ++ Construct.elseTrees otherwise)))
      total rest) := by
  rw [Tree.spreadList_append, List.append_assoc] at h
  unfold simpleRest
  refine (yields_bracedBody_written hbound h).bind ?_
  rintro _ r ⟨hr, h⟩
  have hopened := hq.enters hr
  -- Without an `else` the parser asks for the keyword and has to find another token there; this
  -- is where `hrest` is needed.
  cases otherwise with
  | none =>
    obtain ⟨kind, gap, first, behind, hscan, helse⟩ := hrest rfl
    have hkind : r.kind = kind := (h.faces.append hscan.lexes).kind h.context
    refine (yields_eat_other (hkind ▸ helse) .normal none).bind_known ?_
    exact .ite_false Bool.false_ne_true (yields_complete_builds hopened h _)
  | some otherwise =>
    have htrees : Construct.elseTrees (some otherwise) =
        Word.elseKeyword.leaf :: otherwise.braced "else" := List.append_nil _
    rw [htrees, Tree.spreadList_cons, List.append_assoc] at h
    have hloose : (Tree.spreadList (otherwise.braced "else") ++ rest).Loose := Text.loose_space _
    have h' : r.Faces [] ((Word.elseKeyword.lexed.leaf none).spread ++
      (Tree.spreadList (otherwise.braced "else") ++ rest)) := h.faces
    refine (yields_eat_solo h' Word.elseKeyword.solo hloose h.context .normal).bind ?_
    rintro _ s ⟨rfl, hs, hfaces, -⟩
    have h := h.later hs.calm hs.way hfaces hs.context_eq
    refine .ite_true rfl ((yields_bracedBody_written hbound h).bind ?_)
    rintro _ t ⟨ht, h⟩
    have hall := (hopened.enters hs).enters ht
    rw [List.append_assoc, List.append_assoc] at hall
    rw [htrees]
    exact yields_complete_builds hall h _

omit hbound

/-- Arms and the brace behind them. -/
theorem yields_armsRest_written {form : ControlForm} {trees : List Tree}
    (h : Awaits q total .normal (Tree.spreadList trees ++ (Word.rBrace.leaf.spread ++ rest)))
    (hreads : ReadsArms n total domain form q trees rest) (result : ControlForm) :
    Yields (do
      arms (descentTo n) domain (armRule (descentTo n) domain form)
      closingBrace
      marker.complete (.control domain result)) q (Builds p (.node none (.control domain result)
        (front ++ (trees ++ [Word.rBrace.leaf]))) total rest) := by
  refine (hreads q rfl h).bind ?_
  rintro _ r ⟨context, hr⟩
  have h := h.enters hr (Word.rBrace.loose none rest)
  refine (yields_closingBrace_written h).bind ?_
  rintro _ s ⟨hs, h⟩
  have hall := (hq.enters hr).enters hs
  rw [List.append_assoc] at hall
  exact yields_complete_builds hall h _

/-- `is` and arms with patterns. -/
theorem yields_matchRest_written {trees : List Tree}
    (h : Awaits q total .normal (Tree.spreadList (Word.isKeyword.leaf :: bracedTrees trees) ++ rest))
    (hreads : ReadsArms n total domain .matchArm q trees rest) :
    Yields (matchRest (descentTo n) domain marker) q (Builds p (.node none
      (.control domain .ifMatch) (front ++ Word.isKeyword.leaf :: bracedTrees trees)) total rest) := by
  rw [Tree.spreadList_cons, List.append_assoc, spread_bracedTrees] at h
  have hloose := Tree.loose_spreadList trees (Word.rBrace.loose none rest)
  have hbrace := Tree.loose_spread Word.lBrace.leaf hloose
  unfold matchRest
  refine (yields_bump_code h.faces hbrace h.context .normal).bind ?_
  rintro _ r ⟨hr, hfaces, hmemo⟩
  refine (yields_expect_code hfaces hloose hr.context_eq .normal).bind ?_
  rintro _ s ⟨rfl, hs, hfaces, hmemo'⟩
  have h := h.later (hr.calm.trans hs.calm) (hr.way.trans hs.way) hfaces hs.context_eq
  have hall := yields_armsRest_written ((hq.enters hr).enters hs) h
    (hreads.of_memo (hmemo'.trans hmemo)) .ifMatch
  simp only [List.append_assoc, List.singleton_append] at hall
  exact .ite_true rfl hall

include hbound in
/-- Arms with conditions. -/
theorem yields_conditionListRest_written {written : Arms .conditionArm domain}
    (h : Awaits q total .normal (Tree.spreadList written.braced ++ rest)) :
    Yields (conditionListRest (descentTo n) domain marker) q (Builds p (.node none
      (.control domain .ifConditionList) (front ++ written.braced)) total rest) := by
  rw [Arms.spread_braced] at h
  have hloose := Tree.loose_spreadList written.trees (Word.rBrace.loose none rest)
  unfold conditionListRest
  refine (yields_bump_code h.faces hloose h.context .normal).bind ?_
  rintro _ r ⟨hr, hfaces, -⟩
  have h := h.later hr.calm hr.way hfaces hr.context_eq
  have hall := yields_armsRest_written (hq.enters hr) h (readsArms_written hbound) .ifConditionList
  simp only [List.append_assoc, List.singleton_append] at hall
  exact hall

end Forms

/-! ### Behind `if` -/

/-- Behind `if` an expression was read, before it is known what it is
for. -/
structure Leads (q : Parser) (total : Nat) (expression : ProperTerm) (rest : Text)
    (leading : Completed) (r : Parser) : Prop where
  front : Awaits q total .normal (expression.term.tree.spread ++ rest)
  loose : rest.Loose
  casts : Casts q (expression.term.tree.withField none) leading .normal r

namespace Leads

variable {expression : ProperTerm} {leading : Completed}

/-- Behind the expression the rest is awaited. -/
theorem awaits (h : Leads q total expression rest leading r) : Awaits r total .normal rest := by
  have hfront := h.front
  rw [← Tree.spread_withField _ none] at hfront
  exact hfront.enters_one h.casts.enters h.loose

/-- It still is after a question. -/
theorem stays (h : Leads q total expression rest leading r) (h' : Enters r [] .normal s) :
    Leads q total expression rest leading s := ⟨h.front, h.loose, h.casts.stays h'⟩

/-- The expression goes into the field that the form has for it. -/
theorem yields_into (h : Leads q total expression rest leading r)
    (hq : Gathers p marker front .normal q) (into : String) :
    Yields (leading.into into) r fun _ s =>
      Gathers p marker (front ++ [expression.tree into]) .normal s ∧ Awaits s total .normal rest := by
  refine (h.casts.into into).mono ?_
  intro _ s hs
  rw [Tree.withField_withField] at hs
  have hfront := h.front
  rw [← Tree.spread_withField _ (some into)] at hfront
  exact ⟨hq.enters hs.enters, hfront.enters_one hs.enters h.loose⟩

end Leads

section Leading

variable (hbound : 4 * total + 2 < n)

include hbound

/-- An expression behind `if` is read as one. -/
theorem yields_ifExpression_leading {expression : ProperTerm} {into : String}
    {post : Completed → Parser → Prop}
    (h : Awaits q total .normal ((expression.tree into).spread ++ rest)) (hends : EndsValue rest)
    (hmemo : q.memo = [])
    (hf : ∀ leading r, Leads q total expression rest leading r → r.memo = [] →
      Yields (ifWithExpression (descentTo n) domain marker leading) r post) :
    Yields (do
      if ← sees .lBrace then conditionListRest (descentTo n) domain marker
      else match ← descentTo n (.value none) with
        | none => ifWithoutCondition (descentTo n) domain marker
        | some leading => ifWithExpression (descentTo n) domain marker leading) q post := by
  have hstart := kind_mem_expressionStart h hends
  refine .sees_false (fun hkind => absurd (hkind ▸ hstart) (by decide))
    (.ite_false Bool.false_ne_true ?_)
  refine (yields_value_expression (parses_descentTo n) h hends (by omega) none).bind ?_
  rintro _ r ⟨leading, rfl, hr, -, hmemo'⟩
  rw [ProperTerm.tree, Tree.spread_withField] at h
  exact hf leading r ⟨h, hends.loose, hr⟩ (hmemo'.trans hmemo)

variable (hq : Gathers p marker front .normal q) {expression : ProperTerm} {leading : Completed}

include hq

/-- A condition with a body. -/
theorem yields_ifWithExpression_simple {body : Body domain} {otherwise : Option (Body domain)}
    (h : Leads q total expression
      (Tree.spreadList (body.braced "then" ++ Construct.elseTrees otherwise) ++ rest) leading r)
    (hrest : otherwise = none → NoElse rest) (hmemo : r.memo = []) :
    Yields (ifWithExpression (descentTo n) domain marker leading) r (Builds p (.node none
      (.control domain .ifSimple) (front ++ expression.tree "condition" ::
        (body.braced "then" ++ Construct.elseTrees otherwise))) total rest) := by
  have hbraced := h.awaits
  rw [Tree.spreadList_append, List.append_assoc] at hbraced
  have hkind : r.kind = .lBrace := by
    have h := hbraced
    rw [spread_braced] at h
    exact kind_of_code h.faces (Tree.loose_spread _ (Word.rBrace.loose none _)) h.context
  unfold ifWithExpression
  refine .sees_false (by rw [hkind]; decide) (.ite_false Bool.false_ne_true ?_)
  refine .sees_true hkind (.ite_false Bool.false_ne_true ?_)
  refine (yields_ifForm_simple hbound hbraced hmemo).bind ?_
  rintro _ s ⟨rfl, hs⟩
  refine ((h.stays hs).yields_into hq "condition").bind ?_
  rintro _ t ⟨ht, h⟩
  have hall := yields_simpleRest_written hbound ht h hrest
  rwa [List.append_assoc] at hall

omit hbound in
/-- A scrutinee with patterns. -/
theorem yields_ifWithExpression_match {trees : List Tree}
    (h : Leads q total expression
      (Tree.spreadList (Word.isKeyword.leaf :: bracedTrees trees) ++ rest) leading r)
    (hreads : ReadsArms n total domain .matchArm r trees rest) :
    Yields (ifWithExpression (descentTo n) domain marker leading) r (Builds p (.node none
      (.control domain .ifMatch) (front ++ expression.tree "scrutinee" ::
        Word.isKeyword.leaf :: bracedTrees trees)) total rest) := by
  have hkind : r.kind = .isKeyword := by
    have h := h.awaits
    rw [Tree.spreadList_cons, List.append_assoc] at h
    exact kind_of_code h.faces (Text.loose_space _) h.context
  unfold ifWithExpression
  refine .sees_true hkind (.ite_true rfl
    (((h.yields_into hq "scrutinee").forgets (forgets_into _ _)).bind ?_))
  rintro _ s ⟨⟨hs, h⟩, hmemo⟩
  have hall := yields_matchRest_written hs h (hreads.of_memo hmemo)
  rwa [List.append_assoc] at hall

/-- A scrutinee with conditions. -/
theorem yields_ifWithExpression_conditionList {written : Arms .conditionArm domain}
    (h : Leads q total expression (Tree.spreadList written.braced ++ rest) leading r)
    (hmemo : r.memo = []) :
    Yields (ifWithExpression (descentTo n) domain marker leading) r (Builds p (.node none
      (.control domain .ifConditionList) (front ++ expression.tree "scrutinee" :: written.braced))
      total rest) := by
  have hkind : r.kind = .lBrace := by
    have h := h.awaits
    rw [Arms.spread_braced] at h
    exact kind_of_code h.faces (Tree.loose_spreadList _ (Word.rBrace.loose none rest)) h.context
  unfold ifWithExpression
  refine .sees_false (by rw [hkind]; decide) (.ite_false Bool.false_ne_true ?_)
  refine .sees_true hkind (.ite_false Bool.false_ne_true ?_)
  refine (yields_ifForm_conditionList hbound h.awaits hmemo).bind ?_
  rintro _ s ⟨rfl, hs⟩
  refine ((h.stays hs).yields_into hq "scrutinee").bind ?_
  rintro _ t ⟨ht, h⟩
  have hall := yields_conditionListRest_written hbound ht h
  rwa [List.append_assoc] at hall

end Leading

/-! ### Constructs -/

/-- A construct starts with its word, in whatever context that is read. -/
theorem yields_keyword {token : Lexed} {text : Text} {f : Marker → Parse Completed}
    {post : Completed → Parser → Prop} (h : Awaits p total token.context text)
    (hlexes : Lexes text [token] rest) (hsolo : token.Solo)
    (hf : ∀ marker q, Gathers p marker [token.leaf none] .normal q → Awaits q total .normal rest →
      q.memo = p.memo → Yields (f marker) q post) :
    Yields (start >>= fun marker => bump >>= fun _ => f marker) p post := by
  refine (yields_start_gathers h.live h.context).bind ?_
  rintro marker q ⟨hq, hmemo⟩
  have h := h.later hq.calm hq.way (hq.same h.faces) hq.context_eq
  have hfaces : q.Faces [token] rest := h.faces.append hlexes
  refine (yields_bump_token hfaces h.context hsolo.kind_ne_eof .normal none).bind ?_
  rintro _ _ ⟨rfl, hr⟩
  have hr' : Enters q [token.leaf none] .normal _ := ⟨_, .singleton hsolo none, hr⟩
  exact hf marker _ (hq.enters hr') (h.later hr.calm hr'.way (hfaces.tail hr.toCovers) hr.context)
    ((q.memo_bump ..).trans hmemo)

/-- Nothing is read as a value where none starts. -/
theorem yields_value_none (hn : 0 < n) (hkind : p.kind ∉ expressionStart) (field : Option String) :
    Yields (descentTo n (.value field)) p fun answer q => answer = none ∧ q = p := by
  obtain ⟨m, rfl⟩ : ∃ m, n = m + 1 := ⟨n - 1, by omega⟩
  show Yields (value (descentTo m) field) p _
  unfold value
  exact .seesAny_false hkind (.ite_true rfl (.pure ⟨rfl, rfl⟩))

/-- A body in braces ends the expression in front of it. -/
theorem endsValue_braced (body : Body domain) (into : String) (rest : Text) :
    EndsValue (Tree.spreadList (body.braced into) ++ rest) := by
  rw [spread_braced]
  exact endsValue_word Word.lBrace (by decide) (Tree.loose_spread _ (Word.rBrace.loose none rest))

/-- Arms in braces end the expression in front of them. -/
theorem endsValue_arms (trees : List Tree) (rest : Text) :
    EndsValue (Tree.spreadList (bracedTrees trees) ++ rest) := by
  rw [spread_bracedTrees]
  exact endsValue_word Word.lBrace (by decide)
    (Tree.loose_spreadList _ (Word.rBrace.loose none rest))

section If

variable {token : Lexed} {text : Text} (hbound : 4 * total + 2 < n)
  (h : Awaits p total token.context text) (hsolo : token.Solo)

include hbound h hsolo

/-- A simple `if` that is written is read as its tree. Without an `else` of its
own none may come next, since it would be taken for one. -/
theorem yields_ifSimple_written {condition : ProperTerm} {body : Body domain}
    {otherwise : Option (Body domain)}
    (hlexes : Lexes text [token]
      (Tree.spreadList (Construct.ifSimple condition body otherwise).parts ++ rest))
    (hmemo : p.memo = []) (hrest : otherwise = none → NoElse rest) :
    Yields (ifExpression (descentTo n) domain) p (Builds p (.node none (.control domain .ifSimple)
      (token.leaf none :: (Construct.ifSimple condition body otherwise).parts)) total rest) := by
  rw [Construct.parts, Tree.spreadList_cons, List.append_assoc] at hlexes
  refine yields_keyword h hlexes hsolo fun marker q hq h hmemo' => ?_
  have hends : EndsValue
      (Tree.spreadList (body.braced "then" ++ Construct.elseTrees otherwise) ++ rest) := by
    rw [Tree.spreadList_append, List.append_assoc]
    exact endsValue_braced body "then" _
  refine yields_ifExpression_leading hbound h hends (hmemo'.trans hmemo) fun leading r hr hmemo => ?_
  exact yields_ifWithExpression_simple hbound hq hr hrest hmemo

/-- A scrutinee with arms of whatever trees. -/
theorem yields_ifMatch_around {scrutinee : ProperTerm} {trees : List Tree}
    (hlexes : Lexes text [token] (Tree.spreadList (scrutinee.tree "scrutinee" ::
      Word.isKeyword.leaf :: bracedTrees trees) ++ rest))
    (hmemo : p.memo = []) (hreads : ReadsArms n total domain .matchArm p trees rest) :
    Yields (ifExpression (descentTo n) domain) p (Builds p (.node none (.control domain .ifMatch)
      (token.leaf none :: scrutinee.tree "scrutinee" :: Word.isKeyword.leaf :: bracedTrees trees))
      total rest) := by
  rw [Tree.spreadList_cons, List.append_assoc] at hlexes
  refine yields_keyword h hlexes hsolo fun marker q hq h hmemo' => ?_
  have hends : EndsValue (Tree.spreadList (Word.isKeyword.leaf :: bracedTrees trees) ++ rest) := by
    rw [Tree.spreadList_cons, List.append_assoc]
    exact endsValue_word Word.isKeyword (by decide) (endsValue_arms trees rest).loose
  refine yields_ifExpression_leading hbound h hends (hmemo'.trans hmemo) fun leading r hr hnone => ?_
  exact yields_ifWithExpression_match hq hr (hreads.of_memo (hnone.trans hmemo.symm))

/-- A match that is written is read as its tree, with a scrutinee or without.
The bound says that the descent is deep enough, and nothing may be remembered
yet. -/
theorem yields_ifMatch_written {scrutinee : Option ProperTerm} {written : Arms .matchArm domain}
    (hlexes : Lexes text [token]
      (Tree.spreadList (Construct.ifMatch scrutinee written).parts ++ rest))
    (hmemo : p.memo = []) :
    Yields (ifExpression (descentTo n) domain) p (Builds p (.node none (.control domain .ifMatch)
      (token.leaf none :: (Construct.ifMatch scrutinee written).parts)) total rest) := by
  cases scrutinee with
  | none =>
    refine yields_keyword h hlexes hsolo fun marker q hq h _ => ?_
    have hkind : q.kind = .isKeyword := by
      have h : Awaits q total .normal (Word.isKeyword.leaf.spread ++
        (Tree.spreadList written.braced ++ rest)) := h
      exact kind_of_code h.faces (endsValue_arms written.trees rest).loose h.context
    refine .sees_false (by rw [hkind]; decide) (.ite_false Bool.false_ne_true ?_)
    refine (yields_value_none (by omega) (by rw [hkind]; decide) none).bind_known ?_
    unfold ifWithoutCondition
    exact .sees_true hkind (.ite_true rfl
      (yields_matchRest_written hq h (readsArms_written hbound)))
  | some expression =>
    rw [Construct.parts, Construct.scrutineeTrees_some, List.singleton_append] at hlexes ⊢
    exact yields_ifMatch_around hbound h hsolo hlexes hmemo (readsArms_written hbound)

/-- A list of conditions that is written is read as its tree, with a scrutinee
or without. -/
theorem yields_ifConditionList_written {scrutinee : Option ProperTerm}
    {written : Arms .conditionArm domain}
    (hlexes : Lexes text [token]
      (Tree.spreadList (Construct.ifConditionList scrutinee written).parts ++ rest))
    (hmemo : p.memo = []) :
    Yields (ifExpression (descentTo n) domain) p (Builds p
      (.node none (.control domain .ifConditionList)
        (token.leaf none :: (Construct.ifConditionList scrutinee written).parts)) total rest) := by
  cases scrutinee with
  | none =>
    refine yields_keyword h hlexes hsolo fun marker q hq h _ => ?_
    have hkind : q.kind = .lBrace := by
      have h : Awaits q total .normal (Tree.spreadList written.braced ++ rest) := h
      rw [Arms.spread_braced] at h
      exact kind_of_code h.faces (Tree.loose_spreadList _ (Word.rBrace.loose none rest)) h.context
    exact .sees_true hkind (.ite_true rfl (yields_conditionListRest_written hbound hq h))
  | some expression =>
    rw [Construct.parts, Construct.scrutineeTrees_some, List.singleton_append,
      Tree.spreadList_cons, List.append_assoc] at hlexes
    refine yields_keyword h hlexes hsolo fun marker q hq h hmemo' => ?_
    refine yields_ifExpression_leading hbound h (endsValue_arms written.trees rest)
      (hmemo'.trans hmemo)
      fun leading r hr hmemo => ?_
    exact yields_ifWithExpression_conditionList hbound hq hr hmemo

end If

/-- A name into a field. -/
theorem yields_expectNameInto_written {name : Word .identifier} {into : String}
    (h : Awaits p total .normal ((name.leaf (some into)).spread ++ rest)) (hrest : rest.Loose) :
    Yields (expectNameInto into) p fun _ q =>
      Enters p [name.leaf (some into)] .normal q ∧ Awaits q total .normal rest ∧
        q.memo = p.memo := by
  unfold expectNameInto
  refine .sees_true (kind_of_code h.faces hrest h.context) (.ite_true rfl ?_)
  refine (yields_bump_code h.faces hrest h.context .normal).mono ?_
  rintro _ q ⟨hq, hfaces, hmemo⟩
  exact ⟨hq, h.later hq.calm hq.way hfaces hq.context_eq, hmemo⟩

section For

variable {token : Lexed} {text : Text} (hbound : 4 * total + 2 < n)

include hbound

/-- What follows the names of a `for`. -/
theorem yields_iterable_written {iterable : ProperTerm} {body : Body domain}
    (hq : Gathers p marker front .normal q)
    (h : Awaits q total .normal (Tree.spreadList
      (Word.inKeyword.leaf :: iterable.tree "iterable" :: body.braced "body") ++ rest)) :
    Yields (do
      let _ ← expect .inKeyword
      let _ ← expectValue (descentTo n) "iterable"
      bracedBody (descentTo n) domain "body"
      marker.complete (.control domain .forLoop)) q (Builds p (.node none
        (.control domain .forLoop) (front ++ Word.inKeyword.leaf :: iterable.tree "iterable" ::
          body.braced "body")) total rest) := by
  have hends := endsValue_braced body "body" rest
  rw [Tree.spreadList_cons, Tree.spreadList_cons, List.append_assoc, List.append_assoc] at h
  have hloose := Tree.loose_spread (iterable.tree "iterable") hends.loose
  refine (yields_expect_code h.faces hloose h.context .normal).bind ?_
  rintro _ r ⟨-, hr, hfaces, -⟩
  have h := h.later hr.calm hr.way hfaces hr.context_eq
  have hiterable : Yields (expectValue (descentTo n) "iterable") r fun _ s =>
      Enters r [iterable.tree "iterable"] .normal s ∧
        Awaits s total .normal (Tree.spreadList (body.braced "body") ++ rest) := by
    unfold expectValue
    refine (yields_value_expression (parses_descentTo n) h hends (by omega) _).bind ?_
    rintro _ s ⟨node, rfl, hs, h, -⟩
    exact .pure ⟨hs.enters, h⟩
  refine hiterable.bind ?_
  rintro _ s ⟨hs, h⟩
  refine (yields_bracedBody_written hbound h).bind ?_
  rintro _ t ⟨ht, h⟩
  have hall := ((hq.enters hr).enters hs).enters ht
  simp only [List.append_assoc, List.singleton_append] at hall
  exact yields_complete_builds hall h _

/-- A `for` that is written is read as its tree. It looks up nothing that is
remembered. -/
theorem yields_forLoop_written (h : Awaits p total token.context text) (hsolo : token.Solo)
    {item : Word .identifier} {index : Option (Word .identifier)} {iterable : ProperTerm}
    {body : Body domain} (hlexes : Lexes text [token]
      (Tree.spreadList (Construct.forLoop item index iterable body).parts ++ rest)) :
    Yields (forExpression (descentTo n) domain) p (Builds p (.node none (.control domain .forLoop)
      (token.leaf none :: (Construct.forLoop item index iterable body).parts)) total rest) := by
  rw [Construct.parts, Tree.spreadList_cons, List.append_assoc, Tree.spreadList_append,
    List.append_assoc] at hlexes
  have hin : (Tree.spreadList (Word.inKeyword.leaf :: iterable.tree "iterable" ::
    body.braced "body") ++ rest).Loose := Text.loose_space _
  refine yields_keyword h hlexes hsolo fun marker q hq h _ => ?_
  refine (yields_expectNameInto_written h (Tree.loose_spreadList _ hin)).bind ?_
  rintro _ r ⟨hr, h, -⟩
  -- With an index there is a comma in front of `in`, and without one there is none.
  cases index with
  | none =>
    have h : Awaits r total .normal (Tree.spreadList (Word.inKeyword.leaf ::
      iterable.tree "iterable" :: body.braced "body") ++ rest) := h
    have hkind : r.kind = .inKeyword := by
      have hfaces := h.faces
      simp only [Tree.spreadList_cons, List.append_assoc] at hfaces
      exact kind_of_code hfaces
        (Tree.loose_spread _ (endsValue_braced body "body" rest).loose) h.context
    refine (yields_eat_other (by rw [hkind]; decide) .normal none).bind_known ?_
    exact .ite_false Bool.false_ne_true (yields_iterable_written hbound (hq.enters hr) h)
  | some index =>
    have h : Awaits r total .normal ((Word.comma.lexed.leaf none).spread ++
      ((index.leaf (some "index")).spread ++ (Tree.spreadList (Word.inKeyword.leaf ::
        iterable.tree "iterable" :: body.braced "body") ++ rest))) := by
      have hindex : Construct.indexTrees (some index) =
          [Word.comma.leaf, index.leaf (some "index")] := rfl
      simp only [hindex, Tree.spreadList_cons, Tree.spreadList_nil, List.append_nil,
        List.append_assoc] at h ⊢
      exact h
    refine (yields_eat_solo h.faces Word.comma.solo (index.loose (some "index") _) h.context
      .normal).bind ?_
    rintro _ s ⟨rfl, hs, hfaces, -⟩
    have h := h.later hs.calm hs.way hfaces hs.context_eq
    refine .ite_true rfl ((yields_expectNameInto_written h hin).bind ?_)
    rintro _ t ⟨ht, h, -⟩
    exact yields_iterable_written hbound (((hq.enters hr).enters hs).enters ht) h

end For

/-- The rule that reads a construct. -/
def constructRule (descend : Descent) : Construct domain → Parse Completed
  | .forLoop .. => forExpression descend domain
  | _ => ifExpression descend domain

/-- A construct is read as it is written, in any domain and in front of
anything, but an open one not in front of an `else`. -/
theorem yields_construct_written (hbound : 4 * total + 2 < n) (construct : Construct domain)
    {token : Lexed} {text : Text} (h : Awaits p total token.context text) (hsolo : token.Solo)
    (hkeyword : token.leaf none = construct.keyword)
    (hlexes : Lexes text [token] (Tree.spreadList construct.parts ++ rest)) (hmemo : p.memo = [])
    (hrest : construct.IsOpen → NoElse rest) :
    Yields (constructRule (descentTo n) construct) p
      (Builds p (construct.tree none) total rest) := by
  rw [Construct.tree, ← hkeyword]
  cases construct with
  | ifSimple =>
    exact yields_ifSimple_written hbound h hsolo hlexes hmemo fun hnone => hrest (by subst hnone; trivial)
  | ifMatch => exact yields_ifMatch_written hbound h hsolo hlexes hmemo
  | ifConditionList => exact yields_ifConditionList_written hbound h hsolo hlexes hmemo
  | forLoop => exact yields_forLoop_written hbound h hsolo hlexes

end MarkupSyntax.Grammar
