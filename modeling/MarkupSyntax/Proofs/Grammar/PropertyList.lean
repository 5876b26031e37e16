import MarkupSyntax.Proofs.Grammar.Construct
import MarkupSyntax.Proofs.Grammar.Properties
import MarkupSyntax.Proofs.Grammar.Roundtrip
import MarkupSyntax.Proofs.Grammar.Tagged
import MarkupSyntax.Proofs.Token.Names

/-!
# `MarkupSyntax.Proofs.Grammar.PropertyList`: lists of properties

A property is seen before it is read: the parse looks ahead, as code, for
a `=` behind a name without gaps (`yields_seesProperty_ahead`). It is then
read as in a tag, up to its value (`yields_property_tokens`). The two
readings split the text in different places, so both are known of a
property that is written somehow (`Property.ReadsFrom`), and properties
that are known so make a list (`yields_propertyList_tokens`).

A list of properties ends where the tag or the body around it ends, and in
an arm also where the next arm starts (`PropertiesEnd`). The start of an
arm may look like a property up to its second token.
-/

set_option autoImplicit false

namespace MarkupSyntax

open Grammar

/-! ### What comes next in a text -/

/-- The next token of the text, read as code, is of this kind, and it does
not touch what is in front of the text. -/
def Text.Next (text : Text) (kind : TokenKind) : Prop :=
  ∃ gap first behind, gap ≠ [] ∧ Scans .normal text gap kind first behind

/-- The `=` of a property, as it is read in a tag. -/
def tagEqual : Lexed := ⟨.tag, .equal, Word.equal.text⟩

/-- `name=literal`, with any space around the `=`. -/
structure Property where
  name : MarkupName
  value : Constant

namespace Property

/-- The property as it is read. -/
def tokens (property : Property) : List Lexed :=
  property.name.tokens ++ [tagEqual, property.value.word.lexed]

/-- The tree of a property. -/
def tree (property : Property) : Tree :=
  .node none .propertyValue [property.name.tree "name", tagEqual.leaf none,
    (Term.literal property.value).tree.withField (some "value")]

/-- A list of properties as a part of a tag, if there are any. -/
def listTrees : List Property → List Tree
  | [] => []
  | property :: others =>
    [.node (some "properties") .propertyList ((property :: others).map tree)]

/-- The parts of an element that closes itself. -/
theorem fills_closedTree (name : MarkupName) (properties : List Property) :
    Fills ElementForm.selfClosing.slots (Outline.leaf none (.token .lessThan) ::
      (name.tree "name").outline :: Tree.outlines (listTrees properties ++
        [Lexed.slash.leaf none, Lexed.greaterThan.leaf none])) := by
  refine .start (name.admits_tree "name") ?_
  cases properties with
  | nil => exact .skip rfl .emptyEnd
  | cons property others => exact .part ⟨rfl, trivial⟩ .emptyEnd

/-- The text starts with the property, and the lookahead passes over its
name to the `=`. -/
structure ReadsFrom (property : Property) (text rest : Text) : Prop where
  lexes : Lexes text property.tokens rest
  ahead : ∃ behind tokens middle gap first later,
    Lexes text [property.name.first.lexed] behind ∧ Text.Ahead behind tokens middle ∧
      Scans .normal middle gap .equal first later

/-- The text of a property, however it is written: it has a space in
front, and can be read in front of another. -/
structure Writes (properties : List Property) (written : Property → Text) : Prop where
  loose : ∀ property more, Text.Loose (written property ++ more)
  reads : ∀ property ∈ properties, ∀ more, Text.Loose more →
    property.ReadsFrom (written property ++ more) more

namespace Writes

variable {property : Property} {properties : List Property} {written : Property → Text} {rest : Text}

/-- What writes some properties writes those behind the first one. -/
theorem tail (h : Writes (property :: properties) written) : Writes properties written :=
  ⟨h.loose, (List.forall_mem_cons.mp h.reads).2⟩

/-- In front of a space they are read, one behind the other. -/
theorem lexes (h : Writes properties written) (hrest : rest.Loose) :
    Lexes (properties.flatMap written ++ rest) (properties.flatMap tokens) rest ∧
      Text.Loose (properties.flatMap written ++ rest) := by
  induction properties with
  | nil => exact ⟨.nil rest, hrest⟩
  | cons property properties ih =>
    obtain ⟨hlexes, hmore⟩ := ih h.tail
    rw [List.flatMap_cons, List.flatMap_cons, List.append_assoc]
    exact ⟨(h.reads property List.mem_cons_self _ hmore).lexes.append hlexes, h.loose ..⟩

/-- They are no more than their characters. -/
theorem length_le (h : Writes properties written) :
    properties.length ≤ (properties.flatMap written).length := by
  induction properties with
  | nil => exact Nat.le_refl _
  | cons property properties ih =>
    obtain ⟨more, htext⟩ := h.loose property []
    have hlater := ih h.tail
    rw [List.append_nil] at htext
    rw [List.flatMap_cons, htext, List.length_append, List.length_cons, List.length_cons]
    omega

end Writes

end Property

namespace MarkupName

/-- The tokens of an element that closes itself. -/
def closedTokens (name : MarkupName) (properties : List Property) : List Lexed :=
  .lessThan .normal :: (name.tokens ++
    (properties.flatMap Property.tokens ++ [.slash, .greaterThan]))

/-- An element that closes itself. -/
def closedTree (name : MarkupName) (properties : List Property) (field : Option String) : Tree :=
  .node field .element ((Lexed.lessThan .normal).leaf none :: name.tree "name" ::
    (Property.listTrees properties ++ [Lexed.slash.leaf none, Lexed.greaterThan.leaf none]))

/-- Behind the name stands a property, or the end of the tag. -/
theorem exists_behind (properties : List Property) : ∃ next others,
    properties.flatMap Property.tokens ++ [Lexed.slash, .greaterThan] = next :: others ∧
      next.context = .tag ∧ next.kind ≠ .dot ∧ next.kind ≠ .colon := by
  cases properties with
  | nil => exact ⟨_, _, rfl, rfl, by decide, by decide⟩
  | cons property others =>
    have hname := property.name.first.isName
    have hkind : property.name.first.kind ≠ .dot ∧ property.name.first.kind ≠ .colon := by
      revert hname
      cases property.name.first.kind <;> decide
    exact ⟨property.name.first.lexed, _, rfl, rfl, hkind⟩

end MarkupName

namespace Grammar

open Parse

variable {p q r : Parser} {descend : Descent} {bound : Nat} {rest text middle : Text}
  {token : Lexed} {tokens : List Lexed} {kind : TokenKind} {gap : List (TriviaKind × Text)}
  {first behind : Text}

/-! ### Looking ahead -/

section Ahead

variable (h : p.Faces [token] text) (hcontext : p.context = token.context)
  (notEnd : token.kind ≠ .eof)

include h hcontext notEnd

/-- Behind a name as it is read ahead stands the next token. -/
theorem yields_nthKind_ahead (hahead : Text.Ahead text tokens middle)
    (hscan : Scans .normal middle gap kind first behind) :
    Yields (nthKind (tokens.length + 1)) p fun answer q => answer = kind ∧
      Records p [] [] token.context q ∧ q.memo = p.memo := by
  obtain ⟨seam, hp, hkind, rfl⟩ := h.exists_seam
  have hfar : seam.kindAhead token.context (tokens.length + 1) = kind :=
    Seam.kindAhead_of_consists hp.inside (hkind ▸ notEnd)
      (fun other hmem => ⟨(hahead.1 other hmem).code, (hahead.1 other hmem).notEnd⟩) hahead.2 hscan
  exact hfar ▸ yields_nthKind_at hp hcontext (tokens.length + 1)

/-- Nothing stands between the tokens of a name. -/
theorem yields_nthAfterTrivia_ahead (hahead : Text.Ahead text tokens middle) {n : Nat}
    (hn : n < tokens.length) :
    Yields (nthAfterTrivia (n + 1)) p fun answer q => answer = false ∧
      Records p [] [] token.context q ∧ q.memo = p.memo := by
  obtain ⟨seam, hp, hkind, rfl⟩ := h.exists_seam
  have hapart : seam.apartAhead token.context (n + 1) = false :=
    Seam.apartAhead_of_consists hp.inside (hkind ▸ notEnd)
      (fun other hmem => ⟨(hahead.1 other hmem).code, (hahead.1 other hmem).notEnd⟩) hahead.2 hn
  exact hapart ▸ yields_nthAfterTrivia_at hp hcontext (n + 1)

/-- The token behind the current one does not touch it. -/
theorem yields_nthAfterTrivia_one (hnext : text.Next kind) :
    Yields (nthAfterTrivia 1) p fun answer q => answer = true ∧ Records p [] [] token.context q ∧
      q.memo = p.memo := by
  obtain ⟨seam, hp, hkind, rfl⟩ := h.exists_seam
  obtain ⟨gap, first, behind, hgap, hscan⟩ := hnext
  have hapart : seam.apartAhead token.context 1 = true :=
    Seam.apartAhead_one hp.inside (hkind ▸ notEnd) hgap hscan
  exact hapart ▸ yields_nthAfterTrivia_at hp hcontext 1

/-- A name with another token behind it than `=` is no property. -/
theorem yields_seesProperty_other (hnext : text.Next kind) (hother : kind ≠ .equal) :
    Yields seesProperty p fun answer q => answer = false ∧ Records p [] [] token.context q ∧
      q.memo = p.memo := by
  have hround : Yields (propertyNameRound 1) p fun next q => ∃ result, next = .done result ∧
      result = false ∧ Records p [] [] token.context q ∧ q.memo = p.memo := by
    obtain ⟨gap, first, behind, hgap, hscan⟩ := id hnext
    unfold propertyNameRound
    refine (yields_nthKind_one h hcontext notEnd hscan).bind ?_
    rintro answer q ⟨rfl, hq, hmemo⟩
    refine .ite_false hother ?_
    by_cases hname : nameContinuation.contains answer = true
    · rw [hname]
      refine .ite_false (by decide) ?_
      refine (yields_nthAfterTrivia_one (h.same hq.toCovers) hq.context notEnd hnext).bind ?_
      rintro _ r ⟨rfl, hr, hmemo'⟩
      exact .ite_true rfl (.pure ⟨false, rfl, rfl, hq.trans hr, hmemo'.trans hmemo⟩)
    · exact .ite_true (by simpa using hname) (.pure ⟨false, rfl, rfl, hq, hmemo⟩)
  unfold seesProperty loop
  by_cases hmem : p.kind ∈ markupNameTokens
  · exact .seesAny_true hmem (.ite_true rfl (.get (.rounds_done hround)))
  · exact .seesAny_false hmem
      (.ite_false Bool.false_ne_true (.pure ⟨rfl, .nil h.live hcontext, rfl⟩))

/-- A name is one of a property if it is read ahead up to a `=`. The
rounds pass one of its tokens after the other. -/
theorem yields_seesProperty_ahead (hname : token.kind ∈ markupNameTokens)
    (hahead : Text.Ahead text tokens middle) (hscan : Scans .normal middle gap .equal first behind) :
    Yields seesProperty p fun answer q => answer = true ∧ Records p [] [] token.context q := by
  have few : tokens.length ≤ p.text.length := by
    have hfaces := h.append hahead.2.lexes
    rw [Lexed.map_lexed_piece, List.singleton_append, ← List.append_nil (token :: tokens)] at hfaces
    have hlength := hfaces.length_le
      (List.forall_mem_cons.mpr ⟨notEnd, fun other hmem => (hahead.1 other hmem).notEnd⟩)
    rw [List.length_cons] at hlength
    omega
  unfold seesProperty loop
  refine .seesAny_true (h.kind hcontext ▸ hname) (.ite_true rfl (.get ?_))
  -- The loop looks one token further in each round, and consumes none. What is kept is how many
  -- tokens of the name were passed.
  refine yields_rounds_items (fun others n q => ∃ passed, tokens = passed ++ others ∧
    n = passed.length + 1 ∧ Records p [] [] token.context q) tokens (by omega) ?_ ?_
    ⟨[], rfl, rfl, .nil h.live hcontext⟩
  · rintro other others _ q ⟨passed, rfl, rfl, hq⟩
    have h := h.same hq.toCovers
    obtain ⟨reached, later, hpassed, hother⟩ := hahead.of_append
    have hcontinues := (hahead.1 other (List.mem_append_right _ List.mem_cons_self)).continues
    have hequal : other.kind ≠ .equal := by
      intro hequal
      rw [hequal] at hcontinues
      exact absurd hcontinues (by decide)
    unfold propertyNameRound
    refine (yields_nthKind_ahead h hq.context notEnd hpassed hother).bind ?_
    rintro _ r ⟨rfl, hr, -⟩
    refine .ite_false hequal (.ite_false (by simpa using hcontinues) ?_)
    refine (yields_nthAfterTrivia_ahead (h.same hr.toCovers) hr.context notEnd hahead (by simp)).bind ?_
    rintro _ s ⟨rfl, hs, -⟩
    exact .ite_false Bool.false_ne_true
      (.pure ⟨_, rfl, passed ++ [other], by simp, by simp, (hq.trans hr).trans hs⟩)
  · rintro _ q ⟨passed, rfl, rfl, hq⟩
    rw [List.append_nil] at hahead
    unfold propertyNameRound
    refine (yields_nthKind_ahead (h.same hq.toCovers) hq.context notEnd hahead hscan).bind ?_
    rintro _ r ⟨rfl, hr, -⟩
    exact .ite_true rfl (.pure ⟨true, rfl, rfl, hq.trans hr⟩)

end Ahead

/-! ### Properties -/

section Property

variable {property : Property}

/-- A property that is read from a text is seen. -/
theorem yields_seesProperty_tokens (h : p.Faces [] text) (hread : property.ReadsFrom text rest)
    (hcontext : p.context = .tag) :
    Yields seesProperty p fun answer q => answer = true ∧ Records p [] [] .tag q := by
  obtain ⟨-, behind, tokens, middle, gap, first, later, hlexes, hahead, hscan⟩ := hread
  exact yields_seesProperty_ahead (h.append hlexes) hcontext property.name.first.kind_ne_eof
    property.name.first.isName hahead hscan

/-- `name=literal`, which leaves the token behind it as one of code. -/
theorem yields_property_tokens (h : p.Faces property.tokens rest) (hcontext : p.context = .tag) :
    Yields (Grammar.property descend) p fun node q =>
      Shapes p property.tokens property.tree node .normal q := by
  unfold Grammar.property
  refine (yields_start_node h.live hcontext).bind ?_
  rintro marker q ⟨hq, -⟩
  have h := h.same hq.toCovers
  refine (yields_qualifiedMarkupName_dotted h hq.context rfl (by decide) "name").bind ?_
  rintro _ r ⟨name, rfl, hr, -, -⟩
  have h := h.after hr.toCovers
  refine (yields_expect_token h hr.context (by decide) .normal none).bind ?_
  rintro _ s ⟨-, -, hs⟩
  have h := h.tail hs.toCovers
  -- A right side may be a tag or a brace, too; a literal is neither.
  have hvalue : Yields (rightSide descend (some "value")) s fun _ t =>
      Records s [property.value.word.lexed]
        [(Term.literal property.value).tree.withField (some "value")] .normal t := by
    have hkind : s.kind = property.value.token := h.kind hs.context
    have hliteral := property.value.isLiteral
    have hbefore : s.Before [property.value.word.token] := ⟨⟨rest, h⟩, hs.context⟩
    unfold rightSide
    refine .modify ?_
    rw [Parser.relex_of_context hs.context]
    refine .get ?_
    rw [hkind]
    split
    · rename_i htoken
      rw [htoken] at hliteral
      cases hliteral
    · rename_i htoken
      rw [htoken] at hliteral
      cases hliteral
    · refine (yields_literal_word property.value hbefore (some "value")).bind ?_
      rintro (_ | node) t ht
      · exact ht.elim
      · exact .pure ht.toShapes.records
  refine hvalue.bind ?_
  intro _ t ht
  refine ((((hq.records hr.records).records hs).records ht).complete (by decide)
    (Outline.fits_of_isLoose rfl)).mono ?_
  rintro node u ⟨hu, -⟩
  simpa [Property.tokens, Property.tree] using hu

end Property

/-! ### Lists of properties -/

/-- What ends a list of properties: the end of the tag, the brace behind a
body or, in an arm, the start of another arm. -/
inductive PropertiesEnd (inArm : Bool) (rest : Text) : Prop
  | close {kind : TokenKind} {gap : List (TriviaKind × Text)} {first behind : Text}
      (hkind : kind ∈ [TokenKind.greaterThan, .slash, .rBrace])
      (hscan : Scans .tag rest gap kind first behind)
  | arm {token : Lexed} {text : Text} {kind : TokenKind} (hinArm : inArm = true)
      (hstart : token.kind ∈ .elseKeyword :: headStart) (htag : token.context = .tag)
      (hlexes : Lexes rest [token] text) (hnext : text.Next kind) (hother : kind ≠ .equal)

/-- The list that properties are read as. -/
def propertyItems (descend : Descent) (inArm : Bool) : ItemList where
  nodeKind := .propertyList
  context := .tag
  ends := seesAny [.greaterThan, .slash, .eof, .rBrace]
  item := propertyItem descend
  recovery := propertyRecovery
  yields := if inArm then seesAny armStartTokens else pure false

/-- Where the descent suffices for the whole source, it suffices for what
is left of it. -/
theorem room_le (hbound : 4 * p.text.length ≤ bound) (hp : p.Live) (hway : Reaches p q) :
    4 * q.room ≤ bound := by
  have htext := hway.text hp
  unfold Parser.room
  rw [htext]
  omega

section Round

variable (hw : Works descend bound) (hbound : 4 * p.text.length ≤ bound) {inArm : Bool}
  {progress : Progress} (hbehind : Behind progress p)

include hbehind

include hw hbound in
/-- A property is an item. -/
theorem yields_propertyRound_tokens {property : Property} (h : p.Faces [] text)
    (hread : property.ReadsFrom text rest) :
    Yields ((propertyItems descend inArm).round progress) p fun next q =>
      ∃ progress, next = .again progress ∧ Behind progress q ∧
        Records p property.tokens [property.tree] .normal q := by
  have hrelex := Records.relex h.live .tag
  have hlive := h.live
  have h := h.same hrelex.toCovers
  have hkind : (p.relex .tag).kind = property.name.first.kind :=
    (h.append hread.lexes).kind hrelex.context
  -- A name neither ends the tag nor the source.
  have hname : (p.relex .tag).kind ∉ [TokenKind.greaterThan, .slash, .eof, .rBrace] := by
    have hname := property.name.first.isName
    rw [hkind]
    revert hname
    cases property.name.first.kind <;> decide
  unfold ItemList.round
  refine .modify ?_
  show Yields _ (p.relex .tag) _
  refine .sees_false (fun heof => hname (by rw [heof]; decide)) (.ite_false Bool.false_ne_true ?_)
  refine .seesAny_false hname (.ite_false Bool.false_ne_true ?_)
  refine .mustProgress h.live (hbehind.reaches ⟨_, hrelex.way⟩ hlive) fun next hnext => ?_
  have hitem : Yields (propertyItem descend) (p.relex .tag) fun answer q => ∃ node,
      answer = some node ∧ Shapes (p.relex .tag) property.tokens property.tree node .normal q := by
    unfold propertyItem
    refine (yields_seesProperty_tokens h hread hrelex.context).bind ?_
    rintro _ q ⟨rfl, hq⟩
    have hfaces := (h.same hq.toCovers).append hread.lexes
    refine .ite_true rfl ((yields_property_tokens hfaces hq.context).bind ?_)
    exact fun node r hr => .pure ⟨node, rfl, hr.after hq⟩
  refine (hitem.and (yields_propertyItem hw h.live (room_le hbound hlive ⟨_, hrelex.way⟩)
    hrelex.context)).bind ?_
  rintro _ q ⟨⟨node, rfl, hq⟩, -, htakes⟩
  exact .ite_true rfl (.pure ⟨next, rfl, behind_of_takes hnext htakes h.live,
    hrelex.trans hq.records⟩)

/-- The list ends where it should. -/
theorem yields_propertyRound_end (h : p.Faces [] rest) (hend : PropertiesEnd inArm rest) :
    Yields ((propertyItems descend inArm).round progress) p fun next q => next = .done () ∧
      Records p [] [] .tag q := by
  have hrelex := Records.relex h.live .tag
  have hlive := h.live
  have h := h.same hrelex.toCovers
  have hcontext := hrelex.context
  unfold ItemList.round
  refine .modify ?_
  show Yields _ (p.relex .tag) _
  cases hend with
  | @close kind gap first behind hkind hscan =>
    have hcurrent : (p.relex .tag).kind = kind :=
      (h.append hscan.lexes).kind hcontext
    have hends : kind ≠ .eof ∧ kind ∈ [TokenKind.greaterThan, .slash, .eof, .rBrace] := by
      revert hkind
      cases kind <;> decide
    refine .sees_false (hcurrent ▸ hends.1) (.ite_false Bool.false_ne_true ?_)
    exact .seesAny_true (hcurrent ▸ hends.2) (.ite_true rfl (.pure ⟨rfl, hrelex⟩))
  | @arm token text kind hinArm hstart htag hlexes hnext hother =>
    have hfaces := h.append hlexes
    have hcurrent : (p.relex .tag).kind = token.kind := hfaces.kind (hcontext.trans htag.symm)
    -- A token that starts an arm neither ends the tag nor starts a construct.
    have hends : token.kind ≠ .eof ∧ token.kind ∉ [TokenKind.greaterThan, .slash, .eof, .rBrace] ∧
        token.kind ≠ .ifKeyword ∧ token.kind ≠ .forKeyword ∧ token.kind ∈ armStartTokens := by
      revert hstart
      cases token.kind <;> decide
    obtain ⟨hend, hclose, hif, hfor, harm⟩ := hends
    refine .sees_false (hcurrent ▸ hend) (.ite_false Bool.false_ne_true ?_)
    refine .seesAny_false (hcurrent ▸ hclose) (.ite_false Bool.false_ne_true ?_)
    refine .mustProgress h.live (hbehind.reaches ⟨_, hrelex.way⟩ hlive) fun next _ => ?_
    have hitem : Yields (propertyItem descend) (p.relex .tag) fun answer q => answer = none ∧
        Records (p.relex .tag) [] [] .tag q := by
      unfold propertyItem
      refine (yields_seesProperty_other hfaces (hcontext.trans htag.symm) hend hnext hother).bind ?_
      rintro _ q ⟨rfl, hq, -⟩
      rw [htag] at hq
      have hkind : q.kind = token.kind := (hq.still h.live hcontext).kind.trans hcurrent
      refine .ite_false Bool.false_ne_true (.get ?_)
      split
      · rename_i hword
        exact absurd (hkind.symm.trans hword) hif
      · rename_i hword
        exact absurd (hkind.symm.trans hword) hfor
      · exact .pure ⟨rfl, hq⟩
    refine hitem.bind ?_
    rintro _ q ⟨rfl, hq⟩
    have hkind : q.kind = token.kind := (hq.still h.live hcontext).kind.trans hcurrent
    refine .ite_false Bool.false_ne_true ?_
    show Yields ((if inArm then seesAny armStartTokens else pure false) >>= _) q _
    rw [hinArm]
    exact .seesAny_true (hkind ▸ harm) (.ite_true rfl (.pure ⟨rfl, hrelex.trans hq⟩))

end Round

/-- Some properties are read as a list of them. -/
theorem yields_propertyList_tokens (hw : Works descend bound) (hbound : 4 * p.text.length ≤ bound)
    {property : Property} {others : List Property} {written : Property → Text} {inArm : Bool}
    (hwrites : Property.Writes (property :: others) written)
    (h : p.Faces [] ((property :: others).flatMap written ++ rest)) (hrest : rest.Loose)
    (hend : PropertiesEnd inArm rest) (field : String) :
    Yields (propertyList descend (some field) inArm) p fun answer q => ∃ node, answer = some node ∧
      Shapes p ((property :: others).flatMap Property.tokens)
        (.node (some field) .propertyList ((property :: others).map Property.tree)) node .tag q := by
  have hlive := h.live
  have hrelex := Records.relex hlive .tag
  -- That a list follows is seen at its first property.
  have hseen : Yields seesPropertyItem (p.relex .tag) fun answer q => answer = true ∧
      Records (p.relex .tag) [] [] .tag q := by
    have hread := hwrites.reads property List.mem_cons_self _ (hwrites.tail.lexes hrest).2
    have hfaces := h.same hrelex.toCovers
    rw [List.flatMap_cons, List.append_assoc] at hfaces
    unfold seesPropertyItem
    refine (yields_seesProperty_tokens hfaces hread hrelex.context).bind ?_
    rintro _ q ⟨rfl, hq⟩
    exact .ite_true rfl (.pure ⟨rfl, hq⟩)
  unfold propertyList
  refine .modify (hseen.bind ?_)
  rintro _ q ⟨rfl, hq⟩
  refine .ite_false Bool.false_ne_true ?_
  have hq := hrelex.trans hq
  have h := h.same hq.toCovers
  have hq' := h.live
  have hbound : 4 * q.text.length ≤ bound := by rwa [hq.toCovers.text hlive]
  -- The loop has fuel for each character, and a property has at least one.
  have few : (property :: others).length ≤ q.text.length := by
    have hfew := hwrites.length_le
    have hfit := h.length_text_le
    rw [List.length_append] at hfit
    omega
  have hlist : Yields (propertyItems descend inArm).parse q fun node r =>
      Shapes q ((property :: others).flatMap Property.tokens)
        (.node none .propertyList ((property :: others).map Property.tree)) node .tag r := by
    -- What is kept from round to round is that the properties that are left are written next,
    -- with the rest behind them.
    refine yields_itemList_items Property.tokens Property.tree (fun items r =>
      Property.Writes items written ∧ r.Faces [] (items.flatMap written ++ rest)) rfl rfl few h.live
      ?_ ?_ fun r hr => ⟨hwrites, h.same hr⟩
    · rintro item more progress r ⟨hwrites, h⟩ hbehind hr
      have hread := hwrites.reads item List.mem_cons_self _ (hwrites.tail.lexes hrest).2
      rw [List.flatMap_cons, List.append_assoc] at h
      refine (yields_propertyRound_tokens hw (by rwa [hr.text hq']) hbehind h hread).mono ?_
      rintro next s ⟨progress', hnext, hbehind', hs⟩
      have hfaces := (h.append hread.lexes).all hs.toCovers
      exact ⟨progress', hnext, hbehind', ⟨hwrites.tail, hfaces⟩, _, hs⟩
    · rintro progress r ⟨-, h⟩ hbehind
      exact yields_propertyRound_end hbehind h hend
  refine hlist.bind ?_
  intro node r hr
  refine (hr.setField (some field)).bind ?_
  rintro _ s ⟨rfl, hs, -⟩
  exact .pure ⟨_, rfl, hs.after hq⟩

/-! ### Elements that close themselves -/

section Closed

variable {name : MarkupName} {properties : List Property} {written : Property → Text}
  (hw : Works descend bound) (hbound : 4 * p.text.length ≤ bound)
  (hwrites : Property.Writes properties written) (hrest : rest.Loose)
  (hend : Lexes rest [.slash, .greaterThan] behind)

include hw hbound hwrites hrest hend

/-- What follows the name of an element that closes itself. -/
theorem yields_plainRest_closed (h : p.Faces [] (properties.flatMap written ++ rest))
    (hcontext : p.context = .tag) :
    Yields (plainRest descend) p fun _ q =>
      Records p (properties.flatMap Property.tokens ++ [.slash, .greaterThan])
        (Property.listTrees properties ++ [Lexed.slash.leaf none, Lexed.greaterThan.leaf none])
        .normal q := by
  have hproperties : Yields (propertyList descend (some "properties") false) p fun _ q =>
      Records p (properties.flatMap Property.tokens) (Property.listTrees properties) .tag q := by
    cases properties with
    | nil =>
      have hkind : p.kind = .slash := (h.append hend).kind hcontext
      refine (yields_propertyList_none hcontext (by rw [hkind]; decide) _ _).mono ?_
      rintro _ _ ⟨-, rfl⟩
      exact .nil h.live hcontext
    | cons property others =>
      have hclose : PropertiesEnd false rest := by
        cases hend with
        | cons first => exact .close (by decide) first
      refine (yields_propertyList_tokens hw hbound hwrites h hrest hclose "properties").mono ?_
      rintro _ q ⟨node, -, hq⟩
      exact hq.records
  unfold plainRest
  refine hproperties.bind ?_
  intro _ q hq
  have h := ((h.append (hwrites.lexes hrest).1).all hq.toCovers).append hend
  refine (yields_eat_token h hq.context (by decide) .tag none).bind ?_
  rintro _ r ⟨rfl, -, hr⟩
  have h := h.tail hr.toCovers
  refine .ite_true rfl ((yields_expect_token h hr.context (by decide) .normal none).bind ?_)
  rintro _ s ⟨-, -, hs⟩
  exact .pure (hq.trans (hr.trans hs))

/-- An element that closes itself, which is one level of nesting. -/
theorem yields_element_closed
    (h : p.Faces (.lessThan .normal :: name.tokens) (properties.flatMap written ++ rest))
    (hcontext : p.context = .normal) (hdepth : p.depth < p.options.maxNestingDepth)
    (field : Option String) :
    Yields (element descend field) p fun node q =>
      Shapes p (name.closedTokens properties) (name.closedTree properties field) node .normal q := by
  have hnode : Yields (elementNode descend) { p with depth := p.depth + 1 } fun node q =>
      Shapes { p with depth := p.depth + 1 } (name.closedTokens properties)
        (name.closedTree properties none) node .normal q := by
    obtain ⟨next, others, htokens, htag, hdot, hcolon⟩ := MarkupName.exists_behind properties
    have hfaces := h.deeper.append ((hwrites.lexes hrest).1.append hend)
    rw [htokens, List.cons_append] at hfaces
    refine yields_elementNode_dotted hfaces hcontext htag hdot fun marker q hq _ _ _ _ => ?_
    rw [if_neg hcolon]
    have hbound : 4 * q.text.length ≤ bound := by
      have htext : q.text = p.text := hq.toCovers.text h.deeper.live
      rwa [htext]
    refine (yields_plainRest_closed hw hbound hwrites hrest hend (h.deeper.all hq.toCovers)
      hq.context).bind ?_
    intro _ r hr
    refine ((hq.records hr).complete (by decide) (Outline.fits_of_fills rfl
      (Property.fills_closedTree name properties))).mono ?_
    exact fun node s hs => hs.1
  let known (tokens : List Lexed) (tree : Tree) : Prop :=
    tokens = name.closedTokens properties ∧ tree = name.closedTree properties none
  refine (@yields_element_nested _ _ (fun _ => True) known hdepth (hnode.mono fun node q hq =>
    ⟨trivial, _, _, ⟨rfl, rfl⟩, hq⟩) field).mono ?_
  rintro node q ⟨-, _, _, ⟨rfl, rfl⟩, hq⟩
  exact hq

end Closed

end Grammar

end MarkupSyntax
