import MarkupSyntax.Proofs.Grammar.Escaped
import MarkupSyntax.Proofs.Grammar.Term
import MarkupSyntax.Proofs.Token.Gap

/-!
# `MarkupSyntax.Proofs.Grammar.Markup`: elements and what is in them

`Markup` is what the body of an element is made of, as it is meant: texts,
names in braces, and elements. `Markup.render` writes it. What is read back
from that is a relation between the pieces of the text and a tree
(`Markup.Written`), since a text is read in pieces that depend on what
comes behind it.

A body is told from the others in a source by the text from there on
(`Markup.bodies`): no two bodies start at one place, and each starts right
behind a tag (`Markup.Places`).
-/

set_option autoImplicit false

namespace MarkupSyntax

open Grammar Lexeme

/-- A text that can stand in a body as it is: it starts and ends with a
character that is no white space, ends with no backslash, which would
escape what follows, and does not start with a word that starts a control
construct. -/
structure Text.Readable (t : Text) : Prop where
  ne_nil : t ≠ []
  first : ∀ c ∈ t.head?, c.isWhitespace = false
  last : ∀ c ∈ t.getLast?, c.isWhitespace = false
  plain : t.getLast? ≠ some (CodePoint.ofChar '\\')
  word : t.takeWhile (continuesName false) ∉ [("if" : Text), "for"]

/-- Something in the body of an element. -/
inductive Markup where
  | text (t : Text)
  /-- `{name}` -/
  | interpolation (name : Word .identifier)
  /-- `<name>…</name>` -/
  | element (name : TagName) (body : List Markup)

namespace Markup

/-- The item is a text. -/
def isText : Markup → Bool
  | text _ => true
  | _ => false

/-- The item is an element. -/
def isElement : Markup → Bool
  | element .. => true
  | _ => false

mutual
/-- Each text can stand where it stands, and no two texts follow one
another. -/
def WellFormed : Markup → Prop
  | text t => t.Readable
  | interpolation _ => True
  | element _ body => AllWellFormed body

/-- The same of the items of a body. -/
def AllWellFormed : List Markup → Prop
  | [] => True
  | item :: rest =>
    item.WellFormed ∧ (item.isText = true → ∀ next ∈ rest.head?, next.isText = false) ∧
      AllWellFormed rest
end

mutual
/-- The item as it is written. -/
def render : Markup → Text
  | text t => Text.escape false t
  | interpolation name => CodePoint.ofChar '\x7b' :: (name.text ++ [CodePoint.ofChar '\x7d'])
  | element name body => name.opening ++ (renderAll body ++ name.closing)

/-- The items as they are written, one behind the other. -/
def renderAll : List Markup → Text
  | [] => []
  | item :: rest => item.render ++ renderAll rest
end

/-- The body is a sequence: it has elements, and no text. -/
def isSequence (body : List Markup) : Bool := body.any isElement && !body.any isText

/-- The kind of node that the body is. -/
def contentKind (body : List Markup) : SyntaxKind :=
  if isSequence body then .elementsExpression else .mixedContent

/-! ### What is read back -/

/-- The tree of a name in braces. -/
def interpolationTree (name : Word .identifier) (context : LexContext) : Tree :=
  .node none .interpolationExpression
    [(Lexed.lBrace context).leaf none, (Term.identifier name).tree.withField (some "value"),
      Lexed.rBrace.leaf none]

/-- The tokens of a name in braces. -/
def interpolationTokens (name : Word .identifier) (context : LexContext) : List Lexed :=
  [.lBrace context, name.token.lexed, .rBrace]

/-- The tree of an element. -/
def elementTree (name : TagName) (body : List Markup) (trees : List Tree) : Tree :=
  .node none .element
    (name.openingTrees ++ .node (some "content") (contentKind body) trees :: name.closingTrees)

mutual
/-- The tree that is made of these pieces of a text is the item. -/
def Written : Markup → List Piece → Tree → Prop
  | text t, pieces, tree =>
    (∃ rest, ReadsBack false t rest pieces) ∧
      tree = runTree .textRun (pieces.map (·.lexed))
  | interpolation name, pieces, tree =>
    ∃ context, pieces = (interpolationTokens name context).map Lexed.piece ∧
      tree = interpolationTree name context
  | element name body, pieces, tree =>
    ∃ context inner trees, AllWritten body inner trees ∧
      pieces = (name.openingTokens context).map Lexed.piece ++
        (inner ++ name.closingTokens.map Lexed.piece) ∧
      tree = elementTree name body trees

/-- The trees are the items, in order. -/
def AllWritten : List Markup → List Piece → List Tree → Prop
  | [], pieces, trees => pieces = [] ∧ trees = []
  | item :: rest, pieces, trees =>
    ∃ front tree back others, item.Written front tree ∧ AllWritten rest back others ∧
      pieces = front ++ back ∧ trees = tree :: others
end

variable {items items' : List Markup} {pieces pieces' : List Piece} {trees trees' : List Tree}

/-- Two lists of items that are written make one. -/
theorem AllWritten.append (h : AllWritten items pieces trees)
    (h' : AllWritten items' pieces' trees') :
    AllWritten (items ++ items') (pieces ++ pieces') (trees ++ trees') := by
  induction items generalizing pieces trees with
  | nil =>
    obtain ⟨rfl, rfl⟩ := h
    exact h'
  | cons item rest ih =>
    obtain ⟨front, tree, back, others, hfirst, hrest, rfl, rfl⟩ := h
    exact ⟨front, tree, back ++ pieces', others ++ trees', hfirst, ih hrest,
      List.append_assoc .., rfl⟩

/-- An item that is written makes a list. -/
theorem AllWritten.singleton {item : Markup} {tree : Tree} (h : item.Written pieces tree) :
    AllWritten [item] pieces [tree] :=
  ⟨pieces, tree, [], [], h, ⟨rfl, rfl⟩, (List.append_nil _).symm, rfl⟩

/-- Two lists of items are rendered one behind the other. -/
theorem renderAll_append (items items' : List Markup) :
    renderAll (items ++ items') = renderAll items ++ renderAll items' := by
  induction items with
  | nil => rfl
  | cons item rest ih => rw [List.cons_append, renderAll, renderAll, ih, List.append_assoc]

/-- A name in braces, as it is read. -/
theorem consists_interpolation (name : Word .identifier) (rest : Text) {context : LexContext}
    (hcontext : context = .normal ∨ context = .text) :
    Consists ((interpolation name).render ++ rest)
      ((interpolationTokens name context).map Lexed.piece) rest := by
  have hname : Splits .normal .identifier name.text (CodePoint.ofChar '\x7d' :: rest) :=
    (names_word name).splits_behind (by rintro c ⟨⟩; decide)
  rw [render, List.cons_append, List.append_assoc]
  exact .token (.lBrace context) (splits_lBrace hcontext) rfl
    (.token name.token.lexed hname rfl (.token .rBrace splits_rBrace rfl (.nil rest)))

/-- The later items of a well-formed list are well-formed. -/
theorem AllWellFormed.of_append (h : AllWellFormed (items ++ items')) : AllWellFormed items' := by
  induction items with
  | nil => exact h
  | cons item items ih => exact ih h.2.2

/-- Each item is written with a character at least. -/
theorem length_le_renderAll (h : AllWellFormed items) : items.length ≤ (renderAll items).length := by
  induction items with
  | nil => exact Nat.zero_le _
  | cons item items ih =>
    obtain ⟨hitem, -, hitems⟩ := h
    have hlater := ih hitems
    have hpos : 0 < item.render.length := by
      cases item with
      | interpolation | element => simp [render, TagName.opening]
      | text t =>
        cases t with
        | nil => exact absurd rfl hitem.ne_nil
        | cons c t =>
          have hfirst := hitem.first c rfl
          obtain ⟨d, tail, hd, -⟩ := @Text.exists_escapeChar_cons false c hfirst
          rw [render, Text.escape_cons, hd, List.cons_append]
          exact Nat.succ_pos _
    rw [renderAll, List.length_append, List.length_cons]
    omega

/-! ### What items start with -/

/-- Markup starts the text: a tag, or a brace. -/
inductive Starts : Text → Prop where
  | opening (name : TagName) (rest : Text) : Starts (CodePoint.ofChar '<' :: (name.text ++ rest))
  | closing (name : TagName) (rest : Text) : Starts (name.closing ++ rest)
  | brace (rest : Text) : Starts (CodePoint.ofChar '\x7b' :: rest)

/-- An item that is no text starts with a tag or a brace. -/
theorem starts_render {item : Markup} (h : item.isText = false) (rest : Text) :
    Starts (item.render ++ rest) := by
  cases item with
  | text => cases h
  | interpolation => exact .brace _
  | element name body =>
    rw [render, List.append_assoc, TagName.opening_append]
    exact .opening name _

/-- Where no text comes next, markup does. -/
theorem starts_renderAll (h : ∀ next ∈ items.head?, next.isText = false) (name : TagName)
    (rest : Text) : Starts (renderAll items ++ (name.closing ++ rest)) := by
  cases items with
  | nil => exact .closing name rest
  | cons item items =>
    rw [renderAll, List.append_assoc]
    exact starts_render (h item rfl) _

/-- Its first character is one of the two. -/
theorem Starts.exists_cons {rest : Text} (h : Starts rest) :
    ∃ (c : CodePoint) (tail : Text), rest = c :: tail ∧ (c = '<' ∨ c = '\x7b') := by
  cases h with
  | opening name rest => exact ⟨_, _, rfl, .inl rfl⟩
  | closing name rest => exact ⟨_, _, TagName.closing_append name rest, .inl rfl⟩
  | brace rest => exact ⟨_, _, rfl, .inr rfl⟩

/-- Text stops in front of markup. -/
theorem Starts.stops {rest t : Text} (h : Starts rest)
    (hplain : t.getLast? ≠ some (CodePoint.ofChar '\\')) : Stops false t rest := by
  obtain ⟨c, tail, rfl, hc⟩ := h.exists_cons
  refine ⟨⟨c, tail, rfl, ?_⟩, ?_, fun hlast => absurd hlast hplain⟩
  · rcases hc with rfl | rfl <;> simp [endsText]
  · intro d hd
    rw [← Option.some.inj hd]
    rcases hc with rfl | rfl <;> decide

/-- So do words. -/
theorem Starts.ends_word {rest : Text} (h : Starts rest) :
    ∀ c ∈ rest.head?, continuesName false c = false := by
  obtain ⟨c, tail, rfl, hc⟩ := h.exists_cons
  intro d hd
  rw [← Option.some.inj hd]
  rcases hc with rfl | rfl <;> decide

/-- Markup is no text and has no trivia in front of it. -/
theorem Starts.exists_scans {rest : Text} (h : Starts rest) {context : LexContext}
    (hcontext : context = .normal ∨ context = .text) :
    ∃ kind ∈ [TokenKind.lessThan, .lBrace], ∃ first behind,
      Scans context rest [] kind first behind := by
  cases h with
  | opening name rest =>
    exact ⟨.lessThan, by decide, _, _, .token (TagName.splits_start hcontext) rfl⟩
  | closing name rest =>
    rw [TagName.closing_append]
    exact ⟨.lessThan, by decide, _, _,
      .token (splits_lessThan ⟨by decide, by decide⟩ hcontext) rfl⟩
  | brace rest => exact ⟨.lBrace, by decide, _, _, .token (splits_lBrace hcontext) rfl⟩

/-! ### Words at the start of a text -/

/-- Escapes do not change the word that a text starts with. -/
theorem takeWhile_escape {t rest : Text}
    (hrest : ∀ c ∈ rest.head?, continuesName false c = false) :
    (Text.escape false t ++ rest).takeWhile (continuesName false)
      = t.takeWhile (continuesName false) := by
  induction t with
  | nil =>
    cases rest with
    | nil => rfl
    | cons c rest => rw [Text.escape_nil, List.nil_append, List.takeWhile_cons, hrest c rfl]; rfl
  | cons c t ih =>
    rw [Text.escape_cons, List.append_assoc]
    by_cases hc : c.isVerbatim false = true
    · rw [Text.escapeChar_of_isVerbatim hc, List.singleton_append, List.takeWhile_cons,
        List.takeWhile_cons, ih]
    · -- Neither the character nor what it is written as is part of a word.
      obtain ⟨d, tail, hd, hother, hother'⟩ : ∃ d tail, Text.escapeChar false c = d :: tail ∧
          continuesName false d = false ∧ continuesName false c = false := by
        rcases Text.eq_of_not_isVerbatim (Bool.not_eq_true _ ▸ hc) with rfl | rfl | rfl | rfl | h
        · exact ⟨_, _, rfl, by decide⟩
        · exact ⟨_, _, rfl, by decide⟩
        · exact ⟨_, _, rfl, by decide⟩
        · exact ⟨_, _, rfl, by decide⟩
        · cases h.1
      rw [hd, List.cons_append, List.takeWhile_cons, List.takeWhile_cons, hother, hother']
      rfl

/-- A text that is read as a keyword starts with that word. -/
theorem takeWhile_of_keyword {c : CodePoint} {rest : Text} {spelling : String}
    (h : (code false c rest).kind.keyword? = some spelling) :
    (c :: rest).takeWhile (continuesName false) = Text.ofString spelling := by
  have hname : ∀ kind : TokenKind, kind.keyword?.isSome = true → kind ∈ markupNameTokens := by
    intro kind
    cases kind <;> decide
  have hstarts : StartsOnlyName c := startsOnlyName_of_kind (hname _ (by rw [h]; rfl))
  rw [hstarts.code] at h
  rw [List.takeWhile_cons, if_pos hstarts.continues]
  simp only [name] at h
  split at h
  · cases h
  · cases hfound : TokenKind.ofKeyword? (c :: rest.takeWhile (continuesName false)) with
    | none =>
      rw [hfound] at h
      cases h
    | some kind =>
      rw [hfound] at h
      have hword := List.find?_some hfound
      rw [show kind.keyword? = some spelling from h] at hword
      exact (of_decide_eq_true hword).symm

/-! ### Comments -/

/-- No character of an escaped text is a `<`. -/
theorem ne_angle_of_mem_escape {t : Text} {c : CodePoint} (h : c ∈ Text.escape false t) : c ≠ '<' := by
  obtain ⟨d, -, hmem⟩ := List.mem_flatMap.mp h
  by_cases hd : d.isVerbatim false = true
  · rw [Text.escapeChar_of_isVerbatim hd, List.mem_singleton] at hmem
    rw [hmem]
    exact (CodePoint.isVerbatim_iff.mp hd).2.1
  · rintro rfl
    rcases Text.eq_of_not_isVerbatim (Bool.not_eq_true _ ▸ hd) with rfl | rfl | rfl | rfl | h
    · exact absurd hmem (by decide)
    · exact absurd hmem (by decide)
    · exact absurd hmem (by decide)
    · exact absurd hmem (by decide)
    · cases h.1

/-- A name has no `<` in it. -/
theorem ne_angle_of_names {inTag : Bool} {kind : TokenKind} {text : Text}
    (h : Names inTag kind text) {c : CodePoint} (hmem : c ∈ text) : c ≠ '<' := by
  rintro rfl
  have hcontinues := h.continuesName_of_mem _ hmem
  revert hcontinues
  cases inTag <;> decide

/-- An opening tag starts no comment: behind its `<` stands a name. -/
theorem uncommented_opening (name : TagName) {rest : Text} (h : rest.Uncommented) :
    Text.Uncommented (name.opening ++ rest) := by
  rw [TagName.opening_append]
  obtain ⟨c, tail, htext, hstarts, -, -⟩ := name.exists_cons
  refine ⟨fun _ hhead => ?_, .append (fun _ => ne_angle_of_names name.names) ⟨fun hangle => ?_, h⟩⟩
  · rw [htext] at hhead
    exact hstarts.ne (d := '!') (by decide) (Option.some.inj hhead)
  · exact absurd hangle (by decide)

/-- Nor does a closing tag: behind its `<` stands a slash. -/
theorem uncommented_closing (name : TagName) {rest : Text} (h : rest.Uncommented) :
    Text.Uncommented (name.closing ++ rest) := by
  rw [TagName.closing_append]
  refine ⟨fun _ hhead => absurd (Option.some.inj hhead) (by decide),
    fun hangle => absurd hangle (by decide), ?_⟩
  exact .append (fun _ => ne_angle_of_names name.names) ⟨fun hangle => absurd hangle (by decide), h⟩

mutual
/-- No comment starts in what is written. -/
theorem uncommented_render : ∀ (item : Markup) {rest : Text}, rest.Uncommented →
    Text.Uncommented (item.render ++ rest)
  | text t, rest, h => .append (fun _ => ne_angle_of_mem_escape) h
  | interpolation name, rest, h => by
    rw [render, List.cons_append, List.append_assoc]
    refine ⟨fun hangle => absurd hangle (by decide), ?_⟩
    exact .append (fun _ => ne_angle_of_names (names_word name))
      ⟨fun hangle => absurd hangle (by decide), h⟩
  | element name body, rest, h => by
    rw [render, List.append_assoc, List.append_assoc]
    exact uncommented_opening name (uncommented_renderAll body (uncommented_closing name h))

/-- Rendered items start no comment, by induction on them; their texts are
escaped. -/
theorem uncommented_renderAll : ∀ (items : List Markup) {rest : Text}, rest.Uncommented →
    Text.Uncommented (renderAll items ++ rest)
  | [], rest, h => h
  | item :: items, rest, h => by
    rw [renderAll, List.append_assoc]
    exact uncommented_render item (uncommented_renderAll items h)
end

/-! ### Bodies -/

mutual
/-- The bodies in an item, each with the text from there on. -/
def bodies : Markup → Text → List (Text × List Markup)
  | text _, _ | interpolation _, _ => []
  | element name body, behind =>
    (renderAll body ++ (name.closing ++ behind), body) :: allBodies body (name.closing ++ behind)

/-- The same for the items of a body. -/
def allBodies : List Markup → Text → List (Text × List Markup)
  | [], _ => []
  | item :: rest, behind => item.bodies (renderAll rest ++ behind) ++ allBodies rest behind
end

/-- The bodies of two lists are those of the first one, each with the second
list behind it, and those of the second one. -/
theorem allBodies_append (items items' : List Markup) (behind : Text) :
    allBodies (items ++ items') behind
      = allBodies items (renderAll items' ++ behind) ++ allBodies items' behind := by
  induction items with
  | nil => rfl
  | cons item items ih =>
    rw [List.cons_append, allBodies, allBodies, ih, renderAll_append, List.append_assoc,
      List.append_assoc]

/-- The bodies start one behind the other in a stretch of the source,
which is given by how much of it is left at its start and at its end. -/
structure Ordered (bodies : List (Text × List Markup)) (left left' : Nat) : Prop where
  sorted : bodies.Pairwise fun body body' => body'.1.length < body.1.length
  within : ∀ body ∈ bodies, left' < body.1.length ∧ body.1.length < left
  le : left' ≤ left

namespace Ordered

variable {bodies bodies' : List (Text × List Markup)} {left middle left' : Nat}

/-- No bodies stand in any stretch. -/
theorem nil (h : left' ≤ left) : Ordered [] left left' := ⟨.nil, fun _ hmem => (nomatch hmem), h⟩

/-- The bodies of two stretches that meet stand in the stretch of both. -/
theorem append (h : Ordered bodies left middle) (h' : Ordered bodies' middle left') :
    Ordered (bodies ++ bodies') left left' where
  sorted := List.pairwise_append.mpr ⟨h.sorted, h'.sorted, fun body hmem body' hmem' =>
    (h'.within body' hmem').2.trans (h.within body hmem).1⟩
  within := List.forall_mem_append.mpr
    ⟨fun body hmem => ⟨h'.le.trans_lt (h.within body hmem).1, (h.within body hmem).2⟩,
      fun body hmem => ⟨(h'.within body hmem).1, (h'.within body hmem).2.trans_le h.le⟩⟩
  le := h'.le.trans h.le

/-- A body in front of others that starts inside the stretch. The others stand
in what follows its start, so they are shorter. -/
theorem cons {body : Text × List Markup} (h : Ordered bodies body.1.length middle)
    (hfirst : body.1.length < left) (hlast : left' < middle) :
    Ordered (body :: bodies) left left' where
  sorted := List.pairwise_cons.mpr ⟨fun body' hmem => (h.within body' hmem).2, h.sorted⟩
  within := List.forall_mem_cons.mpr ⟨⟨hlast.trans_le h.le, hfirst⟩, fun body' hmem =>
    ⟨hlast.trans (h.within body' hmem).1, (h.within body' hmem).2.trans hfirst⟩⟩
  le := (hlast.trans_le h.le).le.trans hfirst.le

/-- Bodies that start at one place are one body. -/
theorem eq_of_text_eq (h : Ordered bodies left left') {body body' : Text × List Markup}
    (hmem : body ∈ bodies) (hmem' : body' ∈ bodies) (htext : body.1 = body'.1) : body = body' := by
  -- Of two different bodies one starts behind the other.
  have hother : ∀ {body body' : Text × List Markup}, body'.1.length < body.1.length →
      body.1 ≠ body'.1 := fun hlt htext => Nat.ne_of_gt hlt (congrArg List.length htext)
  have hsame := List.Pairwise.forall_of_forall_of_flip
    (R := fun body body' : Text × List Markup => body.1 = body'.1 → body = body')
    (fun _ _ _ => rfl) (h.sorted.imp fun hlt htext => absurd htext (hother hlt))
    (h.sorted.imp fun hlt htext => absurd htext.symm (hother hlt))
  exact hsame hmem hmem' htext

end Ordered

mutual
/-- The bodies in an item stand one behind the other where the item does, by
induction on the item. That of an element comes first, and then those in it. -/
theorem ordered_bodies : ∀ (item : Markup) (behind : Text),
    Ordered (item.bodies behind) (item.render ++ behind).length behind.length
  | text t, behind | interpolation name, behind =>
    .nil (by rw [List.length_append]; exact Nat.le_add_left _ _)
  | element name body, behind => by
    have hinner := ordered_allBodies body (name.closing ++ behind)
    refine hinner.cons ?_ ?_
    · simp only [render, TagName.opening, List.length_append, List.length_cons]
      omega
    · simp only [TagName.closing, List.length_append, List.length_cons]
      omega

/-- The same of a list of items. -/
theorem ordered_allBodies : ∀ (items : List Markup) (behind : Text),
    Ordered (allBodies items behind) (renderAll items ++ behind).length behind.length
  | [], _ => .nil le_rfl
  | item :: rest, behind => by
    have hfirst := ordered_bodies item (renderAll rest ++ behind)
    rw [renderAll, List.append_assoc]
    exact hfirst.append (ordered_allBodies rest behind)
end

/-- The text starts right behind a tag. -/
def BehindTag (source text : Text) : Prop :=
  ∃ front, source = front ++ CodePoint.ofChar '>' :: text

/-- What stands behind a tag still does when more is put in front. -/
theorem BehindTag.append {source text : Text} (h : BehindTag source text) (front : Text) :
    BehindTag (front ++ source) text := by
  obtain ⟨more, rfl⟩ := h
  exact ⟨front ++ more, (List.append_assoc ..).symm⟩

mutual
/-- Each body in an item stands right behind the tag of its element. -/
theorem behindTag_of_mem_bodies : ∀ (item : Markup) (behind : Text),
    ∀ body ∈ item.bodies behind, BehindTag (item.render ++ behind) body.1
  | text _, _, body, h | interpolation _, _, body, h => nomatch h
  | element name inner, behind, body, h => by
    have hrender : (element name inner).render ++ behind
        = name.opening ++ (renderAll inner ++ (name.closing ++ behind)) := by
      simp only [render, List.append_assoc]
    rw [hrender]
    rcases List.mem_cons.mp h with rfl | h
    · refine ⟨CodePoint.ofChar '<' :: name.text, ?_⟩
      rw [TagName.opening_append]
      rfl
    · exact (behindTag_of_mem_allBodies inner _ body h).append _

/-- The same of a list of items. -/
theorem behindTag_of_mem_allBodies : ∀ (items : List Markup) (behind : Text),
    ∀ body ∈ allBodies items behind, BehindTag (renderAll items ++ behind) body.1
  | [], _, body, h => nomatch h
  | item :: rest, behind, body, h => by
    rw [renderAll, List.append_assoc]
    rcases List.mem_append.mp h with h | h
    · exact behindTag_of_mem_bodies item _ body h
    · exact (behindTag_of_mem_allBodies rest behind body h).append _
end

/-- What is known of the bodies in a source. -/
structure Places (source : Text) (bodies : List (Text × List Markup)) : Prop where
  uncommented : source.Uncommented
  ne_nil : ∀ body ∈ bodies, body.1 ≠ []
  behindTag : ∀ body ∈ bodies, BehindTag source body.1
  single : ∀ body ∈ bodies, ∀ body' ∈ bodies, body.1 = body'.1 → body = body'

/-- All that is known of places holds of the bodies in an item by itself. Two
bodies with the same text behind their start are the same one, since their order
is strict. -/
theorem places_render (item : Markup) : Places item.render (item.bodies []) where
  uncommented := by
    have h : Text.Uncommented (item.render ++ []) := uncommented_render item trivial
    rwa [List.append_nil] at h
  ne_nil body hmem :=
    List.ne_nil_of_length_pos ((ordered_bodies item []).within body hmem).1
  behindTag body hmem := by
    have h := behindTag_of_mem_bodies item [] body hmem
    rwa [List.append_nil] at h
  single _ hmem _ hmem' := (ordered_bodies item []).eq_of_text_eq hmem hmem'

end Markup

end MarkupSyntax
