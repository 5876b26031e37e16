import MarkupSyntax.Proofs.Parse.Draws
import MarkupSyntax.Proofs.Parse.Recovering
import MarkupSyntax.Proofs.Token.Spread

/-!
# `MarkupSyntax.Proofs.Parse.Enters`: parses of spread words

A construct that stands partly in code and partly in a tag has words that
are read in different contexts. Where they are spread, each is one token
in its context, so it can be left open which context that was:

* `Enters p trees context q`: the words of these trees were consumed, and
  the record grew by the trees.
* `Gathers p marker trees context q`: besides, a node was started, and
  the trees are its children so far.
* `Casts p tree node context q`: the tree is one node, the one of a
  handle.

These are the relations of `MarkupSyntax.Proofs.Parse.Records`, for some
tokens. A parse that stands in front of the trees (`Tree.spread`) stands
behind them afterwards (`Enters.faces`).
-/

set_option autoImplicit false

namespace MarkupSyntax

open Grammar

/-! ### Trees as spread texts -/

namespace Tree

/-- The words of a tree, with a space in front of each. -/
def spread (tree : Tree) : Text := Leaf.spread tree.leaves

/-- The same of some trees. -/
def spreadList (trees : List Tree) : Text := Leaf.spread (leavesList trees)

/-- No tree, no text. -/
@[simp] theorem spreadList_nil : spreadList [] = [] := rfl

/-- The texts of trees come one after another. -/
@[simp] theorem spreadList_cons (tree : Tree) (rest : List Tree) :
    spreadList (tree :: rest) = tree.spread ++ spreadList rest := Leaf.spread_append ..

/-- The same for two lists of trees. -/
@[simp] theorem spreadList_append (trees trees' : List Tree) :
    spreadList (trees ++ trees') = spreadList trees ++ spreadList trees' := by
  unfold spreadList
  rw [leavesList_append, Leaf.spread_append]

/-- The text is spread tree by tree. -/
theorem spreadList_eq_flatMap (trees : List Tree) : spreadList trees = trees.flatMap spread := by
  induction trees with
  | nil => rfl
  | cons tree trees ih => rw [spreadList_cons, ih, List.flatMap_cons]

/-- A node has the text of its parts. -/
@[simp] theorem spread_node (field : Option String) (kind : SyntaxKind) (parts : List Tree) :
    (node field kind parts).spread = spreadList parts := rfl

/-- The field of a tree has no text. -/
@[simp] theorem spread_withField (tree : Tree) (field : Option String) :
    (tree.withField field).spread = tree.spread := by
  unfold spread
  rw [leaves_withField]

/-- The later field is the one that stays. -/
@[simp] theorem withField_withField (tree : Tree) (field field' : Option String) :
    (tree.withField field).withField field' = tree.withField field' := by
  cases tree <;> rfl

/-- In front of a text with a space stands one, too. -/
theorem loose_spread (tree : Tree) {rest : Text} (h : rest.Loose) : (tree.spread ++ rest).Loose :=
  Text.loose_spread tree.leaves h

/-- Each word has a space in front of it, so the words are loose in front of
what is. -/
theorem loose_spreadList (trees : List Tree) {rest : Text} (h : rest.Loose) :
    (spreadList trees ++ rest).Loose := Text.loose_spread (leavesList trees) h

end Tree

/-- Trees that have words are no more than these. -/
theorem Tree.length_le_spreadList {trees : List Tree} (h : ∀ tree ∈ trees, tree.leaves ≠ []) :
    trees.length ≤ (spreadList trees).length := by
  induction trees with
  | nil => exact Nat.le_refl _
  | cons tree rest ih =>
    obtain ⟨htree, hrest⟩ := List.forall_mem_cons.mp h
    obtain ⟨leaf, leaves, hleaves⟩ := List.exists_cons_of_ne_nil htree
    have hpos : 0 < tree.spread.length := by simp [spread, hleaves]
    have hle := ih hrest
    rw [spreadList_cons, List.length_append, List.length_cons]
    omega

/-- These tokens are words by themselves, each in its context. -/
structure Lexed.Spell (tokens : List Lexed) (words : List Leaf) : Prop where
  solo : ∀ token ∈ tokens, token.Solo
  texts : tokens.map (·.text) = words.map (·.text)

namespace Lexed.Spell

variable {tokens tokens' : List Lexed} {words words' : List Leaf} {rest : Text}

/-- No words are spelled by no tokens. -/
theorem nil : Spell [] [] := ⟨nofun, rfl⟩

/-- One token spells its word. -/
theorem singleton {token : Lexed} (h : token.Solo) (field : Option String) :
    Spell [token] (Tree.leavesList [token.leaf field]) := ⟨List.forall_mem_singleton.mpr h, rfl⟩

/-- Words one after another are spelled one after another. -/
theorem append (h : Spell tokens words) (h' : Spell tokens' words') :
    Spell (tokens ++ tokens') (words ++ words') where
  solo := List.forall_mem_append.mpr ⟨h.solo, h'.solo⟩
  texts := by rw [List.map_append, List.map_append, h.texts, h'.texts]

/-- Words of code are tokens by themselves. -/
theorem of_isWord (h : ∀ word ∈ words, word.IsWord) : Spell (words.map Leaf.lexed) words where
  solo := by
    intro token hmem
    obtain ⟨word, hword, rfl⟩ := List.mem_map.mp hmem
    exact ⟨.inl rfl, (h word hword).splits, (h word hword).solid⟩
  texts := by
    rw [List.map_map]
    rfl

/-- They are what the spread words are read as. -/
theorem lexes (h : Spell tokens words) (hrest : rest.Loose) :
    Lexes (Leaf.spread words ++ rest) tokens rest := lexes_spread h.solo h.texts hrest

/-- The tokens of the first words come first. -/
theorem of_append (h : Spell tokens (words ++ words')) :
    ∃ front back, tokens = front ++ back ∧ Spell front words ∧ Spell back words' := by
  obtain ⟨hsolo, htexts⟩ := h
  rw [List.map_append] at htexts
  obtain ⟨front, back, rfl, hfront, hback⟩ := List.map_eq_append_iff.mp htexts
  obtain ⟨hsolo, hsolo'⟩ := List.forall_mem_append.mp hsolo
  exact ⟨front, back, rfl, ⟨hsolo, hfront⟩, ⟨hsolo', hback⟩⟩

/-- The first word is spelled by the first token. -/
theorem of_cons {word : Leaf} (h : Spell tokens (word :: words)) :
    ∃ token others, tokens = token :: others ∧ token.Solo ∧ token.text = word.text ∧
      Spell others words := by
  obtain ⟨hsolo, htexts⟩ := h
  obtain ⟨token, others, rfl, htext, hothers⟩ := List.map_eq_cons_iff.mp htexts
  obtain ⟨htoken, hsolo⟩ := List.forall_mem_cons.mp hsolo
  exact ⟨token, others, rfl, htoken, htext, hsolo, hothers⟩

/-- Where the last word is a brace, anything may follow. -/
theorem lexes_braced {last : Leaf} (h : Spell tokens (words ++ [last]))
    (hlast : last.text = [CodePoint.ofChar '\x7d']) (rest : Text) :
    Lexes (Leaf.spread (words ++ [last]) ++ rest) tokens rest := by
  obtain ⟨front, back, rfl, hfront, hback⟩ := h.of_append
  obtain ⟨token, others, rfl, hsolo, htext, hothers⟩ := hback.of_cons
  obtain rfl : others = [] := List.map_eq_nil_iff.mp hothers.texts
  have hspread : Leaf.spread (words ++ [last]) ++ rest =
      Leaf.spread words ++ CodePoint.ofChar ' ' :: (token.text ++ rest) := by
    simp [htext]
  rw [hspread]
  exact (hfront.lexes (Text.loose_space _)).append
    (hsolo.scans_rBrace (htext.trans hlast) rest).lexes

/-- The same without a space in front of the first word. -/
theorem lexes_spaced {first last : Leaf} (h : Spell tokens (first :: (words ++ [last])))
    (hlast : last.text = [CodePoint.ofChar '\x7d']) (rest : Text) :
    Lexes (first.text ++ (Leaf.spread (words ++ [last]) ++ rest)) tokens rest := by
  obtain ⟨token, others, rfl, hsolo, htext, hothers⟩ := h.of_cons
  have hloose : (Leaf.spread (words ++ [last]) ++ rest).Loose := by
    rw [Leaf.spread_append, List.append_assoc]
    exact Text.loose_spread words (Text.loose_space _)
  rw [← htext]
  exact .cons (.token (hsolo.splits.behind hsolo.code hsolo.solid hloose.head?) hsolo.solid)
    (hothers.lexes_braced hlast rest)

end Lexed.Spell

/-- The words of these trees are consumed, each read in some context, and
the record grows by the trees. -/
def Enters (p : Parser) (trees : List Tree) (context : LexContext) (q : Parser) : Prop :=
  ∃ tokens, Lexed.Spell tokens (Tree.leavesList trees) ∧ Records p tokens trees context q

/-- A node was started that has these children so far. -/
def Gathers (p : Parser) (marker : Marker) (trees : List Tree) (context : LexContext) (q : Parser) :
    Prop :=
  ∃ tokens, Lexed.Spell tokens (Tree.leavesList trees) ∧ Holds p marker tokens trees context q

/-- The record grows by one node, the one of a handle. -/
def Casts (p : Parser) (tree : Tree) (node : Completed) (context : LexContext) (q : Parser) : Prop :=
  ∃ tokens, Lexed.Spell tokens tree.leaves ∧ Shapes p tokens tree node context q

/-- The answer is a node, and the record grows by it. -/
def CastsSome (p : Parser) (tree : Tree) (context : LexContext) (answer : Option Completed)
    (q : Parser) : Prop := ∃ node, answer = some node ∧ Casts p tree node context q

variable {p q r : Parser} {tree : Tree} {trees trees' : List Tree} {node : Completed}
  {marker : Marker} {context context' : LexContext} {rest : Text} {token : Lexed}
  {field : Option String}

/-! ### Where a parse stands -/

namespace Parser.Faces

/-- The text in front of a parse is the rest of its source. -/
theorem length_eq_room (h : p.Faces [] rest) : rest.length = p.room := by
  obtain ⟨seam, hp, hlexes⟩ := h
  generalize hbehind : seam.behind = text at hlexes
  cases hlexes
  rw [← hbehind]
  unfold Parser.room
  rw [hp.text, hp.done]
  exact List.length_drop

/-- What is in front of a parse is no longer than its source. -/
theorem length_text_le (h : p.Faces [] rest) : rest.length ≤ p.text.length := by
  rw [h.length_eq_room]
  exact Nat.sub_le _ _

/-- Trees that come next are no more than the source has characters. -/
theorem length_trees_le (h : p.Faces [] (Tree.spreadList trees ++ rest))
    (hwords : ∀ tree ∈ trees, tree.leaves ≠ []) : trees.length ≤ p.text.length := by
  have hle := h.length_text_le
  have hfew := Tree.length_le_spreadList hwords
  rw [List.length_append] at hle
  omega

/-- The token of a word that is next. -/
theorem solo (h : p.Faces [] ((token.leaf field).spread ++ rest)) (hsolo : token.Solo)
    (hrest : rest.Loose) : p.Faces [token] rest :=
  h.append ((Lexed.Spell.singleton hsolo field).lexes hrest)

/-- The current token is the one that is spread next. -/
theorem kind_solo (h : p.Faces [] ((token.leaf field).spread ++ rest)) (hsolo : token.Solo)
    (hrest : rest.Loose) (hcontext : p.context = token.context) : p.kind = token.kind :=
  (h.solo hsolo hrest).kind hcontext

end Parser.Faces

namespace Enters

/-- Entering trees reports nothing. -/
theorem calm (h : Enters p trees context q) : Calm p q := h.choose_spec.2.calm

/-- The current token is then read in this context. -/
theorem context_eq (h : Enters p trees context q) : q.context = context := h.choose_spec.2.context

/-- The state is reached. -/
theorem way (h : Enters p trees context q) : Reaches p q := ⟨_, h.choose_spec.2.way⟩

/-- Behind the words that were consumed stands the rest. -/
theorem faces (h : Enters p trees context q) (hp : p.Faces [] (Tree.spreadList trees ++ rest))
    (hrest : rest.Loose) : q.Faces [] rest := by
  obtain ⟨tokens, hspell, hrecords⟩ := h
  exact (hp.append (hspell.lexes hrest)).all hrecords.toCovers

/-- Consuming no token enters no tree. -/
theorem of_records (h : Records p [] [] context q) : Enters p [] context q := ⟨[], .nil, h⟩

/-- Where nothing is consumed the text stays. -/
theorem same (h : Enters p [] context q) (hp : p.Faces [] rest) : q.Faces [] rest := by
  obtain ⟨tokens, hspell, hrecords⟩ := h
  obtain rfl : tokens = [] := List.map_eq_nil_iff.mp hspell.texts
  exact hp.same hrecords.toCovers

/-- Doing nothing enters no tree. -/
theorem nil (hp : p.Live) (hcontext : p.context = context) : Enters p [] context p :=
  of_records (.nil hp hcontext)

/-- Reading the current token anew enters no tree. -/
theorem relex (hp : p.Live) (context : LexContext) : Enters p [] context (p.relex context) :=
  of_records (.relex hp context)

/-- Trees are entered one after another. -/
theorem trans (h : Enters p trees context q) (h' : Enters q trees' context' r) :
    Enters p (trees ++ trees') context' r := by
  obtain ⟨tokens, hspell, hrecords⟩ := h
  obtain ⟨tokens', hspell', hrecords'⟩ := h'
  refine ⟨tokens ++ tokens', ?_, hrecords.trans hrecords'⟩
  rw [Tree.leavesList_append]
  exact hspell.append hspell'

end Enters

/-- A tree whose words are all read alone is cast as one. -/
theorem Draws.casts (h : Draws p tree node q) (hwords : ∀ word ∈ tree.leaves, word.IsWord) :
    Casts p tree node .normal q := ⟨_, .of_isWord hwords, h.toShapes⟩

namespace Gathers

/-- Gathering trees reports nothing. -/
theorem calm (h : Gathers p marker trees context q) : Calm p q := h.choose_spec.2.calm

/-- The current token is then read in this context. -/
theorem context_eq (h : Gathers p marker trees context q) : q.context = context :=
  h.choose_spec.2.context

/-- The state is reached. -/
theorem way (h : Gathers p marker trees context q) : Reaches p q := ⟨_, h.choose_spec.2.way⟩

/-- Behind the children stands the rest. -/
theorem faces (h : Gathers p marker trees context q)
    (hp : p.Faces [] (Tree.spreadList trees ++ rest)) (hrest : rest.Loose) : q.Faces [] rest := by
  obtain ⟨tokens, hspell, hholds⟩ := h
  exact (hp.append (hspell.lexes hrest)).all hholds.toCovers

/-- In front of the children the text stays. -/
theorem same (h : Gathers p marker [] context q) (hp : p.Faces [] rest) : q.Faces [] rest := by
  obtain ⟨tokens, hspell, hholds⟩ := h
  obtain rfl : tokens = [] := List.map_eq_nil_iff.mp hspell.texts
  exact hp.same hholds.toCovers

/-- Trees that are entered behind the start of a node are gathered in it. -/
theorem enters (h : Gathers p marker trees context q) (h' : Enters q trees' context' r) :
    Gathers p marker (trees ++ trees') context' r := by
  obtain ⟨tokens, hspell, hholds⟩ := h
  obtain ⟨tokens', hspell', hrecords⟩ := h'
  refine ⟨tokens ++ tokens', ?_, hholds.records hrecords⟩
  rw [Tree.leavesList_append]
  exact hspell.append hspell'

/-- Completing a node makes a tree of its children, and consumes
nothing. -/
theorem finish {kind : SyntaxKind} (h : Gathers p marker trees context q)
    (real : kind.isNode = true) (hplain : kind.isLoose = true) :
    Parse.Yields (marker.complete kind) q fun node r =>
      Casts p (.node none kind trees) node context r ∧ Covers q [] context r := by
  obtain ⟨tokens, hspell, hholds⟩ := h
  refine (hholds.finish real (Outline.fits_of_isLoose hplain)).mono ?_
  rintro node r ⟨hr, hsame, -⟩
  exact ⟨⟨tokens, hspell, hr⟩, hsame⟩

/-- A node of a kind that asks for nothing in particular can be completed around
what was gathered. -/
theorem complete {kind : SyntaxKind} (h : Gathers p marker trees context q)
    (real : kind.isNode = true) (hplain : kind.isLoose = true) :
    Parse.Yields (marker.complete kind) q fun node r =>
      Casts p (.node none kind trees) node context r :=
  (h.finish real hplain).mono fun _ _ hr => hr.1

end Gathers

namespace Casts

/-- The node of a handle was entered. -/
theorem enters (h : Casts p tree node context q) : Enters p [tree] context q := by
  obtain ⟨tokens, hspell, hshapes⟩ := h
  refine ⟨tokens, ?_, hshapes.records⟩
  rwa [Tree.leavesList, Tree.leavesList, List.append_nil]

/-- Nothing is added before the node. -/
theorem after (h' : Casts q tree node context' r) (h : Enters p [] context q) :
    Casts p tree node context' r := by
  obtain ⟨tokens, hspell, hrecords⟩ := h
  obtain ⟨tokens', hspell', hshapes⟩ := h'
  obtain rfl : tokens = [] := List.map_eq_nil_iff.mp hspell.texts
  exact ⟨tokens', hspell', hshapes.after hrecords⟩

/-- Nothing is added behind the node. -/
theorem stays (h : Casts p tree node context q) (h' : Enters q [] context' r) :
    Casts p tree node context' r := by
  obtain ⟨tokens, hspell, hshapes⟩ := h
  obtain ⟨tokens', hspell', hrecords⟩ := h'
  obtain rfl : tokens' = [] := List.map_eq_nil_iff.mp hspell'.texts
  exact ⟨tokens, hspell, hshapes.stays hrecords⟩

/-- A finished node goes into a field. -/
theorem setField (h : Casts p tree node context q) (field : Option String) :
    Parse.Yields (node.setField field) q fun node' r =>
      node' = node ∧ Casts p (tree.withField field) node context r := by
  obtain ⟨tokens, hspell, hshapes⟩ := h
  refine (hshapes.setField field).mono ?_
  rintro node' r ⟨hnode, hr, -⟩
  rw [← Tree.leaves_withField tree field] at hspell
  exact ⟨hnode, tokens, hspell, hr⟩

/-- The node goes into a field that is given. -/
theorem into (h : Casts p tree node context q) (field : String) :
    Parse.Yields (node.into field) q fun _ r =>
      Casts p (tree.withField (some field)) node context r := by
  unfold Completed.into
  refine (h.setField (some field)).bind ?_
  rintro _ r ⟨-, hr⟩
  exact .pure hr

/-- A node one level further down is a node at this level. -/
theorem nested (h : Casts { p with depth := p.depth + 1 } tree node context q) :
    Casts p tree node context q.leaveNesting := by
  obtain ⟨tokens, hspell, hshapes⟩ := h
  exact ⟨tokens, hspell, hshapes.nested⟩

/-- The kind of a finished node. -/
theorem kind (h : Casts p tree node context q) :
    Parse.Yields node.kind q fun kind r => q = r ∧ kind = tree.kind := h.choose_spec.2.kind

end Casts

/-! ### Steps of a parse -/

namespace Parse

/-- A node is started. -/
theorem yields_start_gathers (hp : p.Live) (hcontext : p.context = context) :
    Yields start p fun marker q => Gathers p marker [] context q ∧ q.memo = p.memo := by
  refine (yields_start_node hp hcontext).mono ?_
  rintro marker q ⟨hq, hmarks⟩
  exact ⟨⟨[], .nil, hq⟩, hmarks.memo⟩

section Solo

variable (h : p.Faces [] ((token.leaf field).spread ++ rest)) (hsolo : token.Solo)
  (hrest : rest.Loose) (hcontext : p.context = token.context) (after : LexContext)

include h hsolo hrest hcontext

/-- A token is consumed. -/
theorem yields_bump_solo :
    Yields (bump after field) p fun _ q => Enters p [token.leaf field] after q ∧ q.Faces [] rest ∧
      q.memo = p.memo := by
  have hfaces := h.solo hsolo hrest
  refine (yields_bump_token hfaces hcontext hsolo.kind_ne_eof after field).mono ?_
  rintro _ _ ⟨rfl, hq⟩
  exact ⟨⟨[token], .singleton hsolo field, hq⟩, hfaces.tail hq.toCovers, p.memo_bump ..⟩

/-- A token that may be there is consumed, since it is there. -/
theorem yields_eat_solo :
    Yields (eat token.kind after field) p fun found q => found = true ∧
      Enters p [token.leaf field] after q ∧ q.Faces [] rest ∧ q.memo = p.memo := by
  have hfaces := h.solo hsolo hrest
  refine (yields_eat_token hfaces hcontext hsolo.kind_ne_eof after field).mono ?_
  rintro _ _ ⟨hfound, rfl, hq⟩
  exact ⟨hfound, ⟨[token], .singleton hsolo field, hq⟩, hfaces.tail hq.toCovers, p.memo_bump ..⟩

/-- A token that should be there is consumed, since it is there. -/
theorem yields_expect_solo :
    Yields (expect token.kind after field) p fun found q => found = true ∧
      Enters p [token.leaf field] after q ∧ q.Faces [] rest ∧ q.memo = p.memo := by
  have hfaces := h.solo hsolo hrest
  refine (yields_expect_token hfaces hcontext hsolo.kind_ne_eof after field).mono ?_
  rintro _ _ ⟨hfound, rfl, hq⟩
  exact ⟨hfound, ⟨[token], .singleton hsolo field, hq⟩, hfaces.tail hq.toCovers, p.memo_bump ..⟩

end Solo

/-- A list of items of known tokens makes a node of their trees. What is
known in front of an item depends on the items that are left. -/
theorem yields_itemList_items {α : Type} {list : ItemList} (tokens : α → List Lexed)
    (tree : α → Tree) (left : List α → Parser → Prop) {items : List α}
    (real : list.nodeKind.isNode = true) (hplain : list.nodeKind.isLoose = true)
    (few : items.length ≤ p.text.length) (hp : p.Live)
    (hitem : ∀ item others progress q, left (item :: others) q → Behind progress q → Reaches p q →
      Yields (list.round progress) q fun next r => ∃ progress', next = .again progress' ∧
        Behind progress' r ∧ left others r ∧ ∃ context, Records q (tokens item) [tree item] context r)
    (hlast : ∀ progress q, left [] q → Behind progress q →
      Yields (list.round progress) q fun next r => next = .done () ∧ Records q [] [] list.context r)
    (h : ∀ q, Covers p [] p.context q → left items q) :
    Yields list.parse p fun node q => Shapes p (items.flatMap tokens)
      (.node none list.nodeKind (items.map tree)) node list.context q := by
  unfold ItemList.parse
  refine (yields_start_node hp rfl).bind ?_
  rintro marker q ⟨hq, -⟩
  have hway : Reaches p q := ⟨_, hq.way⟩
  have hlive : q.Live := hway.live hp
  have hloop : Yields (loop list.round {}) q fun _ r =>
      Records q (items.flatMap tokens) (items.map tree) list.context r := by
    unfold loop
    refine .get ?_
    -- What is kept is split into the items that are done and those that are `left`; the caller
    -- says what the latter means.
    refine yields_rounds_items (fun others progress r => ∃ done, items = done ++ others ∧
      Behind progress r ∧ left others r ∧
        ∃ context, Records q (done.flatMap tokens) (done.map tree) context r) items
      (by rw [hway.text hp]; omega) ?_ ?_
      ⟨[], rfl, behind_first q, h q hq.toCovers, _, .nil hlive rfl⟩
    · rintro item others progress r ⟨done, rfl, hbehind, hleft, context', hr⟩
      refine (hitem item others progress r hleft hbehind (hway.trans ⟨_, hr.way⟩)).mono ?_
      rintro next s ⟨progress', rfl, hbehind', hleft', context'', hs⟩
      refine ⟨progress', rfl, done ++ [item], by simp, hbehind', hleft', context'', ?_⟩
      simpa using hr.trans hs
    · rintro progress r ⟨done, rfl, hbehind, hleft, context', hr⟩
      refine (hlast progress r hleft hbehind).mono ?_
      rintro next s ⟨hnext, hs⟩
      exact ⟨(), hnext, by simpa using hr.trans hs⟩
  refine hloop.bind ?_
  intro _ r hr
  refine ((hq.records hr).complete real (Outline.fits_of_isLoose hplain)).mono ?_
  exact fun node s hs => hs.1

/-- A loop that reads one item after another, and ends behind the last. -/
theorem yields_rounds_enters {α β σ : Type} {round : σ → Parse (Round σ β)}
    (trees : α → List Tree) (inv : σ → Parser → Prop) {items : List α} {post : β → Parser → Prop}
    {state : σ} {fuel : Nat} (enough : items.length < fuel) (hrest : rest.Loose)
    (hitem : ∀ item others, item :: others <:+ items → ∀ state p, inv state p →
      p.Faces [] (Tree.spreadList (trees item) ++ (Tree.spreadList (others.flatMap trees) ++ rest)) →
      Yields (round state) p fun next q => ∃ state', next = .again state' ∧ inv state' q ∧
        ∃ context, Enters p (trees item) context q)
    (hlast : ∀ state q, inv state q → q.Faces [] rest →
      (∃ context, Enters p (items.flatMap trees) context q) →
      Yields (round state) q fun next r => ∃ result, next = .done result ∧ post result r)
    (h : p.Faces [] (Tree.spreadList (items.flatMap trees) ++ rest)) (hinv : inv state p) :
    Yields (rounds round fuel state) p post := by
  refine yields_rounds_items (fun others state q => ∃ done, items = done ++ others ∧ inv state q ∧
    q.Faces [] (Tree.spreadList (others.flatMap trees) ++ rest) ∧
      ∃ context, Enters p (done.flatMap trees) context q) items enough ?_ ?_
    ⟨[], rfl, hinv, h, _, .nil h.live rfl⟩
  · rintro item others state q ⟨done, rfl, hinv, hfaces, context, hq⟩
    rw [List.flatMap_cons, Tree.spreadList_append, List.append_assoc] at hfaces
    refine (hitem item others (List.suffix_append ..) state q hinv hfaces).mono ?_
    rintro next r ⟨state', rfl, hinv', context', hr⟩
    refine ⟨state', rfl, done ++ [item], by simp, hinv',
      hr.faces hfaces (Tree.loose_spreadList _ hrest), context', ?_⟩
    simpa using hq.trans hr
  · rintro state q ⟨done, rfl, hinv, hfaces, henters⟩
    rw [List.append_nil] at hlast
    exact hlast state q hinv hfaces henters

/-- A round of a list that reads one item. -/
def ReadsItem (tree : Tree) (p : Parser) (next : Round Progress Unit) (q : Parser) : Prop :=
  ∃ progress, next = .again progress ∧ Behind progress q ∧ ∃ context, Enters p [tree] context q

/-- A list of items makes a node of their trees. -/
theorem yields_itemList_enters {α : Type} {list : ItemList} (tree : α → Tree) {items : List α}
    (real : list.nodeKind.isNode = true) (hplain : list.nodeKind.isLoose = true)
    (few : items.length ≤ p.text.length) (hrest : rest.Loose)
    (hitem : ∀ item others, item :: others <:+ items → ∀ progress q, Behind progress q →
      Calm p q → Reaches p q →
      q.Faces [] ((tree item).spread ++ (Tree.spreadList (others.map tree) ++ rest)) →
      Yields (list.round progress) q (ReadsItem (tree item) q))
    (hlast : ∀ progress q, Behind progress q → Calm p q → Reaches p q → q.Faces [] rest →
      Yields (list.round progress) q fun next r => next = .done () ∧ Enters q [] list.context r)
    (h : p.Faces [] (Tree.spreadList (items.map tree) ++ rest)) :
    Yields list.parse p fun node q =>
      Casts p (.node none list.nodeKind (items.map tree)) node list.context q := by
  unfold ItemList.parse
  refine (yields_start_gathers h.live rfl).bind ?_
  rintro marker q ⟨hq, -⟩
  have hway : Reaches p q := hq.way
  have hfaces := hq.same h
  have hloop : Yields (loop list.round {}) q fun _ r =>
      Enters q (items.map tree) list.context r := by
    unfold loop
    refine .get ?_
    rw [hway.text h.live]
    have hmap : items.map tree = items.flatMap fun item => [tree item] := List.map_eq_flatMap
    rw [hmap] at hfaces ⊢
    -- What is kept from round to round besides the trees is what the items may ask of the state:
    -- that it was reached calmly from the start.
    refine yields_rounds_enters (fun item => [tree item])
      (fun progress r => Behind progress r ∧ Calm q r ∧ Reaches q r) (by omega) hrest ?_ ?_ hfaces
      ⟨behind_first q, .refl q, .refl q⟩
    · rintro item others hsuffix progress r ⟨hbehind, hcalm, hr⟩ h
      rw [Tree.spreadList_cons, Tree.spreadList_nil, List.append_nil, ← List.map_eq_flatMap] at h
      refine (hitem item others hsuffix progress r hbehind (hq.calm.trans hcalm) (hway.trans hr)
        h).mono ?_
      rintro next s ⟨progress', hnext, hbehind', context', hs⟩
      exact ⟨progress', hnext, ⟨hbehind', hcalm.trans hs.calm, hr.trans hs.way⟩, context', hs⟩
    · rintro progress r ⟨hbehind, hcalm, hr⟩ h ⟨context', henters⟩
      refine (hlast progress r hbehind (hq.calm.trans hcalm) (hway.trans hr) h).mono ?_
      rintro next s ⟨hnext, hs⟩
      exact ⟨(), hnext, by simpa using henters.trans hs⟩
  refine hloop.bind ?_
  intro _ r hr
  exact (hq.enters hr).complete real hplain

end Parse

end MarkupSyntax
