import MarkupSyntax.Proofs.Parse.Markers
import MarkupSyntax.Proofs.Token.Scan

/-!
# `MarkupSyntax.Proofs.Parse.Records`: parses of known tokens

The relations of `MarkupSyntax.Proofs.Parse.Grows` hold of every source.
Where the tokens that come next are known (`Parser.Faces`), it can be
said which tree a rule adds to the record, and that it reports nothing:

* `Covers p tokens context q`: these tokens were consumed, nothing was
  reported, and the next token was read in `context`.
* `Records p tokens trees context q`: besides, the record grew by the
  outlines of these trees.
* `Holds p marker tokens trees context q`: besides, a node was started,
  and the trees are its children so far.
* `Shapes p tokens tree node context q`: the tree is one node, the one of
  a handle.

A record has the outlines of trees and no texts, and the texts are those
of the tokens. Together they are the trees without trivia.
-/

set_option autoImplicit false

namespace MarkupSyntax

open Sprout hiding node token

/-- The token as a part of a tree, without trivia. -/
def Lexed.leaf (token : Lexed) (field : Option String) : Tree :=
  .leaf field ⟨.token token.kind, token.text, [], []⟩

/-- The texts of the leaves of tokens. -/
theorem Lexed.texts_leaves (tokens : List Lexed) (field : Option String) :
    (Tree.leavesList (tokens.map (·.leaf field))).map (·.text) = tokens.map (·.text) := by
  induction tokens with
  | nil => rfl
  | cons token tokens ih => exact congrArg (token.text :: ·) ih

/-- These tokens come next, and behind them a text. -/
def Parser.Faces (p : Parser) (tokens : List Lexed) (behind : Text) : Prop :=
  ∃ seam, p.At seam ∧ Lexes seam.behind tokens behind

/-- These tokens are consumed, nothing is reported, and the next token is
read in `context`. -/
structure Covers (p : Parser) (tokens : List Lexed) (context : LexContext) (q : Parser) : Prop where
  way : Trace p (tokens.map (·.context)) q
  calm : Calm p q
  context : q.context = context

/-- The record grows by these trees. -/
structure Records (p : Parser) (tokens : List Lexed) (trees : List Tree) (context : LexContext)
    (q : Parser) : Prop extends Covers p tokens context q where
  grown : ∃ sprouts, Grows p q sprouts ∧ outlines sprouts = Tree.outlines trees

/-- A node was started that has these children so far. -/
structure Holds (p : Parser) (marker : Marker) (tokens : List Lexed) (trees : List Tree)
    (context : LexContext) (q : Parser) : Prop extends Covers p tokens context q where
  opened : ∃ first rest, OpenedWith p marker q first rest ∧
    outlines (first.toList ++ rest) = Tree.outlines trees

/-- The record grows by one node, the one of a handle. -/
structure Shapes (p : Parser) (tokens : List Lexed) (tree : Tree) (node : Completed)
    (context : LexContext) (q : Parser) : Prop extends Covers p tokens context q where
  grown : ∃ sprout, Grows p q [sprout] ∧ node.PointsAt p.events.toList.length sprout ∧
    sprout.outline = tree.outline

variable {p q r : Parser} {token : Lexed} {tokens tokens' rest : List Lexed} {tree : Tree}
  {trees trees' : List Tree} {context context' : LexContext} {node : Completed} {marker : Marker}
  {behind : Text}

/-! ### Tokens in front of a parse -/

namespace Seam

variable {seam : Seam}

/-- The first token behind a seam is the next one. -/
theorem kind_current_of_lexes (inside : seam.lexer.IsInside)
    (h : Lexes seam.behind (token :: rest) behind) :
    (seam.current token.context).kind = token.kind := by
  cases h with
  | cons first => exact kind_current_of_scans inside first

/-- The current token has the text of the first token in front. -/
theorem text_current_of_lexes (inside : seam.lexer.IsInside)
    (h : Lexes seam.behind (token :: rest) behind) :
    seam.lexer.source.sliceRange (seam.current token.context).range = token.text := by
  cases h with
  | cons first => exact text_current_of_scans inside first

/-- Behind the last token the source ends. -/
theorem kind_current_of_lexes_nil (inside : seam.lexer.IsInside) (h : Lexes seam.behind [] []) :
    (seam.current context).kind = .eof := by
  have hscan : Scans context seam.behind [] .eof [] [] := by
    generalize seam.behind = text at h
    cases h
    exact .eof
  exact kind_current_of_scans inside hscan

/-- Behind the first token the others follow. -/
theorem lexes_pass (inside : seam.lexer.IsInside) (h : Lexes seam.behind (token :: rest) behind) :
    Lexes (seam.pass token.context).behind rest behind := by
  cases h with
  | cons first later =>
    rw [behind_pass_of_scans inside first]
    exact later

/-- Behind the contexts of some tokens come the tokens that are left. -/
theorem lexes_along (inside : seam.lexer.IsInside)
    (h : Lexes seam.behind (tokens ++ rest) behind) :
    Lexes (seam.along (tokens.map (·.context))).behind rest behind := by
  induction tokens generalizing seam with
  | nil => exact h
  | cons token tokens ih => exact ih (isInside_pass inside _) (lexes_pass inside h)

end Seam

namespace Parser.Faces

/-- A parse in front of tokens is in front of a seam. -/
theorem live (h : p.Faces tokens behind) : p.Live := by
  obtain ⟨seam, hp, -⟩ := h
  exact ⟨seam, hp⟩

/-- The first token is the current one, if it is read in its context. -/
theorem kind (h : p.Faces (token :: rest) behind) (hcontext : p.context = token.context) :
    p.kind = token.kind := by
  obtain ⟨seam, hp, hlexes⟩ := h
  rw [hp.kind, hcontext]
  exact Seam.kind_current_of_lexes hp.inside hlexes

/-- The current text is that of the first token. -/
theorem currentText (h : p.Faces (token :: rest) behind) (hcontext : p.context = token.context) :
    p.currentText = token.text := by
  obtain ⟨seam, hp, hlexes⟩ := h
  unfold Parser.currentText
  rw [hp.text, hp.range, hcontext]
  exact Seam.text_current_of_lexes hp.inside hlexes

/-- With nothing in front the source is at its end. -/
theorem kind_nil (h : p.Faces [] []) : p.kind = .eof := by
  obtain ⟨seam, hp, hlexes⟩ := h
  rw [hp.kind]
  exact Seam.kind_current_of_lexes_nil hp.inside hlexes

/-- Where a parse with a text behind its next token stands. -/
theorem exists_seam (h : p.Faces [token] behind) :
    ∃ seam, p.At seam ∧ (seam.current token.context).kind = token.kind ∧
      (seam.pass token.context).behind = behind := by
  obtain ⟨seam, hp, hlexes⟩ := h
  refine ⟨seam, hp, Seam.kind_current_of_lexes hp.inside hlexes, ?_⟩
  have hpass := Seam.lexes_pass hp.inside hlexes
  generalize (seam.pass token.context).behind = text at hpass
  cases hpass
  rfl

/-- Behind the tokens that were consumed stand the others. -/
theorem after (h : p.Faces (tokens ++ rest) behind) (h' : Covers p tokens context q) :
    q.Faces rest behind := by
  obtain ⟨seam, hp, hlexes⟩ := h
  exact ⟨_, (h'.way.at_ hp).1, Seam.lexes_along hp.inside hlexes⟩

/-- Behind all tokens comes what was behind them. -/
theorem all (h : p.Faces tokens behind) (h' : Covers p tokens context q) : q.Faces [] behind := by
  rw [← List.append_nil tokens] at h
  exact h.after h'

/-- Behind the first token come the others. -/
theorem tail (h : p.Faces (token :: rest) behind) (h' : Covers p [token] context q) :
    q.Faces rest behind :=
  h.after h'

/-- Consuming no token changes nothing. -/
theorem same (h : p.Faces tokens behind) (h' : Covers p [] context q) : q.Faces tokens behind :=
  h.after h'

/-- One level further down the same tokens follow. -/
theorem deeper (h : p.Faces tokens behind) :
    ({ p with depth := p.depth + 1 } : Parser).Faces tokens behind := by
  obtain ⟨seam, hp, hlexes⟩ := h
  exact ⟨seam, ⟨hp.inside, hp.stands⟩, hlexes⟩

/-- Tokens in front do not depend on the level. -/
theorem shallower (h : ({ p with depth := p.depth + 1 } : Parser).Faces tokens behind) :
    p.Faces tokens behind := by
  obtain ⟨seam, hp, hlexes⟩ := h
  exact ⟨seam, ⟨hp.inside, hp.stands⟩, hlexes⟩

/-- In speculation the same tokens follow. -/
theorem speculative (h : p.Faces tokens behind) : p.enterSpeculation.Faces tokens behind := by
  obtain ⟨seam, hp, hlexes⟩ := h
  exact ⟨seam, ⟨hp.inside, hp.stands⟩, hlexes⟩

/-- The text behind is made of tokens, too. -/
theorem append (h : p.Faces tokens behind) {text : Text} (h' : Lexes behind rest text) :
    p.Faces (tokens ++ rest) text := by
  obtain ⟨seam, hp, hlexes⟩ := h
  exact ⟨seam, hp, hlexes.append h'⟩

/-- There are no more tokens than characters. -/
theorem length_le (h : p.Faces (tokens ++ rest) behind)
    (notEnd : ∀ token ∈ tokens, token.kind ≠ .eof) :
    tokens.length ≤ p.text.length := by
  obtain ⟨seam, hp, hlexes⟩ := h
  obtain ⟨middle, hfront, -⟩ := hlexes.of_append
  rw [hp.text]
  refine (hfront.length_le notEnd).trans ?_
  show (seam.lexer.source.drop seam.lexer.position).length ≤ _
  rw [List.length_drop]
  exact Nat.sub_le _ _

/-! #### Places in the source -/

/-- The text in front of a parse is what of its source is not consumed. -/
theorem drop_done (h : p.Faces [] behind) : p.text.drop p.done = behind := by
  obtain ⟨seam, hp, hlexes⟩ := h
  generalize htext : seam.behind = text at hlexes
  cases hlexes
  rw [hp.text, hp.done]
  exact htext

/-- Where the current token of a known text stands: the token and what is
behind it are the end of the source. -/
theorem range_add {text first : Text} {gap : List (TriviaKind × Text)} {kind : TokenKind}
    (h : p.Faces [] text) (hcontext : p.context = context)
    (hscan : Scans context text gap kind first behind) :
    p.range.start + first.length = p.range.stop ∧
      p.range.stop + behind.length = p.text.length := by
  obtain ⟨seam, hp, hlexes⟩ := h
  generalize htext : seam.behind = text at hlexes
  cases hlexes
  rw [← htext] at hscan
  rw [hp.range, hp.text, hcontext]
  exact Seam.range_add_of_scans hp.inside hscan

/-- A token with no trivia in front of it stands where the consumed part
of the source ends. -/
theorem position_eq_done {first : Text} {kind : TokenKind} (h : p.Faces [] (first ++ behind))
    (hcontext : p.context = context) (hscan : Scans context (first ++ behind) [] kind first behind) :
    p.position = p.done := by
  obtain ⟨hstart, hstop⟩ := h.range_add hcontext hscan
  have hlength := congrArg List.length h.drop_done
  have hinside : p.done ≤ p.text.length := by
    obtain ⟨seam, hp, -⟩ := h
    exact hp.done_le
  rw [List.length_drop, List.length_append] at hlength
  show p.range.start = p.done
  omega

/-- What is consumed on the way from one text to another is what the
second leaves of the first. -/
theorem slice_done {front : Text} (h : p.Faces [] (front ++ behind)) (h' : q.Faces [] behind)
    (hsame : q.text = p.text) : q.text.slice p.done q.done = front := by
  have hbehind := h'.drop_done
  rw [hsame] at hbehind ⊢
  have hlength := congrArg List.length h.drop_done
  have hlength' := congrArg List.length hbehind
  have hinside : q.done ≤ p.text.length := by
    obtain ⟨seam, hq, -⟩ := h'
    rw [← hsame]
    exact hq.done_le
  rw [List.length_drop, List.length_append] at hlength
  rw [List.length_drop] at hlength'
  by_cases hfront : front = []
  · subst hfront
    have hnone : q.done - p.done = 0 := by simp at hlength; omega
    rw [Text.slice, hnone, List.take_zero]
  · have hpos := List.length_pos_iff.mpr hfront
    rw [Text.slice, h.drop_done, List.take_left' (by omega)]

end Parser.Faces

/-! ### Steps that follow one another -/

namespace Covers

/-- Standing still covers no token. -/
theorem of_still (hcontext : p.context = context) (h : Still p q) (hcalm : Calm p q) :
    Covers p [] context q :=
  ⟨h.way, hcalm, h.context.trans hcontext⟩

/-- Tokens are covered one after another. -/
theorem trans (h : Covers p tokens context q) (h' : Covers q tokens' context' r) :
    Covers p (tokens ++ tokens') context' r where
  way := by
    rw [List.map_append]
    exact h.way.trans h'.way
  calm := h.calm.trans h'.calm
  context := h'.context

/-- Nothing is consumed afterwards. -/
theorem stays (h : Covers p tokens context q) (h' : Covers q [] context' r) :
    Covers p tokens context' r := by
  have hsame := h.trans h'
  rwa [List.append_nil] at hsame

/-- The text of the parse stays. -/
theorem text (h : Covers p tokens context q) (hp : p.Live) : q.text = p.text :=
  Reaches.text ⟨_, h.way⟩ hp

/-- Where nothing is consumed and the context stays, so does the current
token. -/
theorem still (h : Covers p [] context q) (hp : p.Live) (hcontext : p.context = context) :
    Still p q := by
  obtain ⟨seam, hp⟩ := hp
  have hq : q.At seam := (h.way.at_ hp).1
  exact ⟨h.way, by rw [hq.current, hp.current, h.context, hcontext]⟩

/-- Where tokens are consumed, the first of them the current one, that one
is taken. -/
theorem takes (h : Covers p (token :: tokens) context q) (hcontext : p.context = token.context) :
    Takes p q := by
  have hway := h.way
  rw [List.map_cons, ← hcontext] at hway
  exact ⟨_, hway⟩

/-- What happens one level further down happens at this level. -/
theorem nested (h : Covers { p with depth := p.depth + 1 } tokens context q) :
    Covers p tokens context q.leaveNesting where
  way := by
    have hin : Trace p [] { p with depth := p.depth + 1 } := .other (.refl p) rfl rfl id
    exact .other (hin.trans h.way) rfl rfl id
  calm := by
    have hcalm := h.calm
    refine ⟨hcalm.diagnostics, hcalm.errorCount, hcalm.options, hcalm.file, ?_⟩
    show q.depth - 1 = p.depth
    have hdepth : q.depth = p.depth + 1 := hcalm.depth
    omega
  context := h.context

end Covers

/-- So does what the record grows by. -/
theorem Grows.nested {sprouts : List Sprout} (h : Grows { p with depth := p.depth + 1 } q sprouts) :
    Grows p q.leaveNesting sprouts := by
  obtain ⟨seam, hp⟩ := h.start
  have hlive : p.Live := ⟨seam, hp.inside, hp.stands⟩
  have hin : Quiet p { p with depth := p.depth + 1 } :=
    .of_source rfl rfl rfl rfl rfl rfl (.of_memo rfl rfl rfl)
  have hout := (Parse.quiet_leaveNesting q).grows h.live
  have hall := ((hin.grows hlive).trans h).trans hout
  rwa [List.nil_append, List.append_nil] at hall

/-- Doing nothing records nothing. -/
theorem Records.nil (hp : p.Live) (hcontext : p.context = context) : Records p [] [] context p :=
  ⟨⟨.refl p, .refl p, hcontext⟩, [], .refl hp, rfl⟩

/-- The current token stays, and nothing is recorded. -/
theorem Records.of_quiet (hp : p.Live) (hcontext : p.context = context) (h : Quiet p q)
    (hcalm : Calm p q) : Records p [] [] context q :=
  ⟨.of_still hcontext h.toStill hcalm, [], h.grows hp, rfl⟩

/-- The current token is read anew. -/
theorem Records.relex (hp : p.Live) (context : LexContext) :
    Records p [] [] context (p.relex context) :=
  ⟨⟨.relex (.refl p) context, ⟨rfl, rfl, rfl, rfl, rfl⟩, p.context_relex context⟩, [],
    p.grows_relex hp context, rfl⟩

/-- A decision is kept. -/
theorem Records.keep (hp : p.Live) (hcontext : p.context = context) {rule : String}
    (h : p.isSpeculative = true → rule = "if_form") (offset : Nat) {outcome : Outcome}
    (hin : outcome.IsIn p.text.length) : Records p [] [] context (p.keep rule offset outcome) := by
  have hquiet := Parse.quiet_keep p offset outcome h hin
  refine .of_quiet hp hcontext hquiet ⟨hquiet.diagnostics, hquiet.errorCount, hquiet.options,
    hquiet.file, ?_⟩
  unfold Parser.keep
  split <;> rfl

/-- A decision is remembered. -/
theorem Records.remember (hp : p.Live) (hcontext : p.context = context) (rule : String)
    (offset : Nat) {outcome : Outcome} (hin : outcome.IsIn p.text.length) :
    Records p [] [] context (p.remember rule offset outcome) := by
  unfold Parser.remember
  split
  · exact .nil hp hcontext
  · rename_i hplain
    exact .keep hp hcontext (fun h => absurd h hplain) offset hin

/-- Tokens and trees are recorded one after another. -/
theorem Records.trans (h : Records p tokens trees context q)
    (h' : Records q tokens' trees' context' r) :
    Records p (tokens ++ tokens') (trees ++ trees') context' r where
  toCovers := h.toCovers.trans h'.toCovers
  grown := by
    obtain ⟨sprouts, hgrows, houtlines⟩ := h.grown
    obtain ⟨sprouts', hgrows', houtlines'⟩ := h'.grown
    refine ⟨sprouts ++ sprouts', hgrows.trans hgrows', ?_⟩
    simp only [outlines_append, houtlines, houtlines', Tree.outlines_eq_map, List.map_append]

/-- What is recorded behind the start of a node is held in it. -/
theorem Holds.records (h : Holds p marker tokens trees context q)
    (h' : Records q tokens' trees' context' r) :
    Holds p marker (tokens ++ tokens') (trees ++ trees') context' r where
  toCovers := h.toCovers.trans h'.toCovers
  opened := by
    obtain ⟨first, rest, hopened, houtlines⟩ := h.opened
    obtain ⟨sprouts, hgrows, houtlines'⟩ := h'.grown
    refine ⟨first, rest ++ sprouts, hopened.grows hgrows, ?_⟩
    rw [← List.append_assoc, outlines_append, houtlines, houtlines']
    simp only [Tree.outlines_eq_map, List.map_append]

/-- One node is one tree. -/
theorem Shapes.records (h : Shapes p tokens tree node context q) :
    Records p tokens [tree] context q where
  toCovers := h.toCovers
  grown := by
    obtain ⟨sprout, hgrows, -, houtline⟩ := h.grown
    exact ⟨[sprout], hgrows, congrArg (fun outline => [outline]) houtline⟩

/-! ### Steps of a parse -/

namespace Parse

/-! Where the current token is known, so is the way that a step goes. -/

namespace Yields

variable {α : Type} {kind : TokenKind} {kinds : List TokenKind} {f : Bool → Parse α}
  {post : α → Parser → Prop}

/-- The current token is of the kind. -/
theorem sees_true (hkind : p.kind = kind) (h : Yields (f true) p post) :
    Yields (Parse.sees kind >>= f) p post := by
  refine .sees fun answer hanswer => ?_
  rw [hanswer.mpr hkind]
  exact h

/-- The current token is of another kind. -/
theorem sees_false (hkind : p.kind ≠ kind) (h : Yields (f false) p post) :
    Yields (Parse.sees kind >>= f) p post := by
  refine .sees fun answer hanswer => ?_
  rw [Bool.eq_false_iff.mpr fun hsees => hkind (hanswer.mp hsees)]
  exact h

/-- The current token is one of the kinds. -/
theorem seesAny_true (hkind : p.kind ∈ kinds) (h : Yields (f true) p post) :
    Yields (Parse.seesAny kinds >>= f) p post := by
  refine .seesAny fun answer hanswer => ?_
  rw [hanswer.mpr hkind]
  exact h

/-- The current token is none of the kinds. -/
theorem seesAny_false (hkind : p.kind ∉ kinds) (h : Yields (f false) p post) :
    Yields (Parse.seesAny kinds >>= f) p post := by
  refine .seesAny fun answer hanswer => ?_
  rw [Bool.eq_false_iff.mpr fun hsees => hkind (hanswer.mp hsees)]
  exact h

/-- The condition holds. -/
theorem ite_true {c : Prop} [Decidable c] {m m' : Parse α} (hc : c) (h : Yields m p post) :
    Yields (if c then m else m') p post := by
  rw [if_pos hc]
  exact h

/-- The condition does not hold. -/
theorem ite_false {c : Prop} [Decidable c] {m m' : Parse α} (hc : ¬c) (h : Yields m' p post) :
    Yields (if c then m else m') p post := by
  rw [if_neg hc]
  exact h

/-- A round that goes on is followed by the other rounds. -/
theorem rounds_again {σ β : Type} {round : σ → Parse (Round σ β)} {state : σ} {fuel : Nat}
    {post : β → Parser → Prop} (inv : σ → Parser → Prop)
    (hround : Yields (round state) p fun next q => ∃ state', next = .again state' ∧ inv state' q)
    (h : ∀ state' q, inv state' q → Yields (rounds round fuel state') q post) :
    Yields (rounds round (fuel + 1) state) p post := by
  unfold rounds
  refine hround.bind ?_
  rintro _ q ⟨state', rfl, hinv⟩
  exact h state' q hinv

/-- A round that ends a loop is the last. -/
theorem rounds_done {σ β : Type} {round : σ → Parse (Round σ β)} {state : σ} {fuel : Nat}
    {post : β → Parser → Prop}
    (hround : Yields (round state) p fun next q => ∃ result, next = .done result ∧ post result q) :
    Yields (rounds round (fuel + 1) state) p post := by
  unfold rounds
  refine hround.bind ?_
  rintro _ q ⟨result, rfl, hpost⟩
  exact .pure hpost

/-- There is room for one more level of nesting. -/
theorem enterNesting (hdepth : p.depth < p.options.maxNestingDepth)
    (h : Yields (f true) { p with depth := p.depth + 1 } post) :
    Yields (Parse.enterNesting >>= f) p post := by
  have hrun : Yields Parse.enterNesting p fun answer q =>
      answer = true ∧ q = { p with depth := p.depth + 1 } := by
    unfold Parse.enterNesting
    exact .get (.ite_false (by omega) (.set (.pure ⟨rfl, rfl⟩)))
  refine hrun.bind ?_
  rintro _ _ ⟨rfl, rfl⟩
  exact h

end Yields

/-- A token is consumed, and may be recorded as a keyword. -/
theorem yields_bump_recorded {kind : Option SyntaxKind} (h : p.Faces (token :: rest) behind)
    (hcontext : p.context = token.context) (notEnd : token.kind ≠ .eof) (after : LexContext)
    (field : Option String) (plain : (kind.getD (.token token.kind)).lexeme? = some token.kind) :
    Yields (bump after field kind) p fun _ q => q = p.bump after field kind ∧
      Records p [token] [.leaf field ⟨kind.getD (.token token.kind), token.text, [], []⟩] after q := by
  have hkind : p.kind = token.kind := h.kind hcontext
  have hend : p.kind ≠ .eof := hkind ▸ notEnd
  have plain : (kind.getD (.token p.kind)).lexeme? = some p.kind := by rwa [hkind]
  obtain ⟨hgrows, -, hafter⟩ := p.grows_bump h.live after field kind hend plain
  have hway : Trace p [p.context] (p.bump after field kind) :=
    .bump (.refl p) after field hend plain
  rw [hcontext] at hway
  refine ⟨rfl, ⟨hway, ?_, hafter⟩, _, hgrows, ?_⟩
  · show Calm p (p.bump after field kind)
    unfold Parser.bump
    rw [if_neg hend]
    exact ⟨rfl, rfl, rfl, rfl, rfl⟩
  · rw [hkind]
    rfl

/-- A token is consumed. -/
theorem yields_bump_token (h : p.Faces (token :: rest) behind)
    (hcontext : p.context = token.context) (notEnd : token.kind ≠ .eof) (after : LexContext)
    (field : Option String) :
    Yields (bump after field) p fun _ q => q = p.bump after field none ∧
      Records p [token] [token.leaf field] after q :=
  yields_bump_recorded h hcontext notEnd after field rfl

/-- A node is started. -/
theorem yields_start_node (hp : p.Live) (hcontext : p.context = context) :
    Yields start p fun marker q => Holds p marker [] [] context q ∧ Marks p q := by
  refine (yields_start hp).mono ?_
  intro marker q h
  exact ⟨⟨.of_still hcontext h.toStill h.marks.calm, none, [], h.opened, rfl⟩, h.marks⟩

/-- A token of a kind is consumed where one of that kind is expected. -/
theorem yields_eat_token (h : p.Faces (token :: rest) behind)
    (hcontext : p.context = token.context) (notEnd : token.kind ≠ .eof) (after : LexContext)
    (field : Option String) :
    Yields (eat token.kind after field) p fun found q => found = true ∧
      q = p.bump after field none ∧ Records p [token] [token.leaf field] after q := by
  unfold eat
  refine .sees_true (h.kind hcontext) (.ite_true rfl ?_)
  refine (yields_bump_token h hcontext notEnd after field).bind ?_
  intro _ q hq
  exact .pure ⟨rfl, hq⟩

/-- A token that should be there is consumed, since it is there. What the parser
is then is said, too, for the memo and the other parts that nobody looks at. -/
theorem yields_expect_token (h : p.Faces (token :: rest) behind)
    (hcontext : p.context = token.context) (notEnd : token.kind ≠ .eof) (after : LexContext)
    (field : Option String) :
    Yields (expect token.kind after field) p fun found q => found = true ∧
      q = p.bump after field none ∧ Records p [token] [token.leaf field] after q := by
  unfold expect
  refine (yields_eat_token h hcontext notEnd after field).bind ?_
  rintro _ q ⟨rfl, hq⟩
  exact .ite_true rfl (.pure ⟨rfl, hq⟩)

/-- A token of another kind is left alone. -/
theorem yields_eat_other {kind : TokenKind} (h : p.kind ≠ kind) (after : LexContext)
    (field : Option String) :
    Yields (eat kind after field) p fun found q => found = false ∧ q = p := by
  unfold eat
  exact .sees_false h (.ite_false Bool.false_ne_true (.pure ⟨rfl, rfl⟩))

/-- A loop that goes from one item to the next, and ends behind the last.
What is known in front of a round depends on the items that are left, and
the induction is on these. -/
theorem yields_rounds_items {α β σ : Type} {round : σ → Parse (Round σ β)}
    (left : List α → σ → Parser → Prop) {post : β → Parser → Prop} (items : List α) {state : σ}
    {fuel : Nat} (enough : items.length < fuel)
    (hitem : ∀ item others state q, left (item :: others) state q →
      Yields (round state) q fun next r => ∃ state', next = .again state' ∧ left others state' r)
    (hlast : ∀ state q, left [] state q →
      Yields (round state) q fun next r => ∃ result, next = .done result ∧ post result r)
    (h : left items state p) : Yields (rounds round fuel state) p post := by
  induction items generalizing p state fuel with
  | nil =>
    obtain ⟨fuel, rfl⟩ : ∃ n, fuel = n + 1 := ⟨fuel - 1, by omega⟩
    exact .rounds_done (hlast state p h)
  | cons item others ih =>
    obtain ⟨fuel, rfl⟩ : ∃ n, fuel = n + 1 := ⟨fuel - 1, by omega⟩
    exact .rounds_again (left others) (hitem item others state p h) fun state' q hq =>
      ih (by simpa using enough) hq

/-- A step that is repeated reads one item after another, up to what is no
item. -/
theorem yields_whileTrue_items {α : Type} (tokens : α → List Lexed) (trees : α → List Tree)
    (inv : Parser → Prop) {items : List α} {step : Parse Bool} {following : List Lexed}
    (few : items.length ≤ p.text.length)
    (hitem : ∀ item others q, item :: others <:+ items → inv q →
      q.Faces (tokens item ++ (others.flatMap tokens ++ following)) behind → q.context = context →
      Yields step q fun go r => go = true ∧ inv r ∧ Records q (tokens item) (trees item) context r)
    (hlast : ∀ q, inv q → q.Faces following behind → q.context = context →
      Yields step q fun go r => go = false ∧ inv r ∧ Records q [] [] context r)
    (h : p.Faces (items.flatMap tokens ++ following) behind) (hinv : inv p)
    (hcontext : p.context = context) :
    Yields (whileTrue step) p fun _ q => inv q ∧
      Records p (items.flatMap tokens) (items.flatMap trees) context q := by
  unfold whileTrue loop
  refine .get ?_
  refine yields_rounds_items (fun others _ q => ∃ done, items = done ++ others ∧ inv q ∧
    Records p (done.flatMap tokens) (done.flatMap trees) context q) items (by omega) ?_ ?_
    ⟨[], rfl, hinv, .nil h.live hcontext⟩
  · rintro item others _ q ⟨done, rfl, hinv, hq⟩
    rw [List.flatMap_append, List.flatMap_cons, List.append_assoc, List.append_assoc] at h
    refine (hitem item others q (List.suffix_append ..) hinv (h.after hq.toCovers)
      hq.context).bind ?_
    rintro _ r ⟨rfl, hinv, hr⟩
    refine .ite_true rfl (.pure ⟨(), rfl, done ++ [item], by simp, hinv, ?_⟩)
    simpa using hq.trans hr
  · rintro _ q ⟨done, rfl, hinv, hq⟩
    rw [List.append_nil] at h ⊢
    refine (hlast q hinv (h.after hq.toCovers) hq.context).bind ?_
    rintro _ r ⟨rfl, hinv, hr⟩
    refine .ite_false Bool.false_ne_true (.pure ⟨(), rfl, hinv, ?_⟩)
    simpa using hq.trans hr

end Parse

/-- Completing a node makes a tree of its children, and consumes
nothing. -/
theorem Holds.finish {kind : SyntaxKind} (h : Holds p marker tokens trees context q)
    (real : kind.isNode = true) (hfits : (Tree.node none kind trees).outline.Fits) :
    Parse.Yields (marker.complete kind) q fun node r =>
      Shapes p tokens (.node none kind trees) node context r ∧ Covers q [] context r ∧
        Marks q r := by
  obtain ⟨hcovers, first, rest, hopened, houtlines⟩ := h
  have houtline : (close first kind rest).outline = (Tree.node none kind trees).outline := by
    rw [Tree.outline, ← houtlines]
    cases first <;> rfl
  refine (Marker.yields_close hopened real (houtline ▸ hfits)).mono ?_
  intro node r hpost
  obtain ⟨hgrows, hpoints, hstill, hmarks, -⟩ := hpost
  have hsame : Covers q [] context r := .of_still hcovers.context hstill hmarks.calm
  exact ⟨⟨hcovers.stays hsame, _, hgrows, hpoints, houtline⟩, hsame, hmarks⟩

/-- A node can be completed around what it holds, if that fits its kind. -/
theorem Holds.complete {kind : SyntaxKind} (h : Holds p marker tokens trees context q)
    (real : kind.isNode = true) (hfits : (Tree.node none kind trees).outline.Fits) :
    Parse.Yields (marker.complete kind) q fun node r =>
      Shapes p tokens (.node none kind trees) node context r ∧ Marks q r :=
  (h.finish real hfits).mono fun _ _ hr => ⟨hr.1, hr.2.2⟩

namespace Shapes

/-- Nothing is added behind the node. -/
theorem stays (h : Shapes p tokens tree node context q) (h' : Records q [] [] context' r) :
    Shapes p tokens tree node context' r := by
  obtain ⟨hcovers, sprout, hgrows, hpoints, houtline⟩ := h
  obtain ⟨hcovers', sprouts, hgrows', houtlines⟩ := h'
  cases sprouts with
  | cons => cases houtlines
  | nil =>
    have hall := hgrows.trans hgrows'
    rw [List.append_nil] at hall
    exact ⟨hcovers.stays hcovers', sprout, hall, hpoints, houtline⟩

/-- Nothing is added before the node. -/
theorem after (h' : Shapes q tokens tree node context' r) (h : Records p [] [] context q) :
    Shapes p tokens tree node context' r := by
  obtain ⟨hcovers, sprouts, hgrows, houtlines⟩ := h
  obtain ⟨hcovers', sprout, hgrows', hpoints, houtline⟩ := h'
  cases sprouts with
  | cons => cases houtlines
  | nil =>
    rw [hgrows.events_nil] at hpoints
    exact ⟨hcovers.trans hcovers', sprout, hgrows.trans hgrows', hpoints, houtline⟩

/-- A finished node goes into a field. -/
theorem setField (h : Shapes p tokens tree node context q) (field : Option String) :
    Parse.Yields (node.setField field) q fun node' r =>
      node' = node ∧ Shapes p tokens (tree.withField field) node context r ∧ Marks q r := by
  obtain ⟨hcovers, sprout, hgrows, hpoints, houtline⟩ := h
  refine (Completed.yields_move hgrows hpoints field).mono ?_
  intro node' r hpost
  obtain ⟨hnode, hgrows, hpoints, hstill, hmarks⟩ := hpost
  refine ⟨hnode, ⟨hcovers.stays (.of_still hcovers.context hstill hmarks.calm), _, hgrows, hpoints,
    ?_⟩, hmarks⟩
  rw [outline_withField, houtline, Tree.outline_withField]

/-- A node is started around a finished one. -/
theorem precede (h : Shapes p tokens tree node context q) :
    Parse.Yields node.precede q fun marker r =>
      Holds p marker tokens [tree] context r ∧ Covers q [] context r ∧ Marks q r := by
  obtain ⟨hcovers, sprout, hgrows, hpoints, houtline⟩ := h
  refine (Completed.yields_enclose hgrows hpoints).mono ?_
  intro marker r hpost
  obtain ⟨hopened, hstill, hmarks⟩ := hpost
  have hsame : Covers q [] context r := .of_still hcovers.context hstill hmarks.calm
  exact ⟨⟨hcovers.stays hsame, some sprout, [], hopened,
    congrArg (fun outline => [outline]) houtline⟩, hsame, hmarks⟩

/-- A node one level further down is a node at this level. -/
theorem nested (h : Shapes { p with depth := p.depth + 1 } tokens tree node context q) :
    Shapes p tokens tree node context q.leaveNesting := by
  obtain ⟨hcovers, sprout, hgrows, hpoints, houtline⟩ := h
  exact ⟨hcovers.nested, sprout, hgrows.nested, hpoints, houtline⟩

/-- The kind of a finished node. -/
theorem kind (h : Shapes p tokens tree node context q) :
    Parse.Yields node.kind q fun kind r => q = r ∧ kind = tree.kind := by
  obtain ⟨-, sprout, hgrows, hpoints, houtline⟩ := h
  refine (Completed.yields_kind hgrows hpoints).mono ?_
  rintro kind r ⟨hq, rfl⟩
  exact ⟨hq, by rw [← kind_outline, houtline, Tree.kind_outline]⟩

end Shapes

/-- A node is completed into a field. -/
theorem Holds.completeInto {kind : SyntaxKind} (h : Holds p marker tokens trees context q)
    (real : kind.isNode = true) (hfits : (Tree.node none kind trees).outline.Fits)
    (field : Option String) :
    Parse.Yields (do (← marker.complete kind).setField field) q fun node r =>
      Shapes p tokens (.node field kind trees) node context r ∧ Marks q r := by
  refine (h.complete real hfits).bind ?_
  rintro node r ⟨hr, hmarks⟩
  refine (hr.setField field).mono ?_
  rintro _ s ⟨rfl, hs, hmarks'⟩
  exact ⟨hs, hmarks.trans hmarks'⟩

end MarkupSyntax
