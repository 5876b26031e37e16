import MarkupSyntax.Proofs.Event.Replay
import MarkupSyntax.Proofs.Parse.Trace
import MarkupSyntax.Proofs.Tree.Outline

/-!
# `MarkupSyntax.Proofs.Event.Growth`: from sprouts to a tree

The tree of a record is the one that its sprout grows into: each token
takes its trivia from what is left of it (`Supply`), in the order of the
tokens, and nodes stay nodes. The statement is `Tree.ofEvents_eq`. The
outermost node gets the token for the end of the source as its last
child.

What is true of a sprout carries over: a tree has the outline of its
sprout (`Sprout.outline_grow`), obeys the rules that the sprout obeys
(`Sprout.obeys_grow`), and its tokens are those of the sprout, supplied
with trivia one after another (`Sprout.leaves_grow`).
-/

set_option autoImplicit false

namespace MarkupSyntax

/-! ### Trivia for tokens -/

/-- The trivia that no token has yet, and the offset up to which the
source is used up. -/
structure Supply where
  trivia : List Trivia
  position : Nat

namespace Supply

variable {text : Text} {supply : Supply}

/-- The next token, which stops at `stop`, with the trivia around it, and
what is left behind it. -/
def next (text : Text) (supply : Supply) (kind : SyntaxKind) (stop : Nat) : Leaf × Supply :=
  let (leading, start, trivia) :=
    Assembly.takeTrivia (fun piece => !piece.isTrailing && piece.range.stop ≤ stop)
      supply.position supply.trivia
  let (trailing, position, trivia) := Assembly.takeTrivia (·.isTrailing) stop trivia
  ({ kind, text := text.slice start stop, leading, trailing }, ⟨trivia, position⟩)

/-- The next tokens, of these kinds and with these stops. -/
def run (text : Text) (supply : Supply) : List (SyntaxKind × Nat) → List Leaf × Supply
  | [] => ([], supply)
  | (kind, stop) :: rest =>
    ((supply.next text kind stop).1 :: (run text (supply.next text kind stop).2 rest).1,
      (run text (supply.next text kind stop).2 rest).2)

/-- Tokens one after another take their trivia one after another. -/
theorem run_append (tokens tokens' : List (SyntaxKind × Nat)) :
    supply.run text (tokens ++ tokens')
      = ((supply.run text tokens).1 ++ ((supply.run text tokens).2.run text tokens').1,
        ((supply.run text tokens).2.run text tokens').2) := by
  induction tokens generalizing supply with
  | nil => rfl
  | cons token rest ih =>
    rw [List.cons_append, run, run, ih]
    rfl

end Supply

/-! ### Growing -/

namespace Sprout

mutual
/-- The tokens of the sprout: their kinds, and where they stop. -/
def tokens : Sprout → List (SyntaxKind × Nat)
  | token kind stop _ => [(kind, stop)]
  | node _ _ children => tokensList children
  | around first _ _ rest => first.tokens ++ tokensList rest

/-- The tokens of sprouts that follow one another. -/
def tokensList : List Sprout → List (SyntaxKind × Nat)
  | [] => []
  | sprout :: rest => sprout.tokens ++ tokensList rest
end

mutual
/-- The tree that the sprout grows into, and the trivia that is left. -/
def grow (text : Text) : Sprout → Supply → Tree × Supply
  | token kind stop field, supply =>
    (.leaf field (supply.next text kind stop).1, (supply.next text kind stop).2)
  | node kind field children, supply =>
    (.node field kind (growList text children supply).1, (growList text children supply).2)
  | around first kind field rest, supply =>
    (.node field kind ((first.grow text supply).1 ::
        (growList text rest (first.grow text supply).2).1),
      (growList text rest (first.grow text supply).2).2)

/-- The trees that sprouts grow into, one after another. -/
def growList (text : Text) : List Sprout → Supply → List Tree × Supply
  | [], supply => ([], supply)
  | sprout :: rest, supply =>
    ((sprout.grow text supply).1 :: (growList text rest (sprout.grow text supply).2).1,
      (growList text rest (sprout.grow text supply).2).2)
end

/-- The children of a node, in the order of the source. -/
def children : Sprout → List Sprout
  | token .. => []
  | node _ _ children => children
  | around first _ _ rest => first :: rest

variable {text : Text} {sprout : Sprout} {supply : Supply}

/-- A node starts, then come its children, then it finishes. -/
theorem steps_of_isNode (h : sprout.isNode = true) :
    sprout.steps
      = .start sprout.kind sprout.field :: (stepsList sprout.children ++ [.finish]) := by
  cases sprout with
  | token => cases h
  | node => rfl
  | around first kind field rest =>
    rw [steps, children, stepsList, List.append_assoc]
    rfl

/-- The tokens of a node are those of its parts. -/
theorem tokens_of_isNode (h : sprout.isNode = true) :
    sprout.tokens = tokensList sprout.children := by
  cases sprout with
  | token => cases h
  | node => rfl
  | around => rfl

mutual
/-- The tokens of the tree are those of the sprout with their trivia. -/
theorem leaves_grow : ∀ (sprout : Sprout) (supply : Supply),
    (sprout.grow text supply).1.leaves = (supply.run text sprout.tokens).1 ∧
      (sprout.grow text supply).2 = (supply.run text sprout.tokens).2
  | token .., _ => ⟨rfl, rfl⟩
  | node _ _ children, supply => leaves_growList children supply
  | around first _ _ rest, supply => by
    have hfirst := leaves_grow first supply
    have hrest := leaves_growList rest (first.grow text supply).2
    rw [grow, tokens, Supply.run_append, ← hfirst.1, ← hfirst.2]
    exact ⟨congrArg (_ ++ ·) hrest.1, hrest.2⟩

/-- The same for sprouts one after another, each of which starts with the trivia
that the one before left. -/
theorem leaves_growList : ∀ (sprouts : List Sprout) (supply : Supply),
    Tree.leavesList (growList text sprouts supply).1 = (supply.run text (tokensList sprouts)).1 ∧
      (growList text sprouts supply).2 = (supply.run text (tokensList sprouts)).2
  | [], _ => ⟨rfl, rfl⟩
  | sprout :: rest, supply => by
    have hfirst := leaves_grow sprout supply
    have hrest := leaves_growList rest (sprout.grow text supply).2
    rw [growList, tokensList, Supply.run_append, ← hfirst.1, ← hfirst.2]
    exact ⟨congrArg (_ ++ ·) hrest.1, hrest.2⟩
end

mutual
/-- The record of a sprout has the tokens of the sprout. -/
theorem taken_events (parent : Option Nat) : ∀ sprout : Sprout,
    Event.taken (sprout.events parent) = sprout.tokens.map fun token => (token.1.lexeme?, token.2)
  | token .. => rfl
  | node kind field children => by
    rw [events, ← List.singleton_append, Event.taken_append, Event.taken_append,
      taken_eventsList children, tokens]
    exact List.append_nil _
  | around first kind field rest => by
    rw [events, ← List.singleton_append, Event.taken_append, Event.taken_append,
      Event.taken_append, taken_events _ first, taken_eventsList rest, tokens, List.map_append]
    exact congrArg (_ ++ ·) (List.append_nil _)

/-- The same for the record of several sprouts. -/
theorem taken_eventsList : ∀ sprouts : List Sprout,
    Event.taken (eventsList sprouts)
      = (tokensList sprouts).map fun token => (token.1.lexeme?, token.2)
  | [] => rfl
  | sprout :: rest => by
    rw [eventsList, Event.taken_append, taken_events none sprout, taken_eventsList rest,
      tokensList, List.map_append]
end

end Sprout

/-! ### The steps of an assembly -/

namespace Assembly

/-- The trivia that the assembly has left. -/
def supply (assembly : Assembly) : Supply := ⟨assembly.trivia, assembly.position⟩

/-- The assembly with finished parts added and this trivia left. -/
def grown (assembly : Assembly) (supply : Supply) (trees : List Tree) : Assembly :=
  { assembly with
    trivia := supply.trivia
    position := supply.position
    builder := trees.foldl Builder.add assembly.builder }

/-- The assembly with one more node open. -/
def opened (assembly : Assembly) (kind : SyntaxKind) (field : Option String) : Assembly :=
  { assembly with
    builder := assembly.builder.startNode kind field
    depth := assembly.depth + 1 }

variable {assembly : Assembly}

/-- Growing twice is growing once by both. -/
theorem grown_grown (supply supply' : Supply) (trees trees' : List Tree) :
    (assembly.grown supply trees).grown supply' trees' = assembly.grown supply' (trees ++ trees') := by
  simp only [grown, List.foldl_append]

/-- Finished parts become children of the innermost open node. -/
theorem foldl_add (top : OpenNode) (stack : List OpenNode) (roots trees : List Tree) :
    trees.foldl Builder.add ⟨top :: stack, roots⟩
      = ⟨{ top with children := trees.reverse ++ top.children } :: stack, roots⟩ := by
  induction trees generalizing top with
  | nil => rfl
  | cons tree rest ih =>
    rw [List.foldl_cons, List.reverse_cons, List.append_assoc]
    exact ih { top with children := tree :: top.children }

/-- A token that is not the end of the source is added as a leaf. -/
theorem step_token {kind : SyntaxKind} (notEnd : kind ≠ .token .eof) (stop : Nat)
    (field : Option String) :
    assembly.step (.token kind stop field)
      = .ok (assembly.grown (assembly.supply.next assembly.text kind stop).2
          [.leaf field (assembly.supply.next assembly.text kind stop).1]) := by
  have hneeds : (assembly.needsEnd && decide (kind ≠ .token .eof)) = assembly.needsEnd := by
    rw [decide_eq_true notEnd, Bool.and_true]
  show Except.ok _ = Except.ok _
  congr 1
  unfold token grown
  dsimp only
  rw [hneeds]
  rfl

/-- Finishing an inner node adds it with the children that it got. -/
theorem step_finish_opened (inner : 0 < assembly.depth) (kind : SyntaxKind)
    (field : Option String) (supply : Supply) (trees : List Tree) :
    ((assembly.opened kind field).grown supply trees).step .finish
      = .ok (assembly.grown supply [.node field kind trees]) := by
  have hdepth : (decide (assembly.depth = 0) && assembly.needsEnd) = false := by
    rw [decide_eq_false (Nat.pos_iff_ne_zero.mp inner), Bool.false_and]
  unfold step grown opened Builder.startNode
  dsimp only
  rw [foldl_add, hdepth]
  simp [Builder.finishNode]

/-- Finishing the outermost node adds the token for the end of the source
first. -/
theorem step_finish_outermost (text : Text) (trivia : List Trivia) (kind : SyntaxKind)
    (field : Option String) (supply : Supply) (trees : List Tree) :
    ∃ last, ((opened { text, trivia } kind field).grown supply trees).step .finish = .ok last ∧
      last.builder = ⟨[], [.node field kind
        (trees ++ [.leaf none (supply.next text (.token .eof) text.length).1])]⟩ := by
  refine ⟨{ ({ (opened { text, trivia } kind field).grown supply trees with depth := 0 }.token
    (.token .eof) text.length none) with
      builder := ⟨[], [.node field kind
        (trees ++ [.leaf none (supply.next text (.token .eof) text.length).1])]⟩ }, ?_, rfl⟩
  have hbuilder : ((opened { text, trivia } kind field).grown supply trees).builder
      = ⟨[{ field, kind, children := trees.reverse }], []⟩ := by
    refine (foldl_add _ _ _ _).trans ?_
    rw [List.append_nil]
  have hfinish : ({ (opened { text, trivia } kind field).grown supply trees with depth := 0 }.token
      (.token .eof) text.length none).builder.finishNode
      = .ok ⟨[], [.node field kind
          (trees ++ [.leaf none (supply.next text (.token .eof) text.length).1])]⟩ := by
    show Builder.finishNode (Builder.add ((opened { text, trivia } kind field).grown supply
      trees).builder (.leaf none (supply.next text (.token .eof) text.length).1)) = _
    rw [hbuilder]
    simp [Builder.finishNode, Builder.add]
  exact congrArg (· >>= _) hfinish

/-- The steps of an inner node add it, if the steps of its children add
these. -/
theorem foldlM_node (inner : 0 < assembly.depth) {kind : SyntaxKind} {field : Option String}
    {steps : List BuildStep} {supply : Supply} {trees : List Tree}
    (hinside : steps.foldlM step (assembly.opened kind field)
      = .ok ((assembly.opened kind field).grown supply trees)) :
    (.start kind field :: (steps ++ [.finish])).foldlM step assembly
      = .ok (assembly.grown supply [.node field kind trees]) := by
  have hstart : assembly.step (.start kind field) = .ok (assembly.opened kind field) := rfl
  rw [List.foldlM_cons, hstart]
  show List.foldlM step _ (steps ++ [.finish]) = _
  rw [List.foldlM_append, hinside]
  show List.foldlM step _ [BuildStep.finish] = _
  rw [List.foldlM_cons, step_finish_opened inner]
  rfl

end Assembly

namespace Sprout

open Assembly

mutual
/-- Inside a node, the steps of a sprout add the tree that it grows
into. -/
theorem foldlM_steps : ∀ (sprout : Sprout) (assembly : Assembly), 0 < assembly.depth →
    (∀ token ∈ sprout.tokens, token.1 ≠ .token .eof) →
    sprout.steps.foldlM step assembly
      = .ok (assembly.grown (sprout.grow assembly.text assembly.supply).2
          [(sprout.grow assembly.text assembly.supply).1])
  | token kind stop field, assembly, _, notEnd => by
    rw [steps, List.foldlM_cons, step_token (notEnd _ (List.mem_singleton_self _))]
    rfl
  | node kind field children, assembly, inner, notEnd =>
    foldlM_node inner (foldlM_stepsList children (assembly.opened kind field) (Nat.succ_pos _) notEnd)
  | around first kind field rest, assembly, inner, notEnd => by
    have hfirst := foldlM_steps first (assembly.opened kind field) (Nat.succ_pos _)
      fun token hmem => notEnd token (List.mem_append_left _ hmem)
    have hinside : (first.steps ++ stepsList rest).foldlM step (assembly.opened kind field)
        = .ok ((assembly.opened kind field).grown
            (growList assembly.text rest (first.grow assembly.text assembly.supply).2).2
            ((first.grow assembly.text assembly.supply).1 ::
              (growList assembly.text rest (first.grow assembly.text assembly.supply).2).1)) := by
      rw [List.foldlM_append, hfirst]
      refine (foldlM_stepsList rest _ (Nat.succ_pos _) fun token hmem =>
        notEnd token (List.mem_append_right _ hmem)).trans ?_
      rw [grown_grown]
      rfl
    have hall := foldlM_node inner hinside
    rw [List.append_assoc] at hall
    exact hall

/-- The same for sprouts that follow one another. -/
theorem foldlM_stepsList : ∀ (sprouts : List Sprout) (assembly : Assembly), 0 < assembly.depth →
    (∀ token ∈ tokensList sprouts, token.1 ≠ .token .eof) →
    (stepsList sprouts).foldlM step assembly
      = .ok (assembly.grown (growList assembly.text sprouts assembly.supply).2
          (growList assembly.text sprouts assembly.supply).1)
  | [], _, _, _ => rfl
  | sprout :: rest, assembly, inner, notEnd => by
    have hfirst := foldlM_steps sprout assembly inner fun token hmem =>
      notEnd token (List.mem_append_left _ hmem)
    have hrest := foldlM_stepsList rest
      (assembly.grown (sprout.grow assembly.text assembly.supply).2
        [(sprout.grow assembly.text assembly.supply).1]) inner
      fun token hmem => notEnd token (List.mem_append_right _ hmem)
    rw [stepsList, List.foldlM_append, hfirst]
    refine hrest.trans ?_
    rw [grown_grown]
    rfl
end

end Sprout

/-! ### Whole trees -/

namespace Tree

/-- A tree under a root node. -/
def rooted : Tree → Tree
  | node _ .root children => node none .root children
  | tree => node none .root [tree.withField none]

/-- The field is no part of a leaf below. -/
theorem leaves_withField (tree : Tree) (field : Option String) :
    (tree.withField field).leaves = tree.leaves := by
  cases tree <;> rfl

/-- The root adds no token. -/
theorem leaves_rooted (tree : Tree) : tree.rooted.leaves = tree.leaves := by
  unfold rooted
  split
  · rfl
  · show (tree.withField none).leaves ++ [] = tree.leaves
    rw [List.append_nil, leaves_withField]

/-- The leaves of trees one after another. -/
theorem leavesList_append (trees trees' : List Tree) :
    leavesList (trees ++ trees') = leavesList trees ++ leavesList trees' := by
  induction trees with
  | nil => rfl
  | cons tree rest ih => rw [List.cons_append, leavesList, leavesList, ih, List.append_assoc]

/-- A builder with one finished part and none open makes a tree of it. -/
theorem finish_single (tree : Tree) : Builder.finish ⟨[], [tree]⟩ = .ok tree.rooted := by
  cases tree with
  | leaf => rfl
  | node field kind children => cases kind <;> rfl

/-- The outermost node of a tree. Its last child is the token for the end
of the source. -/
def outermost (text : Text) (sprout : Sprout) (supply : Supply) : Tree :=
  .node sprout.field sprout.kind
    ((Sprout.growList text sprout.children supply).1 ++
      [.leaf none ((Sprout.growList text sprout.children supply).2.next text (.token .eof)
        text.length).1])

/-- The tree of the record of one node. -/
theorem ofEvents_eq {text : Text} {trivia : Array Trivia} {events : Array Event} {sprout : Sprout}
    (hevents : events.toList = Sprout.eventsList [sprout]) (hsound : sprout.Sound)
    (hnode : sprout.isNode = true) (notEnd : ∀ token ∈ sprout.tokens, token.1 ≠ .token .eof) :
    ofEvents text trivia events = .ok (outermost text sprout ⟨trivia.toList, 0⟩).rooted := by
  have hchildren := Sprout.foldlM_stepsList sprout.children
    (Assembly.opened { text, trivia := trivia.toList } sprout.kind sprout.field) (Nat.succ_pos _)
    (Sprout.tokens_of_isNode hnode ▸ notEnd)
  obtain ⟨last, hfinish, hbuilder⟩ := Assembly.step_finish_outermost text trivia.toList sprout.kind
    sprout.field (Sprout.growList text sprout.children ⟨trivia.toList, 0⟩).2
    (Sprout.growList text sprout.children ⟨trivia.toList, 0⟩).1
  have hsteps : (Sprout.stepsList [sprout]).foldlM Assembly.step
      { text, trivia := trivia.toList } = .ok last := by
    rw [Sprout.stepsList, Sprout.stepsList, List.append_nil, Sprout.steps_of_isNode hnode,
      List.foldlM_cons]
    show List.foldlM Assembly.step
      (Assembly.opened { text, trivia := trivia.toList } sprout.kind sprout.field) _ = _
    rw [List.foldlM_append, hchildren]
    show List.foldlM Assembly.step _ [BuildStep.finish] = _
    rw [List.foldlM_cons]
    exact (congrArg (· >>= pure) hfinish).trans rfl
  unfold ofEvents
  rw [Event.replay_eventsList hevents ⟨hsound, trivial⟩, hsteps]
  show last.builder.finish = _
  rw [hbuilder]
  exact finish_single _

/-- The tokens of the whole tree: those of the sprout, and the end. -/
theorem leaves_outermost {text : Text} {sprout : Sprout} (hnode : sprout.isNode = true)
    (supply : Supply) :
    (outermost text sprout supply).leaves
      = (supply.run text sprout.tokens).1 ++
        [((supply.run text sprout.tokens).2.next text (.token .eof) text.length).1] := by
  obtain ⟨hleaves, hsupply⟩ := @Sprout.leaves_growList text sprout.children supply
  rw [Sprout.tokens_of_isNode hnode, ← hleaves, ← hsupply]
  exact leavesList_append _ _

/-! ### Productions -/

/-- The role of the part. -/
def role (tree : Tree) : Role := (tree.field?, tree.kind)

mutual
/-- The children of every node spell a word of the node's
production. -/
def Obeys (rule : SyntaxKind → Language Role) : Tree → Prop
  | node _ kind children => children.map role ∈ rule kind ∧ ObeysList rule children
  | leaf .. => True

/-- All parts of the list obey the rule. -/
def ObeysList (rule : SyntaxKind → Language Role) : List Tree → Prop
  | [] => True
  | tree :: rest => tree.Obeys rule ∧ ObeysList rule rest
end

/-- A rule is obeyed tree by tree. -/
theorem obeysList_append {rule : SyntaxKind → Language Role} {trees trees' : List Tree}
    (h : ObeysList rule trees) (h' : ObeysList rule trees') : ObeysList rule (trees ++ trees') := by
  induction trees with
  | nil => exact h'
  | cons tree rest ih => exact ⟨h.1, ih h.2⟩

/-- The field of a tree is none of its own production. -/
theorem Obeys.withField {rule : SyntaxKind → Language Role} {tree : Tree} (h : tree.Obeys rule)
    (field : Option String) : (tree.withField field).Obeys rule := by
  cases tree <;> exact h

end Tree

namespace Sprout

variable {text : Text} {rule : SyntaxKind → Language Role}

/-- The tree has the field and the kind of its sprout. -/
theorem role_grow (sprout : Sprout) (supply : Supply) :
    (sprout.grow text supply).1.role = sprout.role := by
  cases sprout <;> rfl

/-- So the children of the tree spell the word that the sprouts do. -/
theorem map_role_growList (sprouts : List Sprout) (supply : Supply) :
    (growList text sprouts supply).1.map Tree.role = sprouts.map role := by
  induction sprouts generalizing supply with
  | nil => rfl
  | cons sprout rest ih =>
    rw [growList, List.map_cons, List.map_cons, role_grow, ih]

mutual
/-- A tree has the outline of its sprout. -/
theorem outline_grow : ∀ (sprout : Sprout) (supply : Supply),
    (sprout.grow text supply).1.outline = sprout.outline
  | token .., _ => rfl
  | node _ _ children, supply => congrArg _ (outlines_growList children supply)
  | around first _ _ rest, supply => by
    rw [grow, Tree.outline, Tree.outlines, outline_grow first, outlines_growList rest, outline]

/-- The same for sprouts one after another. -/
theorem outlines_growList : ∀ (sprouts : List Sprout) (supply : Supply),
    Tree.outlines (growList text sprouts supply).1 = outlines sprouts
  | [], _ => rfl
  | sprout :: rest, supply => by
    rw [growList, Tree.outlines, outline_grow sprout, outlines_growList rest, outlines]
end

mutual
/-- A tree obeys the rules that its sprout obeys. -/
theorem obeys_grow : ∀ (sprout : Sprout) (supply : Supply), sprout.Obeys rule →
    (sprout.grow text supply).1.Obeys rule
  | token .., _, _ => trivial
  | node kind field children, supply, h => by
    refine ⟨?_, obeys_growList children supply h.2⟩
    rw [map_role_growList]
    exact h.1
  | around first kind field rest, supply, h => by
    refine ⟨?_, obeys_grow first supply h.2.1, obeys_growList rest _ h.2.2⟩
    rw [List.map_cons, role_grow, map_role_growList]
    exact h.1

/-- The same for sprouts one after another. -/
theorem obeys_growList : ∀ (sprouts : List Sprout) (supply : Supply), ObeysList rule sprouts →
    Tree.ObeysList rule (growList text sprouts supply).1
  | [], _, _ => trivial
  | sprout :: rest, supply, h =>
    ⟨obeys_grow sprout supply h.1, obeys_growList rest _ h.2⟩
end

end Sprout

/-- The whole tree obeys the rules, where its outermost node and the root
may have any children. -/
theorem Tree.obeys_rooted {text : Text} {sprout : Sprout} {rule : SyntaxKind → Language Role}
    (hnode : sprout.isNode = true) (h : sprout.Obeys rule) (hkind : rule sprout.kind = ⊤)
    (hroot : rule .root = ⊤) (supply : Supply) :
    (outermost text sprout supply).rooted.Obeys rule := by
  have hchildren : Sprout.ObeysList rule sprout.children := by
    cases sprout with
    | token => cases hnode
    | node => exact h.2
    | around => exact h.2
  have houtermost : (outermost text sprout supply).Obeys rule := by
    refine ⟨?_, obeysList_append (Sprout.obeys_growList _ _ hchildren) ⟨trivial, trivial⟩⟩
    rw [hkind]
    exact Set.mem_univ _
  generalize outermost text sprout supply = tree at houtermost
  unfold rooted
  split
  · exact houtermost
  · refine ⟨?_, houtermost.withField none, trivial⟩
    rw [hroot]
    exact Set.mem_univ _

end MarkupSyntax
