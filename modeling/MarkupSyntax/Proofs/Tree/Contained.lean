import MarkupSyntax.Proofs.Event.Growth
import MarkupSyntax.Proofs.Tree.Spans

/-!
# `MarkupSyntax.Proofs.Tree.Contained`: the part of a tree for a part of its record

`Sprout.Contains part events tokens sprouts` says where a part of a record
is: how many events and how many tokens the record has before it. A tree
keeps the shape of its record, so it has a part for each part of the record,
with as many tokens, behind as many tokens
(`Located.exists_part_of_contains`).
-/

set_option autoImplicit false

namespace MarkupSyntax

namespace Sprout

/-- Among the sprouts that follow one another, or below them, is this
part. That many events and that many tokens come before it. -/
inductive Contains (part : Sprout) : (events tokens : Nat) → List Sprout → Prop
  | here {before behind : List Sprout} :
    Contains part (sizeList before) (tokensList before).length (before ++ part :: behind)
  | inside {before behind children : List Sprout} {kind : SyntaxKind} {field : Option String}
    {events tokens : Nat} (h : Contains part events tokens children) :
    Contains part (sizeList before + (events + 1)) ((tokensList before).length + tokens)
      (before ++ node kind field children :: behind)
  | first {before behind rest : List Sprout} {first : Sprout} {kind : SyntaxKind}
    {field : Option String} {events tokens : Nat} (h : Contains part events tokens [first]) :
    Contains part (sizeList before + events) ((tokensList before).length + tokens)
      (before ++ around first kind field rest :: behind)
  /-- The own start of the outer node stands between its first child and
  the others. -/
  | rest {before behind rest : List Sprout} {first : Sprout} {kind : SyntaxKind}
    {field : Option String} {events tokens : Nat} (h : Contains part events tokens rest) :
    Contains part (sizeList before + (first.size + (events + 1)))
      ((tokensList before).length + (first.tokens.length + tokens))
      (before ++ around first kind field rest :: behind)

variable {text : Text}

/-- Sprouts one after another grow one after another. -/
theorem growList_append (sprouts sprouts' : List Sprout) (supply : Supply) :
    (growList text (sprouts ++ sprouts') supply).1
      = (growList text sprouts supply).1 ++
        (growList text sprouts' (growList text sprouts supply).2).1 := by
  induction sprouts generalizing supply with
  | nil => rfl
  | cons sprout rest ih => exact congrArg (_ :: ·) (ih _)

/-- Each token takes its trivia and becomes one leaf. -/
theorem length_run (supply : Supply) (tokens : List (SyntaxKind × Nat)) :
    (supply.run text tokens).1.length = tokens.length := by
  induction tokens generalizing supply with
  | nil => rfl
  | cons token rest ih => exact congrArg Nat.succ (ih _)

/-- The tree has the kind of its sprout. -/
theorem kind_grow (sprout : Sprout) (supply : Supply) :
    (sprout.grow text supply).1.kind = sprout.kind :=
  congrArg Prod.snd (role_grow sprout supply)

end Sprout

namespace Located

open Sprout

variable {text source : Text} {part : Located} {parts : List Located} {supply : Supply}

/-- The children of a node have its trees as theirs, and its source. -/
theorem map_tree_children (part : Located) : part.children.map tree = part.tree.children := by
  have hchildren : ∀ (trees : List Tree) (index start : Nat),
      (part.childrenFrom index start trees).map tree = trees := by
    intro trees
    induction trees with
    | nil => exact fun _ _ => rfl
    | cons tree rest ih => exact fun _ _ => congrArg (tree :: ·) (ih _ _)
  exact hchildren _ _ _

/-- A child is a part of the same source. -/
theorem source_of_mem_children {child : Located} (h : child ∈ part.children) :
    child.source = part.source := by
  have hparent := parent?_of_mem_children h
  unfold parent? at hparent
  split at hparent
  · cases hparent
  · rw [← Option.some.inj hparent]

/-- A part is one of its own parts. -/
theorem mem_parts_self (part : Located) : part ∈ part.parts := by
  rw [parts_eq]
  exact List.mem_cons_self

/-- What is in a child is in the part. -/
theorem mem_parts_of_children {inner : Located} (h : inner ∈ part.children.flatMap Located.parts) :
    inner ∈ part.parts := by
  rw [parts_eq]
  exact List.mem_cons_of_mem _ h

/-- Parts have as many tokens as the sprouts that their trees grew from. -/
theorem length_tokens_growList {sprouts : List Sprout}
    (h : parts.map tree = (growList text sprouts supply).1) :
    (parts.flatMap tokens).length = (tokensList sprouts).length := by
  have hbare : parts.map bare = (parts.map tree).map Tree.bare := (List.map_map ..).symm
  rw [length_flatMap_tokens, hbare, h, ← Tree.bareList_eq_map, Tree.leavesList_bareList,
    List.length_map, (leaves_growList sprouts supply).1, length_run]

/-- A part that grew from a sprout has its tokens. -/
theorem length_tokens_grow {sprout : Sprout} (h : part.tree = (sprout.grow text supply).1) :
    part.tokens.length = sprout.tokens.length := by
  have hlength := @length_tokens_growList text [part] supply [sprout] (congrArg ([·]) h)
  simpa [tokensList] using hlength

/-- A part that grew from a node is a node. -/
theorem isNode_of_grow {sprout : Sprout} (h : part.tree = (sprout.grow text supply).1)
    (hnode : sprout.isNode = true) : part.isNode = true := by
  unfold isNode leaf?
  rw [h]
  cases sprout with
  | token => cases hnode
  | node => rfl
  | around => rfl

/-- Among the parts or below them is one that grew from the sprout, and that
many tokens come before it. -/
def Has (text source : Text) (sprout : Sprout) (count : Nat) (parts : List Located) : Prop :=
  ∃ found ∈ parts.flatMap Located.parts, found.source = source ∧
    (∃ supply, found.tree = (sprout.grow text supply).1) ∧
    ∃ front back, parts.flatMap tokens = front ++ (found.tokens ++ back) ∧ front.length = count

namespace Has

variable {sprout : Sprout} {count : Nat}

/-- Parts before it and behind it. -/
theorem among (h : Has text source sprout count parts) (before behind : List Located) :
    Has text source sprout ((before.flatMap tokens).length + count) (before ++ (parts ++ behind)) := by
  obtain ⟨found, hmem, hsource, htree, front, back, htokens, hcount⟩ := h
  refine ⟨found, ?_, hsource, htree, before.flatMap tokens ++ front,
    back ++ behind.flatMap tokens, ?_, ?_⟩
  · simp only [List.flatMap_append, List.mem_append]
    exact .inr (.inl hmem)
  · simp only [List.flatMap_append, htokens, List.append_assoc]
  · rw [List.length_append, hcount]

/-- A part below a child is a part below the node. -/
theorem above (h : Has text source sprout count part.children) (hnode : part.isNode = true) :
    Has text source sprout count [part] := by
  obtain ⟨found, hmem, hsource, htree, front, back, htokens, hcount⟩ := h
  refine ⟨found, ?_, hsource, htree, front, back, ?_, hcount⟩
  · rw [List.flatMap_singleton]
    exact mem_parts_of_children hmem
  · rw [List.flatMap_singleton, tokens_of_isNode hnode, htokens]

end Has

/-- A part for one of the sprouts, and the parts for those before it. -/
theorem exists_split {before behind : List Sprout} {sprout : Sprout} {others : List Tree}
    (h : parts.map tree = (growList text (before ++ sprout :: behind) supply).1 ++ others) :
    ∃ front part back supply', parts = front ++ ([part] ++ back) ∧
      (front.flatMap tokens).length = (tokensList before).length ∧
      part.tree = (sprout.grow text supply').1 := by
  rw [growList_append, List.append_assoc] at h
  obtain ⟨front, rest, rfl, hfront, hrest⟩ := List.map_eq_append_iff.mp h
  obtain ⟨part, back, rfl, hpart, -⟩ := List.map_eq_cons_iff.mp hrest
  exact ⟨front, part, back, _, rfl, length_tokens_growList hfront, hpart⟩

/-- A tree has a part for each part of its record. The induction is on the
place in the record: each level of the record is a level of the tree. -/
theorem has_of_contains {sprout : Sprout} {events count : Nat} {sprouts : List Sprout}
    (h : sprout.Contains events count sprouts) {others : List Tree}
    (hparts : parts.map tree = (growList text sprouts supply).1 ++ others)
    (hsource : ∀ part ∈ parts, part.source = source) : Has text source sprout count parts := by
  -- By induction on where the sprout stands. In each case the part that grew from the sprout
  -- around it is found first, and then what stands in it.
  induction h generalizing parts others supply with
  | here =>
    obtain ⟨front, part, back, supply', rfl, hfront, htree⟩ := exists_split hparts
    have hself : Has text source sprout 0 [part] := by
      refine ⟨part, ?_, hsource part (by simp), ⟨_, htree⟩, [], [], ?_, rfl⟩
      · rw [List.flatMap_singleton]
        exact mem_parts_self part
      · rw [List.flatMap_singleton, List.append_nil, List.nil_append]
    exact hfront ▸ hself.among front back
  | inside _ ih =>
    obtain ⟨front, part, back, supply', rfl, hfront, htree⟩ := exists_split hparts
    have hchildren : part.children.map tree = _ ++ [] :=
      (map_tree_children part).trans ((congrArg Tree.children htree).trans
        (List.append_nil _).symm)
    have hinner := ih hchildren fun child hmem =>
      (source_of_mem_children hmem).trans (hsource part (by simp))
    exact hfront ▸ (hinner.above (isNode_of_grow htree rfl)).among front back
  | first _ ih =>
    obtain ⟨front, part, back, supply', rfl, hfront, htree⟩ := exists_split hparts
    have hchildren : part.children.map tree = (growList text [_] supply').1 ++ _ :=
      (map_tree_children part).trans (congrArg Tree.children htree)
    have hinner := ih hchildren fun child hmem =>
      (source_of_mem_children hmem).trans (hsource part (by simp))
    exact hfront ▸ (hinner.above (isNode_of_grow htree rfl)).among front back
  | rest _ ih =>
    obtain ⟨front, part, back, supply', rfl, hfront, htree⟩ := exists_split hparts
    have hchildren := (map_tree_children part).trans (congrArg Tree.children htree)
    obtain ⟨child, others, hsplit, hchild, hothers⟩ := List.map_eq_cons_iff.mp hchildren
    rw [← List.append_nil (growList text _ _).1] at hothers
    have hlater := ih hothers fun other hmem =>
      (source_of_mem_children (hsplit ▸ List.mem_cons_of_mem child hmem)).trans
        (hsource part (by simp))
    have hinner := hlater.among [child] []
    rw [List.flatMap_singleton, length_tokens_grow hchild, List.append_nil, List.singleton_append,
      ← hsplit] at hinner
    exact hfront ▸ (hinner.above (isNode_of_grow htree rfl)).among front back

/-- The tree of a module has a part for each part of its record below the
module. The token for the end of the source comes behind them all. -/
theorem has_of_contains_module {module sprout : Sprout} {place count : Nat}
    (hkind : module.kind = .moduleDefinition) (h : sprout.Contains place count module.children) :
    Has text source sprout count
      [ofTree (Tree.outermost text module supply).rooted source] := by
  have hmodule : ∀ outer : Located, outer.source = source →
      outer.tree = .node none .moduleDefinition (Tree.outermost text module supply).children →
      Has text source sprout count [outer] := by
    intro outer hsource htree
    have hnode : outer.isNode = true := by
      unfold isNode leaf?
      rw [htree]
      rfl
    have hchildren : outer.children.map tree = (growList text module.children supply).1 ++ _ :=
      (map_tree_children outer).trans (congrArg Tree.children htree)
    exact (has_of_contains h hchildren fun child hmem =>
      (source_of_mem_children hmem).trans hsource).above hnode
  have hrooted : (Tree.outermost text module supply).rooted
      = .node none .root [.node none .moduleDefinition
          (Tree.outermost text module supply).children] := by
    unfold Tree.outermost
    rw [hkind]
    rfl
  rw [hrooted]
  have hroot : Has text source sprout count
      (ofTree (.node none .root [.node none .moduleDefinition
        (Tree.outermost text module supply).children]) source).children :=
    hmodule _ rfl rfl
  exact hroot.above rfl

end Located

end MarkupSyntax
