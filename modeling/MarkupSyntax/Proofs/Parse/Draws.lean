import MarkupSyntax.Proofs.Parse.Records
import MarkupSyntax.Proofs.Token.Spelling

/-!
# `MarkupSyntax.Proofs.Parse.Draws`: parses of known words

Words are tokens outside tags, and each is a leaf of a tree. So where the
words that come next are known (`Parser.Before`), the trees that a rule
adds tell which words it consumed:

* `Consumes p words q`: these words were consumed, and nothing was
  reported.
* `Writes p trees q`: the words of these trees were consumed, and the
  record grew by their outlines.
* `Begins p marker trees q`: besides, a node was started, and the trees
  are its children so far.
* `Draws p tree node q`: the tree is one node, the one of a handle.

These are the relations of `MarkupSyntax.Proofs.Parse.Records` with the
leaves of the trees as tokens. Besides, they say that no decision was
remembered on the way.
-/

set_option autoImplicit false

namespace MarkupSyntax

/-- The kind of the first of these words. -/
def Leaf.firstKind (words : List Leaf) : TokenKind := (words.head?.map (·.lexed.kind)).getD .eof

/-- The parse stands in front of these words. -/
structure Parser.Before (p : Parser) (words : List Leaf) : Prop where
  faces : ∃ behind, p.Faces (words.map Leaf.lexed) behind
  context : p.context = .normal

/-- These words are consumed, and nothing is reported. -/
abbrev Consumes (p : Parser) (words : List Leaf) (q : Parser) : Prop :=
  Covers p (words.map Leaf.lexed) .normal q

/-- The record grows by these trees, and nothing is remembered. -/
structure Writes (p : Parser) (trees : List Tree) (q : Parser) : Prop extends
    Records p ((Tree.leavesList trees).map Leaf.lexed) trees .normal q where
  memo : q.memo = p.memo

/-- A node was started that has these children so far. -/
structure Begins (p : Parser) (marker : Marker) (trees : List Tree) (q : Parser) : Prop extends
    Holds p marker ((Tree.leavesList trees).map Leaf.lexed) trees .normal q where
  memo : q.memo = p.memo

/-- The record grows by one node, the one of a handle. -/
structure Draws (p : Parser) (tree : Tree) (node : Completed) (q : Parser) : Prop extends
    Shapes p (tree.leaves.map Leaf.lexed) tree node .normal q where
  memo : q.memo = p.memo

variable {p q r : Parser} {words words' rest : List Leaf} {tree : Tree} {trees trees' : List Tree}
  {node : Completed} {marker : Marker}

/-! ### Words in front of a parse -/

namespace Seam

variable {seam : Seam} {behind : Text}

/-- The first word behind a seam is the next token. -/
theorem kind_current_of_words (inside : seam.lexer.IsInside)
    (h : Lexes seam.behind (words.map Leaf.lexed) behind) (hne : words ≠ []) :
    (seam.current .normal).kind = Leaf.firstKind words := by
  cases words with
  | nil => exact absurd rfl hne
  | cons word rest =>
    rw [List.map_cons] at h
    have hkind := kind_current_of_lexes inside h
    exact hkind

/-- Behind the first word the others follow. -/
theorem lexes_pass_words {word : Leaf} (inside : seam.lexer.IsInside)
    (h : Lexes seam.behind ((word :: words).map Leaf.lexed) behind) :
    Lexes (seam.pass .normal).behind (words.map Leaf.lexed) behind := by
  rw [List.map_cons] at h
  have hpass := lexes_pass inside h
  exact hpass

/-- The words behind a seam are the tokens ahead. -/
theorem kindAhead_of_words (inside : seam.lexer.IsInside) {n : Nat}
    (h : Lexes seam.behind (words.map Leaf.lexed) behind)
    (hwords : ∀ word ∈ words.take n, word.IsWord) (hn : n < words.length) :
    seam.kindAhead .normal n = Leaf.firstKind (words.drop n) := by
  induction n generalizing seam words with
  | zero => exact kind_current_of_words inside h (List.ne_nil_of_length_pos hn)
  | succ n ih =>
    cases words with
    | nil => cases hn
    | cons word rest =>
      rw [List.take_succ_cons] at hwords
      obtain ⟨hword, hrest⟩ := List.forall_mem_cons.mp hwords
      have hkind : (seam.current .normal).kind ≠ .eof := by
        rw [kind_current_of_words inside h (List.cons_ne_nil _ _)]
        exact hword.kind_ne_eof
      have hlater := lexes_pass_words inside h
      have inside' := isInside_pass inside .normal
      rw [List.drop_succ_cons]
      cases n with
      | zero =>
        rw [kindAhead_one inside hkind]
        exact kind_current_of_words inside' hlater
          (List.ne_nil_of_length_pos (Nat.lt_of_succ_lt_succ hn))
      | succ n =>
        rw [kindAhead_succ inside hkind (Nat.succ_pos n)]
        exact ih inside' hlater hrest (Nat.lt_of_succ_lt_succ hn)

end Seam

namespace Parser.Before

/-- A parse in front of words is in front of a seam. -/
theorem live (h : p.Before words) : p.Live := h.faces.choose_spec.live

/-- The first word is the current token. -/
theorem kind_of_ne_nil (h : p.Before words) (hne : words ≠ []) : p.kind = Leaf.firstKind words := by
  obtain ⟨⟨behind, seam, hp, hlexes⟩, hcontext⟩ := h
  rw [hp.kind, hcontext]
  exact Seam.kind_current_of_words hp.inside hlexes hne

/-- The current token is of the kind of the first word. -/
theorem kind {word : Leaf} (h : p.Before (word :: words)) :
    p.kind = Leaf.firstKind (word :: words) := h.kind_of_ne_nil (List.cons_ne_nil _ _)

/-- Behind the words that were consumed stand the others. -/
theorem after (h : p.Before (words ++ rest)) (h' : Consumes p words q) : q.Before rest := by
  obtain ⟨behind, hfaces⟩ := h.faces
  rw [List.map_append] at hfaces
  exact ⟨⟨behind, hfaces.after h'⟩, h'.context⟩

/-- Behind the first word come the others. -/
theorem tail {word : Leaf} (h : p.Before (word :: words)) (h' : Consumes p [word] q) :
    q.Before words := h.after h'

/-- Consuming no word changes nothing. -/
theorem same (h : p.Before words) (h' : Consumes p [] q) : q.Before words := h.after h'

/-- One level further down the same words follow. -/
theorem deeper (h : p.Before words) : ({ p with depth := p.depth + 1 } : Parser).Before words :=
  ⟨h.faces.imp fun _ hfaces => hfaces.deeper, h.context⟩

/-- There are no more words than characters. -/
theorem length_le (h : p.Before (words ++ rest)) (hwords : ∀ word ∈ words, word.IsWord) :
    words.length ≤ p.text.length := by
  obtain ⟨behind, hfaces⟩ := h.faces
  rw [List.map_append] at hfaces
  have hle := hfaces.length_le fun token hmem => by
    obtain ⟨word, hword, rfl⟩ := List.mem_map.mp hmem
    exact (hwords word hword).kind_ne_eof
  rwa [List.length_map] at hle

end Parser.Before

/-! ### Steps that follow one another -/

/-- Writing no tree writes no word. -/
theorem Writes.nil (h : p.Before words) : Writes p [] p := ⟨.nil h.live h.context, rfl⟩

/-- Trees are written one after another. -/
theorem Writes.trans (h : Writes p trees q) (h' : Writes q trees' r) :
    Writes p (trees ++ trees') r where
  toRecords := by
    have hall := h.toRecords.trans h'.toRecords
    rwa [← List.map_append, ← Tree.leavesList_append] at hall
  memo := h'.memo.trans h.memo

/-- What is written behind the start of a node is in the node. -/
theorem Begins.writes (h : Begins p marker trees q) (h' : Writes q trees' r) :
    Begins p marker (trees ++ trees') r where
  toHolds := by
    have hall := h.toHolds.records h'.toRecords
    rwa [← List.map_append, ← Tree.leavesList_append] at hall
  memo := h'.memo.trans h.memo

/-- One node is one tree. -/
theorem Draws.writes (h : Draws p tree node q) : Writes p [tree] q where
  toRecords := by
    have hleaves : Tree.leavesList [tree] = tree.leaves := List.append_nil _
    rw [hleaves]
    exact h.toShapes.records
  memo := h.memo

/-! ### Steps of a parse -/

namespace Parse

variable {kind : TokenKind} {field : Option String}

/-- A word is consumed. -/
theorem yields_bump_word {text : Text} (h : p.Before (⟨.token kind, text, [], []⟩ :: rest))
    (notEnd : kind ≠ .eof) (field : Option String) :
    Yields (bump .normal field) p fun _ q =>
      Writes p [.leaf field ⟨.token kind, text, [], []⟩] q := by
  obtain ⟨behind, hfaces⟩ := h.faces
  refine (yields_bump_token hfaces h.context notEnd .normal field).mono ?_
  rintro _ _ ⟨rfl, hq⟩
  exact ⟨hq, p.memo_bump ..⟩

/-- A node is started. -/
theorem yields_start_word (hp : p.Live) (hcontext : p.context = .normal) :
    Yields start p fun marker q => Begins p marker [] q :=
  (yields_start_node hp hcontext).mono fun _ _ h => ⟨h.1, h.2.memo⟩

/-- A word of a kind is consumed where one of that kind may stand. -/
theorem yields_eat_word {text : Text} (h : p.Before (⟨.token kind, text, [], []⟩ :: rest))
    (notEnd : kind ≠ .eof) (field : Option String) :
    Yields (eat kind .normal field) p fun found q =>
      found = true ∧ Writes p [.leaf field ⟨.token kind, text, [], []⟩] q := by
  obtain ⟨behind, hfaces⟩ := h.faces
  refine (yields_eat_token hfaces h.context notEnd .normal field).mono ?_
  rintro _ _ ⟨rfl, rfl, hq⟩
  exact ⟨rfl, hq, p.memo_bump ..⟩

/-- A word of a kind is consumed where one of that kind is expected. -/
theorem yields_expect_word {text : Text} (h : p.Before (⟨.token kind, text, [], []⟩ :: rest))
    (notEnd : kind ≠ .eof) (field : Option String) :
    Yields (expect kind .normal field) p fun _ q =>
      Writes p [.leaf field ⟨.token kind, text, [], []⟩] q := by
  obtain ⟨behind, hfaces⟩ := h.faces
  refine (yields_expect_token hfaces h.context notEnd .normal field).mono ?_
  rintro _ _ ⟨-, rfl, hq⟩
  exact ⟨hq, p.memo_bump ..⟩

/-- The words ahead are the tokens ahead. -/
theorem yields_nthIs_words (h : p.Before words) {n : Nat}
    (hwords : ∀ word ∈ words.take n, word.IsWord) (hn : n < words.length) (kind : TokenKind) :
    Yields (nthIs n kind) p fun answer q =>
      answer = decide (Leaf.firstKind (words.drop n) = kind) ∧ Writes p [] q := by
  have hlive := h.live
  obtain ⟨⟨behind, seam, hp, hlexes⟩, hcontext⟩ := h
  obtain ⟨hanswer, -, hcurrent⟩ := hp.stands.nthKind hp.inside n
  have hkind := Seam.kindAhead_of_words hp.inside hlexes hwords hn
  have hquiet : Quiet p { p with source := (p.source.nthKind n).2 } :=
    ⟨⟨.lookKind (.refl p) n, hcurrent⟩, rfl, rfl, rfl, rfl, rfl, .of_memo rfl rfl rfl⟩
  refine ⟨?_, .of_quiet hlive hcontext hquiet ⟨rfl, rfl, rfl, rfl, rfl⟩, rfl⟩
  show decide ((p.source.nthKind n).1 = kind) = _
  rw [hanswer]
  show decide (seam.kindAhead p.context n = kind) = _
  rw [hcontext, hkind]

end Parse

/-- Completing a node makes a tree of its children. -/
theorem Begins.complete {kind : SyntaxKind} (h : Begins p marker trees q)
    (real : kind.isNode = true) (hfits : (Tree.node none kind trees).outline.Fits) :
    Parse.Yields (marker.complete kind) q fun node r => Draws p (.node none kind trees) node r :=
  (h.toHolds.complete real hfits).mono fun _ _ hr => ⟨hr.1, hr.2.memo.trans h.memo⟩

namespace Draws

/-- Nothing is added before the node. -/
theorem after (h' : Draws q tree node r) (h : Writes p [] q) : Draws p tree node r :=
  ⟨h'.toShapes.after h.toRecords, h'.memo.trans h.memo⟩

/-- A finished node goes into a field. -/
theorem setField (h : Draws p tree node q) (field : Option String) :
    Parse.Yields (node.setField field) q fun node' r =>
      node' = node ∧ Draws p (tree.withField field) node r := by
  refine (h.toShapes.setField field).mono ?_
  intro node' r hpost
  obtain ⟨hnode, hr, hmarks⟩ := hpost
  rw [← Tree.leaves_withField tree field] at hr
  exact ⟨hnode, hr, hmarks.memo.trans h.memo⟩

/-- A tree goes into a field that is given. -/
theorem into (h : Draws p tree node q) (field : String) :
    Parse.Yields (node.into field) q fun _ r => Draws p (tree.withField (some field)) node r := by
  unfold Completed.into
  refine (h.setField (some field)).bind ?_
  intro _ r hpost
  obtain ⟨-, hr⟩ := hpost
  exact .pure hr

/-- A node is started around a finished one. -/
theorem precede (h : Draws p tree node q) :
    Parse.Yields node.precede q fun marker r => Begins p marker [tree] r ∧ Consumes q [] r := by
  refine h.toShapes.precede.mono ?_
  intro marker r hpost
  obtain ⟨hr, hsame, hmarks⟩ := hpost
  have hleaves : Tree.leavesList [tree] = tree.leaves := List.append_nil _
  rw [← hleaves] at hr
  exact ⟨⟨hr, hmarks.memo.trans h.memo⟩, hsame⟩

/-- A node one level further down is a node at this level. -/
theorem nested (h : Draws { p with depth := p.depth + 1 } tree node q) :
    Draws p tree node q.leaveNesting := ⟨h.toShapes.nested, h.memo⟩

/-- The kind of a finished node. -/
theorem kind (h : Draws p tree node q) :
    Parse.Yields node.kind q fun kind r => q = r ∧ kind = tree.kind := h.toShapes.kind

end Draws

end MarkupSyntax
