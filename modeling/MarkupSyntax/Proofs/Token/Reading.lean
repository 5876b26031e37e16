import MarkupSyntax.Proofs.Token.Stream

/-!
# `MarkupSyntax.Proofs.Token.Reading`: what a run of a lexer has read

`Lexer.Reads` relates a lexer, a list of tokens with the contexts they
were read in, and the lexer after the last of them. Whatever the
contexts were, the tokens follow each other without gaps
(`Token.Chain`), each is cut from the source at its place in its
context (`Token.CutIn`), and the diagnostics that came are those that
the tokens themselves show (`Token.defect?`), in order.

The last point holds for any run, so it does not matter how often and
in which contexts the same characters were read before: the
diagnostics of a lexer are a function of the run that led to it.
-/

set_option autoImplicit false

namespace MarkupSyntax

/-- The diagnostic of a defect of a token with this range and text. -/
def Diagnostic.ofDefect (code : Code) (range : TextRange) (text file : Text) : Diagnostic :=
  if code = .invalidCharacter then
    (Diagnostic.ofCode code range file).withMessage ("Invalid character " ++ text.quoted)
  else Diagnostic.ofCode code range file

namespace Token

/-- The diagnostic that a token itself asks for, if there is something
wrong with it. -/
def defect? (source file : Text) (token : Token) : Option Diagnostic :=
  (Lexeme.defect? token.kind (source.sliceRange token.range)
    (token.range.stop = source.length)).map fun code =>
      .ofDefect code token.range (source.sliceRange token.range) file

/-- The token is the lexeme that the source has at its place, read in
`context`. -/
def CutIn (source : Text) (context : LexContext) (token : Token) : Prop :=
  ∃ c rest, source.drop token.range.start = c :: rest ∧
    token.kind = (Lexeme.next context c rest).kind ∧
    token.range.stop = token.range.start + (Lexeme.next context c rest).length

/-- The tokens follow each other without gaps from one offset to
another. -/
def Chain : (start : Nat) → List Token → (stop : Nat) → Prop
  | start, [], stop => start = stop
  | start, token :: rest, stop => token.range.start = start ∧ Chain token.range.stop rest stop

/-- A token that is cut from a source is not empty and stops inside the
source. -/
theorem CutIn.bounds {source : Text} {context : LexContext} {token : Token}
    (h : CutIn source context token) :
    token.range.start < token.range.stop ∧ token.range.stop ≤ source.length := by
  obtain ⟨c, rest, hdrop, -, hstop⟩ := h
  have hpos := (Lexeme.next context c rest).length_pos
  have hfits := (Lexeme.cuts_next context c rest).fits
  have hlen := congrArg List.length hdrop
  rw [List.length_drop] at hlen
  rw [List.length_cons] at hlen hfits
  omega

end Token

namespace Lexer

variable {L L' L'' : Lexer} {context : LexContext}

/-- What a step reads is the end of the source or is cut from it. -/
theorem cutIn_next (h : (L.next context).current.kind ≠ .eof) :
    (L.next context).current.CutIn L.source context := by
  rw [Ne, kind_next_eq_eof_iff, Nat.not_le] at h
  obtain ⟨c, rest, hdrop⟩ := exists_drop_eq_cons h
  refine ⟨c, rest, ?_, (next_of_drop_eq hdrop).1, ?_⟩
  · rw [start_next, hdrop]
  · rw [start_next, (next_of_drop_eq hdrop).2.1]
    rfl

/-- The text of what a step reads is what the rule for its context takes. -/
theorem exists_lexeme_next (h : (L.next context).current.kind ≠ .eof) :
    ∃ c rest, (L.next context).current.kind = (Lexeme.next context c rest).kind ∧
      L.source.sliceRange (L.next context).current.range
        = (c :: rest).take (Lexeme.next context c rest).length := by
  obtain ⟨c, rest, hdrop, hkind, hstop⟩ := cutIn_next h
  refine ⟨c, rest, hkind, ?_⟩
  show (L.source.drop _).take (_ - _) = _
  rw [hdrop, hstop, Nat.add_sub_cancel_left]

/-- The end of the source is an empty token there. -/
theorem range_next_of_eof (inside : L.IsInside) (heof : (L.next context).current.kind = .eof) :
    (L.next context).current.range = .empty L.source.length := by
  have hend := kind_next_eq_eof_iff.mp heof
  rw [next_of_length_le hend, Nat.le_antisymm hend inside]

/-- A step adds the diagnostic that its token asks for, and no other. -/
theorem diagnostics_next :
    (L.next context).diagnostics.toList
      = L.diagnostics.toList ++ ((L.next context).current.defect? L.source L.file).toList := by
  rcases Nat.lt_or_ge L.position L.source.length with h | h
  · obtain ⟨c, rest, hdrop⟩ := exists_drop_eq_cons h
    have hnext := @next_of_drop_eq L context c rest hdrop
    obtain ⟨hkind, hrange, hdiagnostics⟩ := hnext
    have hslice : L.source.sliceRange (.ofLength L.position (Lexeme.next context c rest).length)
        = (c :: rest).take (Lexeme.next context c rest).length := by
      show (L.source.drop L.position).take (L.position + _ - L.position) = _
      rw [hdrop, Nat.add_sub_cancel_left]
    -- The lexeme reaches the end of its text exactly if its range reaches the end of the source.
    have hlen := congrArg List.length hdrop
    rw [List.length_drop] at hlen
    have hend : decide ((Lexeme.next context c rest).length = (c :: rest).length)
        = decide (L.position + (Lexeme.next context c rest).length = L.source.length) := by
      rw [decide_eq_decide]
      omega
    have hproblem := (Lexeme.cuts_next context c rest).problem
    rw [hend] at hproblem
    rw [hdiagnostics, Array.toList_append, Token.defect?, hkind, hrange, hslice]
    show _ ++ (problem? _ _ _ _).toArray.toList = _
    rw [Option.toList_toArray, problem?, hproblem]
    rfl
  · rw [next_of_length_le h]
    simp [Token.defect?, Lexeme.defect?]

/-- The run of a lexer through these tokens, each read in its
context. -/
inductive Reads : Lexer → List (LexContext × Token) → Lexer → Prop
  | refl (L : Lexer) : Reads L [] L
  | step {L L' : Lexer} {items : List (LexContext × Token)} (context : LexContext)
      (rest : Reads (L.next context) items L') :
      Reads L ((context, (L.next context).current) :: items) L'

namespace Reads

variable {items items' : List (LexContext × Token)}

/-- One run after another is a run. -/
theorem append (h : Reads L items L') (h' : Reads L' items' L'') :
    Reads L (items ++ items') L'' := by
  induction h with
  | refl L => exact h'
  | step context _ ih => exact .step context (ih h')

/-- Reading on only adds diagnostics. The name has an underscore since `extends`
is a keyword. -/
theorem extends_ (h : Reads L items L') : L.Extends L' := by
  induction h with
  | refl L => exact .refl L
  | step context _ ih => exact extends_next.trans ih

/-- Reading on does not leave the source. -/
theorem isInside (h : Reads L items L') (inside : L.IsInside) : L'.IsInside := by
  induction h with
  | refl L => exact inside
  | step context _ ih => exact ih (inside.next context)

/-- Reading on does not go back in the source. -/
theorem position_le (h : Reads L items L') : L.position ≤ L'.position := by
  induction h with
  | refl L => exact Nat.le_refl _
  | step context _ ih => exact Nat.le_trans position_le_next ih

/-- The tokens of a run follow each other from its start to its end. -/
theorem chain (h : Reads L items L') :
    Token.Chain L.position (items.map (·.2)) L'.position := by
  induction h with
  | refl L => rfl
  | step context _ ih => exact ⟨start_next, ih⟩

/-- Each token of a run is cut from the source in its context, unless
it is the end. -/
theorem cutIn (h : Reads L items L') :
    ∀ item ∈ items, item.2.kind ≠ .eof → item.2.CutIn L.source item.1 := by
  induction h with
  | refl L =>
    intro item hitem
    cases hitem
  | step context _ ih =>
    intro item hitem hkind
    rcases List.mem_cons.mp hitem with rfl | hitem
    · exact cutIn_next hkind
    · have hcut := ih item hitem hkind
      rwa [next_source] at hcut

/-- The diagnostics of a run are those that its tokens ask for. -/
theorem diagnostics (h : Reads L items L') :
    L'.diagnostics.toList = L.diagnostics.toList ++
      items.flatMap fun item => (item.2.defect? L.source L.file).toList := by
  induction h with
  | refl L => simp
  | step context _ ih =>
    rw [ih, diagnostics_next, next_source, next_file, List.flatMap_cons, List.append_assoc]

end Reads

/-! ### Up to the end of the source -/

/-- Enough steps to reach the next token that is no trivia, or the end:
each token takes a character. -/
def Suffices (fuel : Nat) (L : Lexer) : Prop :=
  L.IsInside ∧ L.source.length - L.position < fuel

/-- A step that reads a token goes on, so it takes one of the steps. -/
theorem Suffices.next_of_ne {fuel : Nat} (h : L.Suffices (fuel + 1))
    (hkind : (L.next context).current.kind ≠ .eof) : (L.next context).Suffices fuel := by
  have hlt := position_lt_next hkind
  have hinside := h.1.next context
  refine ⟨hinside, ?_⟩
  have hfuel := h.2
  unfold IsInside at hinside
  rw [next_source] at hinside ⊢
  omega

/-- A source has as many characters as it takes to read it. -/
theorem suffices_ofSource (source file : Text) :
    (ofSource source file).Suffices (source.length + 1) :=
  ⟨Nat.zero_le _, Nat.lt_succ_of_le (Nat.sub_le _ _)⟩

/-- Reading all tokens in one context is a run of the lexer. -/
theorem reads_take (context : LexContext) (fuel : Nat) (L : Lexer) :
    Reads L ((L.take context fuel).1.map (context, ·)) (L.take context fuel).2 := by
  induction fuel generalizing L with
  | zero => exact .refl L
  | succ fuel ih =>
    rw [take]
    split
    · exact .step context (.refl _)
    · exact .step context (ih _)

/-- It comes to the end of the source. -/
theorem position_take {fuel : Nat} (h : L.Suffices fuel) :
    (L.take context fuel).2.position = L.source.length := by
  induction fuel generalizing L with
  | zero => exact absurd h.2 (Nat.not_lt_zero _)
  | succ fuel ih =>
    rw [take]
    split
    · rename_i heof
      have hend := kind_next_eq_eof_iff.mp heof
      rw [next_of_length_le hend]
      exact Nat.le_antisymm h.1 hend
    · rename_i hne
      have hlater := ih (h.next_of_ne hne)
      rwa [next_source] at hlater

/-- Where it stops is the only end of the source. -/
theorem range_of_mem_take {fuel : Nat} (inside : L.IsInside) {token : Token}
    (hmem : token ∈ (L.take context fuel).1) (heof : token.kind = .eof) :
    token.range = .empty L.source.length := by
  induction fuel generalizing L with
  | zero => cases hmem
  | succ fuel ih =>
    rw [take] at hmem
    split at hmem
    · rw [List.mem_singleton.mp hmem] at heof ⊢
      exact range_next_of_eof inside heof
    · rcases List.mem_cons.mp hmem with rfl | hmem
      · exact range_next_of_eof inside heof
      · have hlater := ih (inside.next context) hmem
        rwa [next_source] at hlater

/-! ### Up to the next token that is no trivia -/

/-- The trivia in front of the next token, read in `context`, in at
most `fuel` steps. -/
def passed (context : LexContext) : (fuel : Nat) → Lexer → List Token
  | 0, _ => []
  | fuel + 1, L =>
    if (L.next context).current.kind.isTrivia then
      (L.next context).current :: passed context fuel (L.next context)
    else []

/-- The lexer at the next token that is no trivia. -/
def landed (context : LexContext) : (fuel : Nat) → Lexer → Lexer
  | 0, L => L
  | fuel + 1, L =>
    if (L.next context).current.kind.isTrivia then landed context fuel (L.next context)
    else L.next context

/-- The end of the source is no trivia, so a step to trivia goes on. -/
theorem Suffices.next {fuel : Nat} (h : L.Suffices (fuel + 1))
    (htrivia : (L.next context).current.kind.isTrivia = true) :
    (L.next context).Suffices fuel := by
  apply h.next_of_ne
  intro heof
  rw [heof] at htrivia
  cases htrivia

/-- With enough steps the next token is reached, and it is no trivia. -/
theorem reads_landed {fuel : Nat} (h : L.Suffices fuel) :
    Reads L ((L.passed context fuel).map ((context, ·)) ++
      [(context, (L.landed context fuel).current)]) (L.landed context fuel) ∧
    (L.landed context fuel).current.kind.isTrivia = false := by
  induction fuel generalizing L with
  | zero => exact absurd h.2 (Nat.not_lt_zero _)
  | succ fuel ih =>
    unfold passed landed
    by_cases htrivia : (L.next context).current.kind.isTrivia = true
    · rw [if_pos htrivia, if_pos htrivia]
      obtain ⟨hreads, hkind⟩ := ih (h.next htrivia)
      exact ⟨.step context hreads, hkind⟩
    · rw [if_neg htrivia, if_neg htrivia]
      exact ⟨.step context (.refl _), Bool.eq_false_iff.mpr htrivia⟩

/-- If the next token is the end, it is empty and lies at the end of the
source. -/
theorem range_landed_of_eof {fuel : Nat} (h : L.Suffices fuel)
    (hkind : (L.landed context fuel).current.kind = .eof) :
    (L.landed context fuel).current.range = .empty L.source.length := by
  induction fuel generalizing L with
  | zero => exact absurd h.2 (Nat.not_lt_zero _)
  | succ fuel ih =>
    unfold landed at hkind ⊢
    by_cases htrivia : (L.next context).current.kind.isTrivia = true
    · rw [if_pos htrivia] at hkind ⊢
      have hrest := ih (h.next htrivia) hkind
      rwa [next_source] at hrest
    · rw [if_neg htrivia] at hkind ⊢
      exact range_next_of_eof h.1 hkind

/-- What is passed is trivia. -/
theorem isTrivia_of_mem_passed {fuel : Nat} {token : Token}
    (h : token ∈ L.passed context fuel) : token.kind.isTrivia = true := by
  induction fuel generalizing L with
  | zero => cases h
  | succ fuel ih =>
    unfold passed at h
    split at h
    · rename_i htrivia
      rcases List.mem_cons.mp h with rfl | h
      · exact htrivia
      · exact ih h
    · cases h

end Lexer

end MarkupSyntax
