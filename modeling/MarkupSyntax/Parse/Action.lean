import MarkupSyntax.Parse.State

/-!
# `MarkupSyntax.Parse.Action`: steps of a parse

A `Parse α` changes the state of a parse and answers with an `α`, or
stops with a `Fault`; the state it leaves is kept in both cases.

Loops come in one form, `Parse.loop`. Each round of a loop in the
grammar consumes a token, so a source allows no more rounds than it has
characters, and the loop has that bound built in.
-/

set_option autoImplicit false

namespace MarkupSyntax

/-- A step of a parse. -/
abbrev Parse := EStateM Fault Parser

namespace Parse

variable {α β σ : Type}

/-! ### Looking at the current token -/

/-- True at a token of a kind. -/
def sees (kind : TokenKind) : Parse Bool := return (← get).kind = kind

/-- True at a token of one of these kinds. -/
def seesAny (kinds : List TokenKind) : Parse Bool := return kinds.contains (← get).kind

/-- The kind of the token `n` places ahead. -/
def nthKind (n : Nat) : Parse TokenKind := do
  let p ← get
  let (kind, source) := p.source.nthKind n
  set { p with source }
  return kind

/-- True when the token `n` places ahead is of a kind. -/
def nthIs (n : Nat) (kind : TokenKind) : Parse Bool := return (← nthKind n) = kind

/-- True when trivia stands before the token `n` places ahead. -/
def nthAfterTrivia (n : Nat) : Parse Bool := do
  let p ← get
  let (afterTrivia, source) := p.source.nthAfterTrivia n
  set { p with source }
  return afterTrivia

/-- True when the current token is of kind `first` and the next of kind
`second`. -/
def seesPair (first second : TokenKind) : Parse Bool := do
  if ← sees first then nthIs 1 second else return false

/-- True at `</`. -/
def seesCloseTag : Parse Bool := seesPair .lessThan .slash

/-! ### Consuming tokens -/

/-- Consumes the current token and reads the next one in `context`. -/
def bump (context : LexContext := .normal) (field : Option String := none)
    (kind : Option SyntaxKind := none) : Parse Unit :=
  modify fun p => p.bump context field kind

/-- Consumes the current token into a field. -/
def bumpInto (field : String) : Parse Unit := bump .normal (some field)

/-- Reads the current token anew in `context`. -/
def relex (context : LexContext) : Parse Unit := modify fun p => p.relex context

/-- Consumes the current token if it is of a kind. -/
def eat (kind : TokenKind) (context : LexContext := .normal) (field : Option String := none) :
    Parse Bool := do
  if ← sees kind then
    bump context field
    return true
  else return false

/-! ### Reporting -/

/-- Reports a diagnostic. -/
def report (diagnostic : Diagnostic) : Parse Unit := modify fun p => p.report diagnostic

/-- Reports a code at the current token. -/
def reportHere (code : Code) : Parse Unit := do
  let p ← get
  report (.ofCode code p.range p.file)

/-- Reports a code at the current token, with a message. -/
def reportWith (code : Code) (message : String) : Parse Unit := do
  let p ← get
  report ((Diagnostic.ofCode code p.range p.file).withMessage message)

/-- Reports that a token of a kind was expected. -/
def reportExpected (kind : TokenKind) : Parse Unit := do
  let p ← get
  reportWith .expectedToken ("Expected " ++ kind.display ++ " but found " ++ p.kind.display)

/-- Reports that the current token has no place here. -/
def reportUnexpected : Parse Unit := do
  let p ← get
  reportWith .unexpectedToken ("Unexpected " ++ p.kind.display)

/-- Consumes a token of a kind, or reports that it is missing. -/
def expect (kind : TokenKind) (context : LexContext := .normal) (field : Option String := none) :
    Parse Bool := do
  if ← eat kind context field then return true
  else
    reportExpected kind
    return false

/-- Consumes a token of a kind, or reports a diagnostic. -/
def expectOr (kind : TokenKind) (diagnostic : Diagnostic) : Parse Bool := do
  if ← eat kind then return true
  else
    report diagnostic
    return false

/-! ### Bracketing -/

/-- Runs a step and then changes the state, also when the step stops
with a fault. -/
def ensuring (cleanup : Parser → Parser) (step : Parse α) : Parse α := fun p =>
  match step p with
  | .ok a p => .ok a (cleanup p)
  | .error fault p => .error fault (cleanup p)

/-- Enters a nested construct, unless it would be one too many. -/
def enterNesting : Parse Bool := do
  let p ← get
  if p.options.maxNestingDepth ≤ p.depth then return false
  else
    set { p with depth := p.depth + 1 }
    return true

/-- Runs `inside` as a nested construct, or `tooDeep` when it would be
one too many. -/
def nested (tooDeep inside : Parse α) : Parse α := do
  if ← enterNesting then ensuring Parser.leaveNesting inside else tooDeep

/-- Runs a step in speculation: nothing is skipped to recover from an
error, and nothing is remembered. -/
def speculating (step : Parse α) : Parse α := do
  modify Parser.enterSpeculation
  ensuring Parser.leaveSpeculation step

/-- The decision of a rule at the current token, reached by `decide` if
it was not reached before. -/
def memoized (rule : String) (reach : Parse Outcome) : Parse Outcome := do
  let offset := (← get).position
  match (← get).recall? rule offset with
  | some outcome => return outcome
  | none =>
    let outcome ← reach
    modify fun p => p.keep rule offset outcome
    return outcome

/-! ### Loops -/

/-- How a round of a loop ends. -/
inductive Round (σ β : Type) where
  /-- With another round. -/
  | again (state : σ)
  /-- With a result. -/
  | done (result : β)

/-- Runs rounds until one ends with a result, at most `fuel` of
them. -/
def rounds (round : σ → Parse (Round σ β)) : (fuel : Nat) → σ → Parse β
  | 0, _ => throw .exhausted
  | fuel + 1, state => do
    match ← round state with
    | .again state => rounds round fuel state
    | .done result => return result

/-- Runs rounds until one ends with a result. -/
def loop (round : σ → Parse (Round σ β)) (state : σ) : Parse β := do
  rounds round ((← get).text.length + 3) state

/-- Runs a step as long as it answers true. -/
def whileTrue (step : Parse Bool) : Parse Unit :=
  loop (fun _ => do if ← step then return .again () else return .done ()) ()

/-! ### Progress -/

/-- Where a loop last saw the parse. -/
structure Progress where
  last : Option Nat := none
deriving DecidableEq, Repr

/-- Whether the parse is further than when the loop last saw it, and
the loop's new view. -/
def Progress.check (progress : Progress) (p : Parser) : Bool × Progress :=
  (progress.last.all (· < p.position), ⟨some p.position⟩)

/-- Refuses a parse that got no further since the loop last saw it. -/
def mustProgress (progress : Progress) : Parse Progress := do
  let p ← get
  let (advanced, progress) := progress.check p
  if advanced then return progress else throw (.stalled p.kind p.range)

end Parse

end MarkupSyntax
