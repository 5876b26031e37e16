import MarkupSyntax.Document.Basic

/-!
# `MarkupSyntax.Listing.Basic`: tokens and trees as lines of text

Two listings of the tokens of a source, one to read in a terminal and
one to keep in a file, and one of its tree.
-/

set_option autoImplicit false

namespace MarkupSyntax.Listing

/-- A text as a line shows it. -/
def shown (t : Text) : String := t.quoted.toString

/-- Lines joined by line feeds. -/
def joinLines (lines : List String) : String := "\n".intercalate lines

/-- A number with at least `width` digits. -/
def padNumber (width n : Nat) : String :=
  let digits := toString n
  String.ofList (List.replicate (width - digits.length) '0') ++ digits

/-- A word with spaces up to `width` characters. -/
def padWord (width : Nat) (word : String) : String :=
  word ++ String.ofList (List.replicate (width - word.length) ' ')

/-- Two bounds in parentheses. -/
def bounds (r : TextRange) : String :=
  "(" ++ toString r.start ++ ", " ++ toString r.stop ++ ")"

/-! ### Tokens and diagnostics -/

/-- A token for reading. -/
def tokenRow (source : Text) (place : Nat) (token : Token) : String :=
  padNumber 3 place ++ " " ++ padWord 22 token.kind.name ++ " range=" ++ bounds token.range ++
    " flags=" ++ toString token.flags.toNat ++ " text=" ++ shown (token.text source)

/-- A token for keeping. -/
def tokenRecord (source : Text) (place : Nat) (token : Token) : String :=
  "[" ++ toString place ++ "] kind=" ++ token.kind.name ++ " text=" ++ shown (token.text source) ++
    " span=(" ++ toString token.range.start ++ "," ++ toString token.range.stop ++ ")" ++
    (if token.flags.afterLineBreak then " line_break" else "")

/-- A diagnostic behind a mark. -/
def diagnosticRow (mark : String) (d : Diagnostic) : String :=
  mark ++ " " ++ d.severity.name.toUpper ++ " " ++ d.code.name ++ " range=" ++ bounds d.range ++
    " message=" ++ d.message.toString

/-! ### Trees -/

/-- One part of a tree, indented by its depth. -/
def treeRow (row : Tree.Row) : String :=
  let indent := String.ofList (List.replicate (2 * row.depth) ' ')
  let field := match row.tree.field? with
    | some field => if field.isEmpty then "" else field ++ ": "
    | none => ""
  let text := match row.tree with
    | .leaf _ leaf => " " ++ shown leaf.text
    | .node .. => ""
  indent ++ field ++ row.tree.kind.name ++ text

/-- A tree and what is wrong with it. -/
def treeRows (document : Document) : List String :=
  (document.tree.rows 0).map treeRow ++ document.diagnostics.map (diagnosticRow "!")

/-! ### Whole listings -/

/-- A source cut into tokens. -/
structure Tokens where
  source : Text
  tokens : List Token
  diagnostics : List Diagnostic

/-- The tokens of a source in one context. -/
def Tokens.ofDecoded (decoded : Decoded) (file : Text) (context : LexContext) : Tokens :=
  let (tokens, lexer) := (Lexer.ofSource decoded.text file).tokens context
  { source := decoded.text
    tokens
    diagnostics := decoded.diagnostics ++ lexer.diagnostics.toList }

/-- The listing for reading; `tree` is the listing of the tree, or
empty. -/
def toRead (listing : Tokens) (tree : List String) : String :=
  let tokens := listing.tokens.zipIdx.map fun (token, place) => tokenRow listing.source place token
  let diagnostics := listing.diagnostics.map (diagnosticRow "-")
  let treePart := if tree.isEmpty then [] else "\nCST:" :: tree
  joinLines (tokens ++ ["\nDiagnostics:"] ++ diagnostics ++ treePart) ++ "\n"

/-- The listing for keeping. -/
def toKeep (listing : Tokens) (tree : List String) : String :=
  let tokens :=
    listing.tokens.zipIdx.map fun (token, place) => tokenRecord listing.source place token
  joinLines (tokens ++ listing.diagnostics.map (diagnosticRow "!") ++ tree) ++ "\n"

/-- What is said when a listing was written to a file. -/
def written (listing : Tokens) (path : String) : String :=
  "Wrote " ++ toString listing.tokens.length ++ " tokens to " ++ path ++ "\n"

end MarkupSyntax.Listing
