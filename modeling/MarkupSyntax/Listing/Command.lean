import MarkupSyntax.Listing.Basic

/-!
# `MarkupSyntax.Listing.Command`: the command that lists a file

The command line names a file and may ask for a context, for the tree
as well, and for a file to write to. `Command.run` says what is printed
and what is written; reading and writing is left to the caller.
-/

set_option autoImplicit false

namespace MarkupSyntax.Listing

/-- What a command line asks for. Paths are in normal form. -/
structure Command where
  path : String := ""
  context : LexContext := .normal
  withTree : Bool := false
  output : Option String := none
deriving DecidableEq, Repr

/-- What a command prints, and what it writes to its output file. -/
structure Result where
  printed : String
  written : Option String
deriving DecidableEq, Repr

namespace Command

/-- The normal form of a path on a command line. -/
def normalPath (path : String) : String := (Path.normal (.ofString path)).toString

/-! ### Reading a command line -/

/-- An option of the command line. -/
inductive Flag where
  | context
  | tree
  | output
deriving DecidableEq, Repr

namespace Flag

/-- Every option. -/
def all : List Flag := [context, tree, output]

/-- The name of an option. -/
def name : Flag → String
  | context => "--context"
  | tree => "--cst"
  | output => "--output"

/-- The option of a name, which may be cut short as long as one option
alone starts that way. -/
def ofName? (word : String) : Option Flag :=
  match all.filter fun flag => word.toList.isPrefixOf flag.name.toList with
  | [flag] => some flag
  | _ => none

end Flag

/-- True for a word that is no option: a path or the value of an
option. -/
def isPlain (word : String) : Bool := word.toList.head? ≠ some '-' || word = "-"

/-- The name and the value of an option that is written with both in
one word. -/
def splitValue? (word : String) : Option (String × String) :=
  match word.toList.dropWhile (· ≠ '=') with
  | [] => none
  | _ :: value => some (String.ofList (word.toList.takeWhile (· ≠ '=')), String.ofList value)

/-- The contexts that a command line can name. -/
def contextNames : List String := ["normal", "tag", "text"]

/-- The command with the value of an option. -/
def withValue (command : Command) (flag : Flag) (value : String) : Option Command :=
  match flag with
  | .context =>
    if contextNames.contains value then
      (LexContext.ofName? value).map fun context => { command with context }
    else none
  | .output => some { command with output := some (normalPath value) }
  | .tree => none

/-- Reads a command line; `command` is what was read so far. -/
def read (command : Command) : List String → Option Command
  | [] => if command.path.isEmpty then none else some command
  | word :: rest =>
    if isPlain word then
      if command.path.isEmpty then read { command with path := normalPath word } rest else none
    else
      match splitValue? word with
      | some (name, value) => do read (← command.withValue (← Flag.ofName? name) value) rest
      | none =>
        match Flag.ofName? word, rest with
        | some .tree, rest => read { command with withTree := true } rest
        | some flag, value :: rest =>
          if isPlain value then do read (← command.withValue flag value) rest else none
        | _, _ => none

/-! ### Running it -/

/-- Runs a command on the bytes of its file. -/
def run (command : Command) (bytes : List UInt8) : Except Fault Result := do
  let file := Text.ofString command.path
  let decoded := Decoded.ofBytes bytes file
  let listing := Tokens.ofDecoded decoded file command.context
  let tree ←
    if command.withTree then pure (treeRows (← Document.parse decoded {} file)) else pure []
  match command.output with
  | none => return { printed := toRead listing tree, written := none }
  | some path => return { printed := written listing path, written := some (toKeep listing tree) }

end Command

end MarkupSyntax.Listing
