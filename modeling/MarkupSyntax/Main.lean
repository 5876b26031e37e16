import MarkupSyntax.Listing.Command

/-!
# `MarkupSyntax.Main`: the command line

Lists the tokens of a file, and its tree when asked to.
-/

set_option autoImplicit false

namespace MarkupSyntax.Main

/-- How the command is used. -/
def usage : String :=
  "usage: markup-tokens [--context normal|tag|text] [--cst] [--output FILE] PATH"

/-- The folder that a path names a file in, if it names one. -/
def folder? (path : String) : Option String :=
  match (path.toList.reverse.dropWhile (· ≠ '/')).drop 1 with
  | [] => none
  | reversed => some (String.ofList reversed.reverse)

/-- Writes a listing to a file and makes the folder that it goes to. -/
def write (path content : String) : IO Unit := do
  if let some folder := folder? path then IO.FS.createDirAll folder
  IO.FS.writeFile path content

end MarkupSyntax.Main

open MarkupSyntax in
/-- Lists the file that the command line names. -/
def main (args : List String) : IO UInt32 := do
  match Listing.Command.read {} args with
  | none =>
    IO.eprintln Main.usage
    return 2
  | some command =>
    let bytes ← IO.FS.readBinFile command.path
    match command.run bytes.toList with
    | .error fault =>
      IO.eprintln fault.message
      return 1
    | .ok result =>
      if let (some path, some content) := (command.output, result.written) then
        Main.write path content
      IO.print result.printed
      return 0
