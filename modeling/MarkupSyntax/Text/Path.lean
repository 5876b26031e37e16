import MarkupSyntax.Text.Basic

/-!
# `MarkupSyntax.Text.Path`: names of files

A path is a root, which may be missing, and components with a slash
between one another. Empty components and those of a single point lead
nowhere; the normal form of a path has none. Two points lead out of a
folder and stay, since a folder may be a link to another.
-/

set_option autoImplicit false

namespace MarkupSyntax.Path

/-- What stands between the slashes of a path. -/
def split : Text → List Text
  | [] => [[]]
  | c :: rest =>
    if c = '/' then [] :: split rest
    else
      match split rest with
      | [] => [[c]]
      | component :: others => (c :: component) :: others

/-- True for a component that leads nowhere. -/
def isIdle (component : Text) : Bool := component.isEmpty || component = Text.ofString "."

/-- The components that lead somewhere. -/
def components (path : Text) : List Text := (split path).filter fun c => !isIdle c

/-- The root of a path. Two slashes name another root than one; three
or more name the same as one. -/
def root (path : Text) : Text :=
  match (path.takeWhile fun (c : CodePoint) => c = '/').length with
  | 0 => []
  | 2 => "//"
  | _ => "/"

/-- The normal form of a path; the path that leads nowhere is a single
point. -/
def normal (path : Text) : Text :=
  let short := root path ++ List.intercalate (Text.ofString "/") (components path)
  if short.isEmpty then "." else short

end MarkupSyntax.Path
