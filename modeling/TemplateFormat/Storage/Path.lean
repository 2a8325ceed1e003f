import TemplateFormat.Text.Glyph

/-!
# Paths

A path is a text whose components are divided by slashes.  The functions here
look at the text only, never at a disk: `clean` is the shortest path with the
same meaning when no link stands on it, `join`, `dir` and `extension` take paths
together and apart.
-/

namespace TemplateFormat.Storage.Path

/-- The component that means the directory itself. -/
def here : Text := text "."

/-- The component that means the directory above. -/
def above : Text := text ".."

/-- Whether the path starts at the root. -/
def isRooted (path : Text) : Bool := path.startsWith (text "/")

/-- The components of a path, those between two slashes included. -/
def components (path : Text) : List Text := path.splitOn (.char '/')

/-- Puts a component on the stack of components before it, the latest first:
`.` and empty components add nothing, and `..` takes one away; above the root
there is nothing to go to. -/
def push (rooted : Bool) (stack : List Text) (part : Text) : List Text :=
  if part.isEmpty || part = here then stack
  else if part = above then
    match stack with
    | [] => if rooted then [] else [above]
    | top :: rest => if top = above then above :: stack else rest
  else part :: stack

/-- The shortest path with the same meaning. -/
def clean (path : Text) : Text :=
  let rooted := isRooted path
  let parts := ((components path).foldl (push rooted) []).reverse
  let body := Text.join (text "/") parts
  if rooted then .char '/' :: body
  else if body.isEmpty then here
  else body

/-- Two paths one behind the other, cleaned; an empty one adds nothing. -/
def join (a b : Text) : Text :=
  if a.isEmpty && b.isEmpty then []
  else if a.isEmpty then clean b
  else if b.isEmpty then clean a
  else clean (a ++ .char '/' :: b)

/-- The path of the directory a path lies in, cleaned. -/
def dir (path : Text) : Text :=
  match path.cutLast? (.char '/') with
  | some (head, _) => clean (head ++ text "/")
  | none => here

/-- The last component of a path that does not end in a slash. -/
def base (path : Text) : Text :=
  match path.cutLast? (.char '/') with
  | some (_, name) => name
  | none => path

/-- The extension of a path: from the last dot of its last component on. -/
def extension (path : Text) : Text :=
  match (base path).cutLast? (.char '.') with
  | some (_, tail) => .char '.' :: tail
  | none => []

/-- The path seen from the root, cleaned; a relative path starts at the
directory `cwd`. -/
def absolute (cwd path : Text) : Text := if isRooted path then clean path else join cwd path

end TemplateFormat.Storage.Path
