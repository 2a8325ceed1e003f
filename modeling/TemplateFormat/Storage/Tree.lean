import TemplateFormat.Storage.Path
import TemplateFormat.Text.Utf8

/-!
# File trees

A file tree is a directory with named entries: files, links and further
directories.  Entries are kept in the order of the bytes of their names, the
order in which a directory is listed.

A place in a tree is a list of names from its root, with no `.`, `..` or
links to follow.  `Node.at?`, `Node.put` and `Node.remove` read and change
what is at a place; `Node.files` lists all files below.
-/

namespace TemplateFormat.Storage

/-- An entry of a file tree. -/
inductive Node where
  | file (content : Text)
  | link (target : Text)
  | dir (entries : List (Text × Node))

instance : Inhabited Node := ⟨.dir []⟩

/-- Whether the bytes of one name come before those of another. -/
def nameBefore (a b : Text) : Bool := decide (a.encode < b.encode)

/-- Enters a node under a name, in place of the one that has the name. -/
def setEntry (name : Text) (node : Node) : List (Text × Node) → List (Text × Node)
  | [] => [(name, node)]
  | (n, old) :: rest =>
    if n = name then (n, node) :: rest
    else if nameBefore name n then (name, node) :: (n, old) :: rest
    else (n, old) :: setEntry name node rest

namespace Node

/-- Whether the node is a directory. -/
def isDir : Node → Bool
  | .dir _ => true
  | _ => false

/-- The entries of a directory; a file has none. -/
def entries : Node → List (Text × Node)
  | .dir entries => entries
  | _ => []

/-- The node at a place. -/
def at? : Node → List Text → Option Node
  | node, [] => some node
  | .dir entries, name :: rest =>
    match entries.lookup name with
    | some child => child.at? rest
    | none => none
  | _, _ :: _ => none

/-- Puts a node at a place whose parent is a directory. -/
def put (node : Node) : Node → List Text → Node
  | _, [] => node
  | .dir entries, [name] => .dir (setEntry name node entries)
  | .dir entries, name :: rest =>
    match entries.lookup name with
    | some child => .dir (setEntry name (node.put child rest) entries)
    | none => .dir entries
  | other, _ :: _ => other

/-- Takes the node at a place away. -/
def remove : Node → List Text → Node
  | .dir entries, [name] => .dir (entries.filter (·.1 != name))
  | .dir entries, name :: rest =>
    match entries.lookup name with
    | some child => .dir (setEntry name (child.remove rest) entries)
    | none => .dir entries
  | other, _ => other

end Node

mutual

/-- The files at and below a node that has the given path, links left out. -/
def Node.filesAt (path : Text) : Node → List (Text × Text)
  | .file content => [(path, content)]
  | .link _ => []
  | .dir entries => filesAmong path entries

/-- The files at and below the entries of a directory that has the given
path. -/
def filesAmong (path : Text) : List (Text × Node) → List (Text × Text)
  | [] => []
  | (name, node) :: rest =>
    node.filesAt (if path.isEmpty then name else path ++ .char '/' :: name) ++
      filesAmong path rest

end

/-- The files below a directory, with their paths seen from it. -/
def Node.files (node : Node) : List (Text × Text) := filesAmong [] node.entries

end TemplateFormat.Storage
