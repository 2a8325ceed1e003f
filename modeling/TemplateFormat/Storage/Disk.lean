import TemplateFormat.Storage.Tree

/-!
# The disk a command works on

A disk is a file tree with a working directory.  Paths are resolved name by
name: `..` goes up from where links have led, a link is followed (the last
one of a path only where the operation asks for it), and every name before
the last must be that of a directory.  Each operation answers with its result
or with a failure that says what was tried, on which path, and why it cannot
be done.
-/

namespace TemplateFormat.Storage

/-- Why an operation on a disk cannot be done. -/
inductive Fault where
  | missing
  | notDirectory
  | isDirectory
  | tooManyLinks
  | nameTooLong
  | invalidName
deriving DecidableEq, Repr

/-- The wording of a fault. -/
def Fault.message : Fault → String
  | .missing => "no such file or directory"
  | .notDirectory => "not a directory"
  | .isDirectory => "is a directory"
  | .tooManyLinks => "too many levels of symbolic links"
  | .nameTooLong => "file name too long"
  | .invalidName => "invalid argument"

/-- The operations that can fail. -/
inductive Attempt where
  | open
  | read
  | stat
  | lstat
deriving DecidableEq, Repr

/-- The word for an operation. -/
def Attempt.label : Attempt → String
  | .open => "open"
  | .read => "read"
  | .stat => "stat"
  | .lstat => "lstat"

/-- A failed operation. -/
structure Failure where
  attempt : Attempt
  path : Text
  fault : Fault
deriving DecidableEq, Repr

/-- The wording of a failure. -/
def Failure.message (f : Failure) : Text :=
  text f.attempt.label ++ text " " ++ f.path ++ text ": " ++ text f.fault.message

/-- Where a path leads. -/
inductive Place where
  /-- To a node. -/
  | found (path : List Text) (node : Node)
  /-- To a name that a directory does not have. -/
  | vacant (path : List Text)

/-- A file tree with the place of the working directory. -/
structure Disk where
  root : Node := .dir []
  cwd : List Text := []

namespace Disk

/-- How many links are followed on one path. -/
def linkLimit : Nat := 40

/-- The longest name in bytes. -/
def nameLimit : Nat := 255

/-- The longest path in bytes. -/
def pathLimit : Nat := 4095

/-- The names a path is resolved by.  A slash at the end asks for a directory,
as a dot does. -/
def steps (path : Text) : List Text :=
  (Path.components path).filter (!·.isEmpty) ++
    if path.endsWith (text "/") then [Path.here] else []

/-- Resolves the names `parts` from a place, which is in reverse,
following at most `links` links. -/
def resolveFrom (root : Node) (followLast : Bool) (links : Nat) (place : List Text)
    (parts : List Text) : Except Fault Place :=
  match root.at? place.reverse, parts with
  | none, _ => .error .missing
  | some node, [] => .ok (.found place.reverse node)
  | some (.dir entries), part :: rest =>
    if part = Path.here then resolveFrom root followLast links place rest
    else if part = Path.above then resolveFrom root followLast links place.tail rest
    else if nameLimit < part.width then .error .nameTooLong
    else
      match entries.lookup part with
      | none => if rest.isEmpty then .ok (.vacant (part :: place).reverse) else .error .missing
      | some (.link target) =>
        if rest.isEmpty && !followLast then .ok (.found (part :: place).reverse (.link target))
        else
          match links with
          | 0 => .error .tooManyLinks
          | links + 1 =>
            resolveFrom root followLast links (if Path.isRooted target then [] else place)
              (steps target ++ rest)
      | some _ => resolveFrom root followLast links (part :: place) rest
  | some _, _ :: _ => .error .notDirectory
termination_by (links, parts.length)

/-- Where a path leads; the last link is followed if `followLast` is set. -/
def resolve (d : Disk) (followLast : Bool) (path : Text) : Except Fault Place :=
  if path.contains (.char '\x00') then .error .invalidName
  else if path.isEmpty then .error .missing
  else if pathLimit < path.width then .error .nameTooLong
  else
    resolveFrom d.root followLast linkLimit (if Path.isRooted path then [] else d.cwd.reverse)
      (steps path)

/-- The node a path leads to. -/
def lookup (d : Disk) (attempt : Attempt) (followLast : Bool) (path : Text) :
    Except Failure Node :=
  match d.resolve followLast path with
  | .ok (.found _ node) => .ok node
  | .ok (.vacant _) => .error ⟨attempt, path, .missing⟩
  | .error fault => .error ⟨attempt, path, fault⟩

/-- The node a path leads to, links followed. -/
def stat (d : Disk) (path : Text) : Except Failure Node := d.lookup .stat true path

/-- The node a path names, the last link not followed. -/
def lstat (d : Disk) (path : Text) : Except Failure Node := d.lookup .lstat false path

/-- Whether a path leads to something that is not a directory. -/
def isFile (d : Disk) (path : Text) : Bool :=
  match d.stat path with
  | .ok node => !node.isDir
  | .error _ => false

/-- The content of a file. -/
def readFile (d : Disk) (path : Text) : Except Failure Text :=
  match d.lookup .open true path with
  | .ok (.file content) => .ok content
  | .ok _ => .error ⟨.read, path, .isDirectory⟩
  | .error failure => .error failure

/-- The entries of a directory. -/
def list (d : Disk) (path : Text) : Except Failure (List (Text × Node)) :=
  match d.lookup .open true path with
  | .ok (.dir entries) => .ok entries
  | .ok _ => .error ⟨.open, path, .notDirectory⟩
  | .error failure => .error failure

/-- The disk with a node at a place. -/
def put (d : Disk) (place : List Text) (node : Node) : Disk :=
  { d with root := node.put d.root place }

/-- The place of a file opened for writing, and the disk with that file; a
file that was missing is empty. -/
def openFile (d : Disk) (path : Text) : Except Failure (List Text × Disk) :=
  match d.resolve true path with
  | .ok (.found place (.file _)) => .ok (place, d)
  | .ok (.found _ _) => .error ⟨.open, path, .isDirectory⟩
  | .ok (.vacant place) => .ok (place, d.put place (.file []))
  | .error fault => .error ⟨.open, path, fault⟩

/-- The content of the file at a place; empty if there is none. -/
def contentAt (d : Disk) (place : List Text) : Text :=
  match d.root.at? place with
  | some (.file content) => content
  | _ => []

/-- Replaces the content of a file, which is made if it is missing. -/
def writeFile (d : Disk) (path content : Text) : Except Failure Disk := do
  let (place, d) ← d.openFile path
  return d.put place (.file content)

/-- Adds to the end of the file at a place. -/
def append (d : Disk) (place : List Text) (more : Text) : Disk :=
  d.put place (.file (d.contentAt place ++ more))

/-- The path of the working directory. -/
def workingDir (d : Disk) : Text := .char '/' :: Text.join (text "/") d.cwd

/-- The path seen from the root, cleaned. -/
def absolute (d : Disk) (path : Text) : Text := Path.absolute d.workingDir path

/-- Makes the directories along the names `parts`, of which those in `done`,
which is a path, exist. -/
def makeDirsFrom (d : Disk) (done : Text) : (parts : List Text) → Disk
  | [] => d
  | part :: rest =>
    let path := done ++ part
    let d := match d.resolve true path with
      | .ok (.vacant place) => d.put place (.dir [])
      | _ => d
    makeDirsFrom d (path ++ text "/") rest

/-- Makes a directory and those above it. -/
def makeDirs (d : Disk) (path : Text) : Disk :=
  d.makeDirsFrom (if Path.isRooted path then text "/" else [])
    ((Path.components path).filter (!·.isEmpty))

/-- Puts a node under a path, and makes the directories above it. -/
def plant (d : Disk) (path : Text) (node : Node) : Disk :=
  let d := d.makeDirs (Path.dir path)
  match d.resolve false path with
  | .ok (.found place _) => d.put place node
  | .ok (.vacant place) => d.put place node
  | .error _ => d

/-- Takes away what a path names, with all below it. -/
def remove (d : Disk) (path : Text) : Disk :=
  match d.resolve false path with
  | .ok (.found place _) => { d with root := d.root.remove place }
  | _ => d

/-- Makes the directory a path leads to the working directory. -/
def enter (d : Disk) (path : Text) : Disk :=
  match d.resolve true path with
  | .ok (.found place (.dir _)) => { d with cwd := place }
  | _ => d

end Disk

end TemplateFormat.Storage
