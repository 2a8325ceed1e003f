import TemplateFormat.Command.State

/-!
# The files a command line selects

A path that ends in `/...` stands for all templates below a directory, some
directories left out; the path of a directory stands for the templates in it;
any other path stands for itself, be it a template or not.  Each file is
selected once, at its first place.

`expand` lists what a path stands for, before it is known which of it are
templates, with the failure that ended the list early; `selectFrom` goes through
all paths, and `select` does so with the settings of the files.
-/

namespace TemplateFormat.Command

open TemplateFormat.Storage

namespace Selection

/-- The names of directories that a walk does not enter. -/
def skippedNames : List Text :=
  [text ".git", text "node_modules", text "dist", text ".angular"]

/-- What ends a path that is walked. -/
def walkMark : Text := text "/..."

/-- Why no selection can be made. -/
inductive Fault where
  | walking (root : Text) (failure : Failure)
  | looking (path : Text) (failure : Failure)
  | listing (path : Text) (failure : Failure)
deriving DecidableEq, Repr

/-- The wording of a fault. -/
def Fault.message : Fault → Text
  | .walking root failure => text "walking " ++ root ++ text ": " ++ failure.message
  | .looking path failure => text "stat " ++ path ++ text ": " ++ failure.message
  | .listing path failure => text "reading directory " ++ path ++ text ": " ++ failure.message

/-- A file a path stands for: named by itself, or found in a directory. -/
inductive Candidate where
  | named (path : Text)
  | found (path : Text)
deriving DecidableEq, Repr

/-- Everything but directories at and below a path, in the order of the names,
and the failure that ended the walk.  The node is what the path is listed as;
`fuel` bounds the depth. -/
def walkFrom (d : Disk) (root : Text) :
    (fuel : Nat) → (path name : Text) → Node → List Text × Option Failure
  | 0, _, _, _ => ([], none)
  | fuel + 1, path, name, node =>
    if !node.isDir then ([path], none)
    else if path != root && skippedNames.contains name then ([], none)
    else
      match d.list path with
      | .error failure => ([], some failure)
      | .ok entries =>
        entries.foldl (fun (acc : List Text × Option Failure) (entry : Text × Node) =>
          match acc with
          | (files, some failure) => (files, some failure)
          | (files, none) =>
            let (more, failure) := walkFrom d root fuel (Path.join path entry.1) entry.1 entry.2
            (files ++ more, failure)) ([], none)

/-- Everything but directories at and below a path.  A path gets longer with
every step down, and one over the limit cannot be opened. -/
def walk (d : Disk) (root : Text) : List Text × Option Failure :=
  match d.lstat root with
  | .error failure => ([], some failure)
  | .ok node => walkFrom d root (Disk.pathLimit + 2) root (Path.base root) node

/-- What a path of the command line stands for. -/
def expand (d : Disk) (path : Text) : List Candidate × Option Fault :=
  if path.endsWith walkMark then
    let root := path.take (path.length - walkMark.length)
    let root := if root.isEmpty then Path.here else root
    let (files, failure) := walk d root
    (files.map .found, failure.map (.walking root))
  else
    match d.stat path with
    | .error failure => ([], some (.looking path failure))
    | .ok node =>
      if node.isDir then
        match d.list path with
        | .error failure => ([], some (.listing path failure))
        | .ok entries =>
          ((entries.filter (!·.2.isDir)).map fun e => .found (Path.join path e.1), none)
      else ([.named path], none)

/-- Selects a file that is not selected yet. -/
def add (files : List Text) (path : Text) : List Text :=
  if files.contains path then files else files ++ [path]

variable {σ : Type}

/-- Selects a candidate if it is named by itself or a template; `judge` tells
which of the files found in directories are templates. -/
def consider (judge : σ → Text → Bool × σ) (st : σ) (files : List Text) :
    Candidate → List Text × σ
  | .named path => (add files path, st)
  | .found path =>
    let (isTemplate, st) := judge st path
    (if isTemplate then add files path else files, st)

/-- Selects the candidates that are templates. -/
def addAll (judge : σ → Text → Bool × σ) (st : σ) (files : List Text)
    (candidates : List Candidate) : List Text × σ :=
  candidates.foldl (fun (files, st) candidate => consider judge st files candidate) (files, st)

/-- Selects files for the paths of a command line, behind those that are selected
already.  What the paths stand for is read off the disk as it is then. -/
def selectFrom (disk : σ → Disk) (judge : σ → Text → Bool × σ) (st : σ) (files : List Text) :
    List Text → Except Fault (List Text) × σ
  | [] => (.ok files, st)
  | path :: rest =>
    let (candidates, fault) := expand (disk st) path
    let (files, st) := addAll judge st files candidates
    match fault with
    | some fault => (.error fault, st)
    | none => selectFrom disk judge st files rest

/-- Selects files for the paths of a command line.  The settings of a file tell
whether it is a template. -/
def select (st : State) (paths : List Text) : Except Fault (List Text) × State :=
  selectFrom State.disk State.isTemplate st [] paths

end Selection

end TemplateFormat.Command
