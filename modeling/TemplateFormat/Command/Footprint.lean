import TemplateFormat.Command.Run

/-!
# What a run looks at

Before a command runs, the parts of the disk it may look at are known from its
arguments: what each path leads to, and for a path that is walked everything
below.  Of the files found there, a run reads the contents of settings files
and of those it selects.
-/

namespace TemplateFormat.Command

open TemplateFormat.Storage

/-- A part of a disk that a run may look at. -/
inductive Scope where
  /-- What a path leads to, with the entries of a directory. -/
  | entry (path : Text)
  /-- What a path leads to, with everything below. -/
  | tree (path : Text)
deriving DecidableEq, Repr

/-- The path of a scope. -/
def Scope.path : Scope → Text
  | .entry path => path
  | .tree path => path

/-- How many levels of directories belong to a scope. -/
def Scope.depth : Scope → Nat
  | .entry _ => 1
  | .tree _ => Disk.pathLimit

/-- The part of the disk that an argument may stand for. -/
def Scope.ofArgument (arg : Text) : List Scope :=
  match Flags.Argument.ofText arg with
  | .flag _ value => value.toList.map .entry
  | _ =>
    if arg.endsWith Selection.walkMark then
      let root := arg.take (arg.length - Selection.walkMark.length)
      [.tree (if root.isEmpty then Path.here else root)]
    else [.entry arg]

namespace Invocation

/-- The parts of the disk that a run may look at. -/
def scopes (inv : Invocation) : List Scope :=
  .entry Path.here :: .entry inv.logPath :: inv.args.flatMap Scope.ofArgument

/-- The paths a formatting command is given; none if the command does not
format. -/
def formattingPaths? (inv : Invocation) : Option (List Text) :=
  match inv.args with
  | [] => none
  | command :: args =>
    if command = text "fmt" || command = text "check" then
      match Flags.parse (formattingFlags false) args with
      | .ok parsed => some parsed.operands
      | .error _ => none
    else none

/-- Whether the input is read if it is not a terminal. -/
def readsInput (inv : Invocation) : Bool := inv.formattingPaths? = some []

/-- The files a run formats, found in a workspace in which settings files have
their contents. -/
def selected (inv : Invocation) (ws : Workspace) : List Text :=
  match inv.formattingPaths? with
  | none => []
  | some paths =>
    match Selection.select { workspace := { ws with sink := .off } }
        (if paths.isEmpty then [Path.here] else paths) with
    | (.ok files, _) => files
    | (.error _, _) => []

end Invocation

/-- The paths of all directories a path lies in, the nearest first, with at most
`fuel` of them. -/
def ancestors : (fuel : Nat) → (path : Text) → List Text
  | 0, _ => []
  | fuel + 1, path =>
    let parent := Path.dir path
    if parent = path then [path] else path :: ancestors fuel parent

/-- The paths under which settings for a directory are looked up. -/
def settingsPaths (d : Disk) (dir : Text) : List Text :=
  let dir := d.absolute dir
  (ancestors (dir.length + 1) dir).flatMap fun parent => Settings.fileNames.map (Path.join parent)

/-- The files of the second list that are new or have another content than in the
first one, which is a part of it but for the contents. -/
def changedFiles : (before after : List (Text × Text)) → List (Text × Text)
  | _, [] => []
  | [], after => after
  | (p, old) :: before, (q, new) :: after =>
    if p = q then
      if old = new then changedFiles before after else (q, new) :: changedFiles before after
    else (q, new) :: changedFiles ((p, old) :: before) after

end TemplateFormat.Command
