import TemplateFormat.Command.Footprint
import TemplateFormat.Editor.Message

/-!
# The program

The outer layer.  It loads the parts of the disk that a command looks at, runs
the command on them, prints what the command says and writes the files that it
changed.  The language server reads one message after the other.
-/

namespace TemplateFormat.Program

open TemplateFormat.Command TemplateFormat.Editor TemplateFormat.Storage

/-- The content of a file; empty if it cannot be read. -/
def contentOf (path : String) : IO Text := do
  try
    return Text.decode (← IO.FS.readBinFile path)
  catch _ =>
    return []

/-- Where a link leads to that leads nowhere. -/
def nowhere : Text := text "/nowhere"

/-- Loads a link and the file or directory it leads to. -/
def loadLink (d : Disk) (path : String) : IO Disk := do
  try
    let target ← IO.FS.realPath path
    let d := d.plant (text path) (.link (text target.toString))
    if ← target.isDir then
      return d.makeDirs (text target.toString)
    return d.plant (text target.toString) (.file (← contentOf target.toString))
  catch _ =>
    return d.plant (text path) (.link nowhere)

/-- Loads the entries of a directory down to a depth, with the contents of
settings files.  What is loaded already stays. -/
def loadDir (path : String) : (depth : Nat) → Disk → IO Disk
  | 0, d => return d.makeDirs (text path)
  | depth + 1, d => do
    let mut d := d.makeDirs (text path)
    for e in ← (← IO.FS.realPath path).readDir do
      let child := if path == "/" then path ++ e.fileName else path ++ "/" ++ e.fileName
      match (← e.path.symlinkMetadata).type with
      | .dir => d ← loadDir child depth d
      | .symlink => d ← loadLink d child
      | _ =>
        if !d.isFile (text child) then
          let isSettings := Settings.fileNames.contains (text e.fileName)
          d := d.plant (text child) (.file (← if isSettings then contentOf child else pure []))
    return d

/-- Loads what the last name of a path leads to, given the real path of the
directory it lies in. -/
def loadName (d : Disk) (dir name : String) : IO Disk := do
  let path := if dir == "/" then dir ++ name else dir ++ "/" ++ name
  try
    let parent ← IO.FS.realPath dir
    match (← (parent / name).symlinkMetadata).type with
    | .dir => return d.makeDirs (text path)
    | .symlink => loadLink d path
    | _ => return d.plant (text path) (.file (← contentOf path))
  catch _ =>
    return d

/-- Loads what the names of a path lead to, one after the other. -/
def loadPath (d : Disk) (path : Text) : IO Disk := do
  let mut d := d
  let mut dir := if Path.isRooted path then "/" else d.workingDir.legible
  for part in (Path.components path).filter (!·.isEmpty) do
    if part != Path.here && part != Path.above then
      d ← loadName d dir part.legible
    try
      dir := (← IO.FS.realPath (dir ++ "/" ++ part.legible)).toString
    catch _ =>
      return d
  return d

/-- Loads the settings files that apply in a directory. -/
def loadSettings (d : Disk) (dir : Text) : IO Disk :=
  (settingsPaths d dir).foldlM loadPath d

/-- Loads a part of the disk, with the settings that apply in it. -/
def loadScope (d : Disk) (scope : Scope) : IO Disk := do
  if scope.path.isEmpty then return d
  let d ← loadPath d scope.path
  match d.resolve true scope.path with
  | .ok (.found place (.dir _)) =>
    let path : Text := .char '/' :: Text.join (text "/") place
    loadSettings (← loadDir path.legible scope.depth d) scope.path
  | _ => loadSettings d (Path.dir scope.path)

/-- The disk at the start of a run, with nothing but the working directory. -/
def emptyDisk : IO Disk := do
  let cwd := text (← IO.currentDir).toString
  return (Disk.makeDirs {} cwd).enter cwd

/-- Loads all that a run looks at. -/
def loadDisk (inv : Invocation) : IO Disk := do
  let d ← inv.scopes.foldlM loadScope (← emptyDisk)
  let files := inv.scopes.map Scope.path ++ inv.selected { disk := d }
  files.foldlM loadPath d

/-- Writes the files that a run changed. -/
def writeBack (before after : Disk) : IO Unit :=
  for (path, content) in changedFiles before.root.files after.root.files do
    IO.FS.writeBinFile ("/" ++ path.legible) content.toBytes

/-- Everything that is left of a stream. -/
def readAll (stream : IO.FS.Stream) : IO ByteArray := do
  let mut all := ByteArray.empty
  repeat
    let more ← stream.read 65536
    if more.isEmpty then break
    all := all ++ more
  return all

/-- The given number of bytes of a stream, or fewer at its end. -/
def readBytes (stream : IO.FS.Stream) (count : Nat) : IO ByteArray := do
  let mut all := ByteArray.empty
  repeat
    if count ≤ all.size then break
    let more ← stream.read (count - all.size).toUSize
    if more.isEmpty then break
    all := all ++ more
  return all

/-- The length that the header of a message gives; none at the end of the
stream. -/
def readHeader (stream : IO.FS.Stream) : IO (Option Nat) := do
  let mut length := none
  repeat
    let line ← stream.getLine
    if line.isEmpty then return none
    let line := (text line).trim
    if line.isEmpty then break
    if let (name, some value) := line.cut (.char ':') then
      if name.lower = text "content-length" then
        length := (Text.legible (Text.trim value)).toNat?
  return length

/-- Writes a message with its header. -/
def send (stream : IO.FS.Stream) (j : Json) : IO Unit := do
  let body := j.toText.toBytes
  stream.putStr s!"Content-Length: {body.size}\r\n\r\n"
  stream.write body
  stream.flush

/-- The path of the log file of a workspace. -/
def logFile? (ws : Workspace) : Option String :=
  match ws.sink with
  | .file place => some ("/" ++ Text.legible (Text.join (text "/") place))
  | _ => none

/-- Adds what was logged in memory to the log file. -/
def flushLog (log : Option IO.FS.Handle) (ws : Workspace) : IO Workspace := do
  if let some handle := log then
    handle.write ws.memory.toBytes
    handle.flush
  return { ws with memory := [] }

/-- Loads the settings that apply to the open documents of a session. -/
def loadDocuments (s : Session) : IO Disk := do
  let mut d ← emptyDisk
  for (uri, _) in s.documents do
    if let some path := Uri.filePath? uri then
      d ← loadSettings d (Path.dir path)
  return d

/-- Serves an editor until it exits or the input ends. -/
def serve (ws : Workspace) : IO Unit := do
  let input ← IO.getStdin
  let output ← IO.getStdout
  let log ← match logFile? ws with
    | some path => some <$> IO.FS.Handle.mk path .append
    | none => pure none
  let mut ws := if log.isSome then { ws with sink := .memory } else ws
  let mut session : Session := {}
  repeat
    if session.isClosed then break
    let some length ← readHeader input | break
    let some message := (Json.read? (Text.decode (← readBytes input length))).bind Message.ofJson?
      | break
    let (reply, next, after) := session.receive { ws with disk := ← loadDocuments session } message
    session := next
    ws ← flushLog log after
    if let some j := reply then send output j

/-- Prints what a run says, and returns its exit code. -/
def finish (o : Outcome) : IO UInt32 := do
  (← IO.getStdout).write o.output.toBytes
  let stderr ← IO.getStderr
  stderr.write o.errors.toBytes
  match o.fault with
  | none => return 0
  | some fault =>
    stderr.write (text "error: " ++ fault.message ++ text "\n").toBytes
    return 1

/-- Runs a call of the program. -/
def run (inv : Invocation) : IO UInt32 := do
  let before ← loadDisk inv
  match start inv { disk := before } with
  | .done o =>
    writeBack before o.workspace.disk
    finish o
  | .serving ws =>
    writeBack before ws.disk
    serve ws
    return 0

end TemplateFormat.Program

open TemplateFormat TemplateFormat.Command TemplateFormat.Program in
/-- The command line. -/
def main (args : List String) : IO UInt32 := do
  let logPath := text ((← IO.getEnv "NGFMT_LOG").getD "")
  let inv : Invocation := { args := args.map text, logPath }
  let stdin ← IO.getStdin
  if inv.readsInput && !(← stdin.isTty) then
    run { inv with input := some (Text.decode (← readAll stdin)) }
  else
    run inv
