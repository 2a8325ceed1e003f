import TemplateFormat.Storage.Disk

/-!
# The journal: debug messages of a run

Messages go to a sink: nowhere, into memory, or to the end of a file.  Each
message is one line, led by the part of the program it comes from.

`Workspace` is what a run works on: the disk, and the sink with what was
written to memory so far.
-/

namespace TemplateFormat

open TemplateFormat.Storage

/-- The part of the program a message comes from. -/
inductive Journal.Category where
  | debug
  | server
  | format
  | config
  | cache
deriving DecidableEq, Repr

/-- What leads the messages of a category. -/
def Journal.Category.label : Journal.Category → String
  | .debug => ""
  | .server => "[server] "
  | .format => "[format] "
  | .config => "[config] "
  | .cache => "[cache] "

/-- Where messages go. -/
inductive Journal.Sink where
  | off
  | memory
  /-- To the end of the file at a place. -/
  | file (place : List Text)
deriving DecidableEq, Repr

/-- What a run works on. -/
structure Workspace where
  disk : Disk := {}
  sink : Journal.Sink := .off
  /-- What was written to memory. -/
  memory : Text := []

namespace Journal

/-- Something a message is filled with. -/
inductive Argument where
  | word (s : Text)
  | number (n : Int)

/-- The argument as it reads. -/
def Argument.plain : Argument → Text
  | .word s => s
  | .number n => Text.ofInt n

/-- The argument with its kind, as a message shows one that does not fit. -/
def Argument.typed : Argument → Text
  | .word s => text "string=" ++ s
  | .number n => text "int=" ++ Text.ofInt n

/-- Whether a verb can write an argument. -/
def Argument.fits (verb : Glyph) : Argument → Bool
  | .word _ => verb = .char 's' || verb = .char 'v'
  | .number _ => verb = .char 'd' || verb = .char 'v'

/-- What a verb writes for an argument. -/
def Argument.written (verb : Glyph) (arg : Argument) : Text :=
  if arg.fits verb then arg.plain
  else text "%!" ++ verb :: text "(" ++ arg.typed ++ text ")"

/-- The arguments no verb asked for. -/
def leftOver (args : List Argument) : Text :=
  if args.isEmpty then []
  else text "%!(EXTRA " ++ Text.join (text ", ") (args.map Argument.typed) ++ text ")"

/-- A message with its verbs filled: `%s` writes a text, `%d` a number and `%%`
a percent sign.  Arguments that are missing, left over or do not fit are shown
in the message. -/
def fill : (message : Text) → List Argument → Text
  | [], args => leftOver args
  | [r], args => if r = .char '%' then text "%!(NOVERB)" ++ leftOver args else r :: leftOver args
  | r :: verb :: rest, args =>
    if r = .char '%' then
      if verb = .char '%' then .char '%' :: fill rest args
      else
        match args with
        | [] => text "%!" ++ verb :: text "(MISSING)" ++ fill rest []
        | arg :: args => arg.written verb ++ fill rest args
    else r :: fill (verb :: rest) args

/-- Why a file cannot be logged to. -/
structure OpenFault where
  failure : Failure
deriving DecidableEq, Repr

/-- The wording of a refusal. -/
def OpenFault.message (f : OpenFault) : Text := text "opening log file: " ++ f.failure.message

end Journal

namespace Workspace

open TemplateFormat.Journal

/-- Whether messages go anywhere. -/
def isLogging (ws : Workspace) : Bool := ws.sink != .off

/-- Writes to the sink. -/
def write (ws : Workspace) (line : Text) : Workspace :=
  match ws.sink with
  | .off => ws
  | .memory => { ws with memory := ws.memory ++ line }
  | .file place => { ws with disk := ws.disk.append place line }

/-- Writes a message that is filled already. -/
def log (ws : Workspace) (category : Category) (message : Text) : Workspace :=
  ws.write (text category.label ++ message ++ text "\n")

/-- Writes a message with its verbs filled. -/
def logFilled (ws : Workspace) (category : Category) (message : Text) (args : List Argument) :
    Workspace :=
  ws.write (fill (text category.label ++ message ++ text "\n") args)

/-- Sends messages to the end of a file, which is made if it is missing. -/
def logTo (ws : Workspace) (path : Text) : Except OpenFault Workspace :=
  match ws.disk.openFile path with
  | .ok (place, disk) => .ok { ws with disk, sink := .file place }
  | .error failure => .error { failure }

/-- Sends messages to a file if a path is given. -/
def logToGiven (ws : Workspace) (path : Text) : Except OpenFault Workspace :=
  if path.isEmpty then .ok ws else ws.logTo path

end Workspace

end TemplateFormat
