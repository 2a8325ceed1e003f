import TemplateFormat.Command.State
import TemplateFormat.Layout.Document

/-!
# Verdicts: what comes of each file

`Verdict.ofFile` reads a file, resolves its options and formats it.  A file the
cache knows is not formatted again, unless its content is to be printed.  In
place, a file that is not formatted gets its new content.

The cache is kept true: what is formatted after the run is recorded, and a file
that is left unformatted is forgotten.
-/

namespace TemplateFormat.Command

open TemplateFormat.Layout TemplateFormat.Storage

/-- What is done with files that are not formatted. -/
inductive Mode where
  | inPlace
  | check
  | print
deriving DecidableEq, Repr

/-- The number of a mode in the journal. -/
def Mode.number : Mode → Nat
  | .inPlace => 0
  | .check => 1
  | .print => 2

/-- Why a file cannot be formatted. -/
inductive FileFault where
  | reading (failure : Failure)
  | settings (fault : Settings.LoadFault)
  | options (fault : Settings.OptionsFault)
  | layout (fault : Options.Fault)
  | writing (failure : Failure)
deriving DecidableEq, Repr

/-- The wording of a fault. -/
def FileFault.message : FileFault → Text
  | .reading failure => text "reading file: " ++ failure.message
  | .settings fault => fault.message
  | .options fault => fault.message
  | .layout fault => fault.message
  | .writing failure => text "writing file: " ++ failure.message

/-- What comes of a file. -/
inductive Verdict where
  | failed (fault : FileFault)
  | cached (content : Text)
  | formatted (result : Formatted)
deriving DecidableEq, Repr

namespace Verdict

/-- Replaces the content of a file that is not formatted. -/
def replaceFile (st : State) (path content : Text) : Except FileFault State :=
  match st.disk.writeFile path content with
  | .error failure => .error (.writing failure)
  | .ok disk =>
    .ok (State.log { st with workspace := { st.workspace with disk } } .format
      (text "rewrote " ++ path))

/-- Carries out what the mode asks for. -/
def carryOut (mode : Mode) (st : State) (path : Text) (result : Formatted) :
    Except FileFault State :=
  if result.changed && mode = .inPlace then replaceFile st path result.content else .ok st

/-- Notes in the cache whether the file is formatted now. -/
def note (mode : Mode) (st : State) (path : Text) (o : Options) (result : Formatted) : State :=
  if mode = .inPlace || !result.changed then st.record path result.content o else st.forget path

/-- Formats a content that was read from a file. -/
def ofContent (mode : Mode) (st : State) (path content : Text) (o : Options) : Verdict × State :=
  match formatCompared o content with
  | .error fault => (.failed (.layout fault), st)
  | .ok result =>
    match carryOut mode st path result with
    | .error fault => (.failed fault, st)
    | .ok st => (.formatted result, note mode st path o result)

/-- Formats a content unless the cache knows it. -/
def ofUncached (mode : Mode) (st : State) (path content : Text) (o : Options) : Verdict × State :=
  if mode = .print then ofContent mode st path content o
  else
    match st.isCached path content o with
    | (true, st) => (.cached content, st)
    | (false, st) => ofContent mode st path content o

/-- Formats a file. -/
def ofFile (mode : Mode) (st : State) (path : Text) : Verdict × State :=
  match st.disk.readFile path with
  | .error failure => (.failed (.reading failure), st)
  | .ok content =>
    match st.settingsFor path with
    | (.error fault, st) => (.failed (.settings fault), st)
    | (.ok c, st) =>
      match c.options content with
      | .error fault => (.failed (.options fault), st)
      | .ok o => ofUncached mode st path content o

/-- Formats files one after the other. -/
def ofFiles (mode : Mode) (st : State) : List Text → List (Text × Verdict) × State
  | [] => ([], st)
  | path :: rest =>
    let (verdict, st) := ofFile mode st path
    let (verdicts, st) := ofFiles mode st rest
    ((path, verdict) :: verdicts, st)

end Verdict

end TemplateFormat.Command
