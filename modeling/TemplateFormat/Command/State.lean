import TemplateFormat.Cache
import TemplateFormat.Journal
import TemplateFormat.Settings.Find

/-!
# The state of a formatting run

A run works on a workspace, remembers the settings of each directory it has
looked at, and may have a cache open.  Settings are looked up once for each
directory; those that cannot be loaded are not remembered, so that every file
they apply to is told about.
-/

namespace TemplateFormat.Command

open TemplateFormat.Layout TemplateFormat.Storage

/-- What a formatting run works with. -/
structure State where
  workspace : Workspace
  /-- The settings of the directories looked at so far. -/
  known : List (Text × Settings) := []
  cache : Option Cache := none

namespace State

/-- The disk of the run. -/
def disk (st : State) : Disk := st.workspace.disk

/-- Writes a message to the journal. -/
def log (st : State) (category : Journal.Category) (message : Text) : State :=
  { st with workspace := st.workspace.log category message }

/-- The settings that apply to a file. -/
def settingsFor (st : State) (path : Text) : Except Settings.LoadFault Settings × State :=
  let dir := Path.dir path
  match st.known.lookup dir with
  | some c => (.ok c, st)
  | none =>
    match Settings.forFile st.disk path with
    | .error fault => (.error fault, st)
    | .ok c =>
      let st := if c.path.isEmpty then st
        else st.log .config (text "using " ++ c.path ++ text " for " ++ dir)
      (.ok c, { st with known := (dir, c) :: st.known })

/-- Whether a file found in a directory is a template.  One whose settings cannot
be loaded counts as one, so that the fault comes up when it is formatted. -/
def isTemplate (st : State) (path : Text) : Bool × State :=
  match st.settingsFor path with
  | (.error _, st) => (true, st)
  | (.ok c, st) => (c.isTemplate path, st)

/-- Opens a cache if a path is given. -/
def openCache (st : State) (path : Text) : Except Cache.OpenFault State :=
  if path.isEmpty then .ok st
  else
    match Cache.openAt st.disk path with
    | .error fault => .error fault
    | .ok (cache, disk) =>
      .ok { st with cache := some cache, workspace := { st.workspace with disk } }

/-- Whether the cache knows a content under options as formatted. -/
def isCached (st : State) (path content : Text) (o : Options) : Bool × State :=
  match st.cache with
  | none => (false, st)
  | some cache =>
    match cache.isFormatted path content o with
    | .ok hit => (hit, if hit then st.log .cache (text "hit " ++ path) else st)
    | .error fault =>
      (false, st.log .cache (text "lookup " ++ path ++ text ": " ++ fault.message))

/-- Takes over a cache that was changed, or notes why it was not. -/
def updateCache (st : State) (activity : String) (path : Text) :
    Except Cache.Fault (Cache × Disk) → State
  | .ok (cache, disk) =>
    { st with cache := some cache, workspace := { st.workspace with disk } }
  | .error fault =>
    st.log .cache (text activity ++ text " " ++ path ++ text ": " ++ fault.message)

/-- Records a content as formatted, if there is a cache. -/
def record (st : State) (path content : Text) (o : Options) : State :=
  match st.cache with
  | none => st
  | some cache => st.updateCache "record" path (cache.record st.disk path content o)

/-- Forgets a file, if there is a cache. -/
def forget (st : State) (path : Text) : State :=
  match st.cache with
  | none => st
  | some cache => st.updateCache "forget" path (cache.forget st.disk path)

end State

end TemplateFormat.Command
