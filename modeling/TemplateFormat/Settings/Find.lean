import TemplateFormat.Settings.Decode
import TemplateFormat.Storage.Disk

/-!
# The settings that apply to a file

Settings files are looked for in the directory of a file and in all
directories above it.  The nearest one applies; without one, the defaults do.
-/

namespace TemplateFormat

open TemplateFormat.Storage

namespace Settings

/-- The names of settings files, in the order in which they are tried. -/
def fileNames : List Text := [text ".ngfmt.yaml", text ".ngfmt.yml"]

/-- The settings file in a directory. -/
def inDir? (d : Disk) (dir : Text) : Option Text :=
  (fileNames.map (Path.join dir)).find? d.isFile

/-- The nearest settings file in a directory or above it, with at most `fuel`
directories tried. -/
def findFrom (d : Disk) : (fuel : Nat) → (dir : Text) → Option Text
  | 0, _ => none
  | fuel + 1, dir =>
    match inDir? d dir with
    | some path => some path
    | none =>
      let parent := Path.dir dir
      if parent = dir then none else findFrom d fuel parent

/-- The nearest settings file in a directory or above it. -/
def find (d : Disk) (dir : Text) : Option Text :=
  let dir := d.absolute dir
  findFrom d (dir.length + 1) dir

/-- Why a settings file cannot be loaded. -/
inductive LoadFault where
  | opening (failure : Failure)
  | decoding (path : Text) (fault : DecodeFault)
deriving DecidableEq, Repr

/-- The wording of a refusal. -/
def LoadFault.message : LoadFault → Text
  | .opening failure => text "opening config: " ++ failure.message
  | .decoding path fault => path ++ text ": " ++ fault.message

/-- Loads a settings file.  A directory opens, but cannot be read. -/
def load (d : Disk) (path : Text) : Except LoadFault Settings :=
  match d.lookup .open true path with
  | .error failure => .error (.opening failure)
  | .ok node =>
    match node with
    | .file content =>
      match decode content with
      | .ok c => .ok { c with path }
      | .error fault => .error (.decoding path fault)
    | _ => .error (.decoding path .unreadable)

/-- The settings that apply to the file at a path. -/
def forFile (d : Disk) (path : Text) : Except LoadFault Settings :=
  match find d (Path.dir path) with
  | some found => load d found
  | none => .ok {}

end Settings

end TemplateFormat
