import TemplateFormat.Digest
import TemplateFormat.Layout.Options
import TemplateFormat.Storage.Disk

/-!
# The cache: which files are known to be formatted

A cache is a map from paths to keys, kept in a file.  The key of a content
under some options is the digest of both, so that a file is found formatted
only if neither changed since it was recorded.  The last word on a path counts:
recording replaces its key, forgetting takes it away.

A cache file starts with a header line; each further line is an entry, the key
and then the path, in which line ends and backslashes are escaped.
`Cache.ofText?` reads what `Cache.toText` writes.
-/

namespace TemplateFormat

open TemplateFormat.Layout TemplateFormat.Storage

/-- The keys of the paths known to be formatted. -/
abbrev Cache.Entries := List (Text × Text)

/-- A cache: the place of its file, its entries, and whether it is open. -/
structure Cache where
  place : List Text
  entries : Cache.Entries
  isOpen : Bool := true

namespace Cache

/-- A truth value as it is digested. -/
def truth (b : Bool) : Text := text (if b then "true" else "false")

/-- What is digested for a content under options: the content, a NUL, and the
options one behind the other. -/
def keyText (content : Text) (o : Options) : Text :=
  content ++ .char '\x00' :: Text.ofInt o.indentSize ++ truth o.useSpaces ++
    truth o.inlineShort ++ truth o.keepMultiline ++ Text.ofInt o.threshold

/-- The key of a content under options. -/
def key (content : Text) (o : Options) : Text := Digest.sha256Hex (keyText content o).encode

/-- Why an operation on a cache fails. -/
inductive Fault where
  | notOpen
  | keyRequired
  | keyTooLarge
deriving DecidableEq, Repr

/-- The wording of a fault. -/
def Fault.message : Fault → Text
  | .notOpen => text "database not open"
  | .keyRequired => text "key required"
  | .keyTooLarge => text "key too large"

/-- Why a cache cannot be opened. -/
inductive OpenFault where
  | unavailable (path : Text) (failure : Failure)
  | invalid (path : Text)
  | tooSmall (path : Text)
deriving DecidableEq, Repr

/-- The wording of a refusal. -/
def OpenFault.message : OpenFault → Text
  | .unavailable path failure => text "opening cache " ++ path ++ text ": " ++ failure.message
  | .invalid path => text "opening cache " ++ path ++ text ": invalid database"
  | .tooSmall path => text "opening cache " ++ path ++ text ": file size too small"

/-- The first line of a cache file. -/
def header : Text := text "formatted templates 1\n"

/-- A path with line ends and backslashes escaped. -/
def escape (path : Text) : Text :=
  path.flatMap fun r =>
    if r = .char '\n' then text "\\n" else if r = .char '\\' then text "\\\\" else [r]

/-- The path that was escaped. -/
def unescape : Text → Text
  | .char '\\' :: .char 'n' :: rest => .char '\n' :: unescape rest
  | .char '\\' :: r :: rest => r :: unescape rest
  | r :: rest => r :: unescape rest
  | [] => []

/-- The text of a cache file. -/
def toText (entries : Entries) : Text :=
  header ++ entries.flatMap fun (path, key) => key ++ text " " ++ escape path ++ text "\n"

/-- The entry of a line. -/
def entry? (line : Text) : Option (Text × Text) :=
  match line.cut (.char ' ') with
  | (key, some path) => some (unescape path, key)
  | (_, none) => none

/-- The entries of a cache file; none if it is not one.  An empty file holds no
entries. -/
def ofText? (content : Text) : Option Entries :=
  if content.isEmpty then some []
  else
    (Text.after? header content).map fun lines => (lines.splitOn (.char '\n')).filterMap entry?

/-- The bytes of a page of a file. -/
def pageSize : Nat := 4096

/-- Why a content that is not a cache is refused.  One page is too small for a
cache; without a whole page nothing is said about the size. -/
def refusal (path content : Text) : OpenFault :=
  if pageSize ≤ content.width && content.width < 2 * pageSize then .tooSmall path
  else .invalid path

/-- Opens a cache, and makes its file if it is missing. -/
def openAt (d : Disk) (path : Text) : Except OpenFault (Cache × Disk) :=
  match d.openFile path with
  | .error failure => .error (.unavailable path failure)
  | .ok (place, d) =>
    let content := d.contentAt place
    match ofText? content with
    | none => .error (refusal path content)
    | some entries => .ok ({ place, entries }, d.put place (.file (toText entries)))

/-- Closes a cache. -/
def close (c : Cache) : Cache := { c with isOpen := false }

/-- The longest path that can be recorded, in bytes. -/
def pathLimit : Nat := 32768

/-- Whether a path was recorded last with this content under these options. -/
def isFormatted (c : Cache) (path content : Text) (o : Options) : Except Fault Bool :=
  if c.isOpen then .ok (c.entries.lookup path == some (key content o)) else .error .notOpen

/-- Changes the entries, in memory and on disk. -/
def setEntries (c : Cache) (d : Disk) (entries : Entries) : Cache × Disk :=
  ({ c with entries }, d.put c.place (.file (toText entries)))

/-- The entries without a path. -/
def without (entries : Entries) (path : Text) : Entries := entries.filter (·.1 != path)

/-- Records a content as the formatted state of a path. -/
def record (c : Cache) (d : Disk) (path content : Text) (o : Options) :
    Except Fault (Cache × Disk) :=
  if !c.isOpen then .error .notOpen
  else if path.isEmpty then .error .keyRequired
  else if pathLimit < path.width then .error .keyTooLarge
  else .ok (c.setEntries d ((path, key content o) :: without c.entries path))

/-- Forgets a path. -/
def forget (c : Cache) (d : Disk) (path : Text) : Except Fault (Cache × Disk) :=
  if c.isOpen then .ok (c.setEntries d (without c.entries path)) else .error .notOpen

end Cache

end TemplateFormat
