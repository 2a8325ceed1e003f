import TemplateFormat.Indentation
import TemplateFormat.Storage.Path

/-!
# Settings: what a settings file says

A settings file may set any of the formatting options, whether indentation is
detected, and the extensions of template files.  A key that is not set keeps
its default, so every value is optional.

`Settings.options` resolves the options for one document: explicit values
first, then the indentation found in the document unless detection is off,
then validation.  `Settings.isTemplate` tells which files are templates.
-/

namespace TemplateFormat

open TemplateFormat.Layout TemplateFormat.Storage

/-- What a settings file says; a missing value is not set. -/
structure Settings where
  indentSize : Option Int := none
  useSpaces : Option Bool := none
  inlineShort : Option Bool := none
  threshold : Option Int := none
  keepMultiline : Option Bool := none
  detectIndentation : Option Bool := none
  extensions : Option (List Text) := none
  /-- The file the settings were read from; empty for the defaults. -/
  path : Text := []
deriving DecidableEq, Repr, Inhabited

namespace Settings

/-- Options that are refused, with the settings file that gave them. -/
structure OptionsFault where
  path : Text
  fault : Options.Fault
deriving DecidableEq, Repr

/-- The wording of a refusal. -/
def OptionsFault.message (f : OptionsFault) : Text :=
  if f.path.isEmpty then f.fault.message else f.path ++ text ": " ++ f.fault.message

/-- The options that are set, over the defaults. -/
def explicitOptions (c : Settings) : Options :=
  let o : Options := {}
  { indentSize := c.indentSize.getD o.indentSize
    useSpaces := c.useSpaces.getD o.useSpaces
    inlineShort := c.inlineShort.getD o.inlineShort
    threshold := c.threshold.getD o.threshold
    keepMultiline := c.keepMultiline.getD o.keepMultiline }

/-- The options for a document before they are checked. -/
def uncheckedOptions (c : Settings) (doc : Text) : Options :=
  if c.detectIndentation.getD true then
    match Indentation.detect doc with
    | some style => style.apply c.explicitOptions
    | none => c.explicitOptions
  else c.explicitOptions

/-- The options for a document. -/
def options (c : Settings) (doc : Text) : Except OptionsFault Options :=
  let o := c.uncheckedOptions doc
  match o.validate with
  | .ok () => .ok o
  | .error fault => .error { path := c.path, fault }

/-- The settings with an editor's indentation. -/
def withIndent (c : Settings) (size : Int) (useSpaces : Bool) : Settings :=
  { c with indentSize := some size, useSpaces := some useSpaces }

/-- The extensions of template files where none are set. -/
def defaultExtensions : List Text := [text ".html"]

/-- An extension in lower case with a leading dot. -/
def normalExtension (ext : Text) : Text :=
  Text.lower (if ext.startsWith (text ".") then ext else .char '.' :: ext)

/-- The extensions of template files. -/
def templateExtensions (c : Settings) : List Text :=
  match c.extensions with
  | none | some [] => defaultExtensions
  | some exts => exts.map normalExtension

/-- Whether a path has the extension of a template file. -/
def isTemplate (c : Settings) (path : Text) : Bool :=
  c.templateExtensions.contains (Path.extension path).lower

end Settings

end TemplateFormat
