import TemplateFormat.Yaml.Gap

/-!
# Folding: white space inside a scalar

Plain and quoted scalars may run over several lines.  White space inside them
is held back until it is known that the scalar goes on behind it; then blanks
on one line are written as they are, a single line end becomes a space, and of
several line ends all but the first are kept.
-/

namespace TemplateFormat.Yaml

/-- White space read inside a scalar and not yet written. -/
inductive Pending where
  /-- Blanks on one line. -/
  | blanks (s : Text)
  /-- A first line end and the further ones behind it. -/
  | breaks (first more : Text)

namespace Pending

/-- What pending white space is written as. -/
def flush : Pending → Text
  | .blanks s => s
  | .breaks first more =>
    if first = [.char '\n'] then (if more.isEmpty then [.char ' '] else more) else first ++ more

/-- The pending white space with a blank added. -/
def addBlank (r : Glyph) : Pending → Pending
  | .blanks s => .blanks (s ++ [r])
  | pending => pending

/-- The pending white space with a line end added. -/
def addBreak (line : Text) : Pending → Pending
  | .blanks _ => .breaks line []
  | .breaks first more => .breaks first (more ++ line)

/-- Whether a line end is pending. -/
def hasBreak : Pending → Bool
  | .blanks _ => false
  | .breaks .. => true

end Pending

/-- A scalar that was read, with the cursor behind it. -/
structure Scalar where
  content : Text
  /-- The cursor stands on a later line than the scalar ends on. -/
  brokeLine : Bool := false
  cursor : Cursor

end TemplateFormat.Yaml
