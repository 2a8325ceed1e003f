import TemplateFormat.Text.Glyph

/-!
# Formatting options

How wide an indentation level is, and when an element may stand on one line.
Sizes are whole numbers as a user writes them; `Options.validate` refuses
those that would give no sensible layout, and says which one it refused.
-/

namespace TemplateFormat.Layout

/-- The choices that shape a layout. -/
structure Options where
  /-- The number of spaces of one level when `useSpaces` is set. -/
  indentSize : Int := 4
  /-- Spaces rather than a tab for each level. -/
  useSpaces : Bool := true
  /-- Short elements may stand on one line. -/
  inlineShort : Bool := true
  /-- The length up to which an element is short. -/
  threshold : Int := 80
  /-- An element the author spread over lines around nested tags stays so. -/
  keepMultiline : Bool := true
deriving DecidableEq, Repr, Inhabited

/-- Why options are refused. -/
inductive Options.Fault where
  | indentSize (size : Int)
  | threshold (length : Int)
deriving DecidableEq, Repr

namespace Options

/-- The wording of a refusal. -/
def Fault.message : Fault → Text
  | .indentSize size =>
    text "invalid formatting options: indent size must be positive, got " ++ Text.ofInt size
  | .threshold length =>
    text "invalid formatting options: short element threshold must be positive, got " ++
      Text.ofInt length

/-- Options are valid when the indent size and the threshold are positive; the
indent size is looked at first. -/
def validate (o : Options) : Except Fault Unit :=
  if o.indentSize ≤ 0 then .error (.indentSize o.indentSize)
  else if o.threshold ≤ 0 then .error (.threshold o.threshold)
  else .ok ()

/-- What is written once for each level of indentation. -/
def unit (o : Options) : Text :=
  if o.useSpaces then List.replicate o.indentSize.toNat (.char ' ') else [.char '\t']

end Options

end TemplateFormat.Layout
