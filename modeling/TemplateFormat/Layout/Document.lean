import TemplateFormat.Layout.Printer

/-!
# Formatting a document

`format` is the whole formatter: it refuses invalid options, leaves blank
documents alone, and otherwise lays out the trimmed source with unified line
ends.  The result ends in a newline exactly when the source does.
-/

namespace TemplateFormat.Layout

/-- Writes every line end as a newline.  `afterReturn` tells that a carriage
return stands right before the text; `seen` is what was written so far, in
reverse. -/
def unifyFrom (afterReturn : Bool) (seen : Text) : Text → Text
  | [] => seen.reverse
  | r :: s =>
    if r = .char '\r' then unifyFrom true (.char '\n' :: seen) s
    else if r = .char '\n' && afterReturn then unifyFrom false seen s
    else unifyFrom false (r :: seen) s

/-- The text with each carriage return, with or without a newline behind it,
written as one newline. -/
def unifyLineEnds (s : Text) : Text := unifyFrom false [] s

/-- The layout of a source that is not blank. -/
def layout (o : Options) (source : Text) : Text :=
  let unified := unifyLineEnds source
  let out := (Printer.ofSource o unified.trim).print
  if unified.endsWith [.char '\n'] then out ++ [.char '\n'] else out

/-- The formatted document. -/
def format (o : Options) (source : Text) : Except Options.Fault Text := do
  o.validate
  if source.isBlank then return source
  return layout o source

/-- A formatted document, and whether it differs from its source. -/
structure Formatted where
  content : Text
  changed : Bool
deriving DecidableEq, Repr

/-- Formats a document and compares it with its source. -/
def formatCompared (o : Options) (source : Text) : Except Options.Fault Formatted := do
  let content ← format o source
  return { content, changed := content != source }

end TemplateFormat.Layout
