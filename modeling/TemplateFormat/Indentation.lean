import TemplateFormat.Layout.Options
import TemplateFormat.Text.Words

/-!
# The indentation a document already uses

`Indentation.detect` looks at the first thousand lines that are not blank and
counts those that start with spaces and those that start with tabs.  Spaces
win a tie.  The size is the candidate width that most of the space-led lines
have, the smallest of several; where none occurs, and for tabs, it is four.
-/

namespace TemplateFormat

open TemplateFormat.Layout

/-- A style of indentation. -/
structure Indentation where
  size : Nat
  useSpaces : Bool
deriving DecidableEq, Repr

namespace Indentation

/-- How many lines that are not blank are looked at. -/
def lineLimit : Nat := 1000

/-- The size where the document does not tell. -/
def defaultSize : Nat := 4

/-- The widths that count as an indent size, in the order in which ties are
decided. -/
def candidateSizes : List Nat := [2, 3, 4, 6, 8]

/-- The glyphs that lead a line. -/
def isLead (r : Glyph) : Bool := r.isSpace && r != .char '\n'

/-- How a line is indented. -/
inductive Lead where
  | none
  | tabs
  | spaces (width : Nat)
deriving DecidableEq, Repr

/-- The lead of a line: tabs if there is one among its leading glyphs, else
spaces if there is one. -/
def Lead.ofLine (line : Text) : Lead :=
  let lead := line.takeWhile isLead
  if lead.contains (.char '\t') then .tabs
  else if lead.contains (.char ' ') then .spaces lead.length
  else .none

/-- The leads of the lines looked at. -/
def leads (source : Text) : List Lead :=
  (((source.splitOn (.char '\n')).filter (!Text.isBlank ·)).take lineLimit).map Lead.ofLine

/-- The size with the highest count among the candidates, the first of
several. -/
def pickSize (count : Nat → Nat) : Nat :=
  (candidateSizes.foldl (fun (best, most) size =>
    if most < count size then (size, count size) else (best, most)) (defaultSize, 0)).1

/-- The indentation of a document; none if no line looked at is indented. -/
def detect (source : Text) : Option Indentation :=
  let leads := leads source
  let tabs := leads.countP (· == .tabs)
  let widths := leads.filterMap fun
    | .spaces width => some width
    | _ => none
  if tabs + widths.length = 0 then none
  else
    let useSpaces := decide (tabs ≤ widths.length)
    some { useSpaces, size := if useSpaces then pickSize (widths.count ·) else defaultSize }

/-- The options with this indentation. -/
def apply (style : Indentation) (o : Options) : Options :=
  { o with indentSize := style.size, useSpaces := style.useSpaces }

end Indentation

end TemplateFormat
