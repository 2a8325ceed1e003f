import TemplateFormat.Text.Glyph

/-!
# Positions in a document

An editor names a place by its line and by the number of UTF-16 code units
before it on the line; the formatter names it by its byte offset.  Both count
along one walk over the document, `marks`, which lists every glyph boundary with
its position.  A carriage return, a newline, or the two together end a line.
-/

namespace TemplateFormat.Editor

/-- A place as an editor names it. -/
structure Position where
  line : Int := 0
  character : Int := 0
deriving DecidableEq, Repr

/-- A part of a document. -/
structure Span where
  start : Position := {}
  stop : Position := {}
deriving DecidableEq, Repr

/-- A replacement of a part of a document. -/
structure Edit where
  span : Span
  newText : Text
deriving DecidableEq, Repr

namespace Position

/-- Whether one position comes before another. -/
def before (p q : Position) : Bool :=
  p.line < q.line || (p.line == q.line && p.character < q.character)

/-- The position behind the glyph `r`; `afterReturn` tells that a carriage
return stands before it. -/
def next (p : Position) (afterReturn : Bool) (r : Glyph) : Position :=
  if r = .char '\r' then { line := p.line + 1, character := 0 }
  else if r = .char '\n' then
    if afterReturn then p else { line := p.line + 1, character := 0 }
  else { p with character := p.character + r.units }

/-- The first boundary from the given one on at which `stop` holds, or the end
of the document. -/
def walk (stop : Nat → Position → Bool) :
    (offset : Nat) → (p : Position) → (afterReturn : Bool) → Text → Nat × Position
  | offset, p, _, [] => (offset, p)
  | offset, p, afterReturn, r :: s =>
    if stop offset p then (offset, p)
    else walk stop (offset + r.width) (p.next afterReturn r) (r == .char '\r') s

/-- The byte offset of a position: that of the first boundary not before it. -/
def toOffset (doc : Text) (p : Position) : Nat :=
  (walk (fun _ q => !q.before p) 0 {} false doc).1

/-- The position of a byte offset: that of the first boundary not before it. -/
def ofOffset (doc : Text) (offset : Int) : Position :=
  (walk (fun i _ => offset ≤ i) 0 {} false doc).2

end Position

/-- The span of a whole document. -/
def Span.whole (doc : Text) : Span := { stop := Position.ofOffset doc doc.width }

/-- The part of a document between two positions, in whichever order they
are. -/
def Span.slice (span : Span) (doc : Text) : Text :=
  let a := Position.toOffset doc span.start
  let b := Position.toOffset doc span.stop
  (doc.dropWidth (min a b)).takeWidth (max a b - min a b)

end TemplateFormat.Editor
