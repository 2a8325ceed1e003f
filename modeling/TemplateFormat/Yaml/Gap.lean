import TemplateFormat.Yaml.Cursor

/-!
# Comments

A comment runs from `#` to the end of its line.  Comments on lines that follow
each other, with nothing but white space between them, are passed over as one,
whatever they are indented with; the reader looks `lookAhead` glyphs ahead for
the next one.  A comment on the line of a token is passed over with the token.
-/

namespace TemplateFormat.Yaml

/-- How far ahead a comment is looked for. -/
def lookAhead : Nat := 512

/-- White space that may stand before a comment on a later line. -/
def isGapGlyph (r : Glyph) : Bool := isBlankGlyph r || r = .char '\n' || r = .char '\r'

/-- The number of glyphs of a class at the start of a text, up to `limit`. -/
def runLength (p : Glyph → Bool) (limit : Nat) (s : Text) : Nat :=
  ((s.take limit).takeWhile p).length

namespace Cursor

/-- The cursor moved over white space until `target` glyphs stand before it. -/
def passGap (target : Nat) : (fuel : Nat) → Cursor → Option Cursor
  | 0, c => some c
  | fuel + 1, c => do
    let c ← c.ensure 1
    if target ≤ c.index then return c
    else if c.rest.head?.any isBreak then passGap target fuel (← c.passLine)
    else passGap target fuel c.skip

/-- The cursor behind the comment at it and behind those that follow, each at
the end of its line. -/
def skipComments : (fuel : Nat) → Cursor → Option Cursor
  | 0, c => some c
  | fuel + 1, c => do
    let c ← c.skipToBreak
    let plainEnd := c.rest.head?.any isGapGlyph
    let gap := if plainEnd then runLength isGapGlyph (lookAhead - 1) c.rest.tail else 0
    let c ← c.ensure (min (gap + 2) lookAhead)
    if plainEnd && gap + 1 < lookAhead && (c.rest.drop (gap + 1)).head? == some (.char '#') then
      skipComments fuel (← passGap (c.index + gap + 1) (gap + 2) c)
    else return c

/-- The cursor behind a comment on the same line, if one follows and the line
was not just begun. -/
def skipLineComment (c : Cursor) : Option Cursor := do
  if 0 < c.newlines then return c
  let gap := runLength isBlankGlyph lookAhead c.rest
  let c ← c.ensure (min (gap + 1) lookAhead)
  if gap < lookAhead && (c.rest.drop gap).head? == some (.char '#') then c.skipToBreak
  else return c

end Cursor

end TemplateFormat.Yaml
