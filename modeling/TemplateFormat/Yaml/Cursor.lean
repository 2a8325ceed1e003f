import TemplateFormat.Text.Utf16

/-!
# A place in a YAML stream

A stream starts with an optional byte order mark, which also tells its
encoding.  It is taken in blocks of `blockWidth` bytes: a block is loaded when
the reader looks further ahead than what is loaded, and only then are its
characters checked; that the stream ends inside a character is noticed when its
end is loaded.  So what stands far behind the part that is read does not matter,
and `Cursor.ensure` is the one operation that can fail.

The end of a stream can be loaded too, any number of times: each time counts as
one more glyph.
-/

namespace TemplateFormat.Yaml

/-- The byte order mark. -/
def byteOrderMark : Glyph := .char '\uFEFF'

/-- A space or a tab. -/
def isBlankGlyph (r : Glyph) : Bool := r = .char ' ' || r = .char '\t'

/-- A line end; besides the usual ones, the next-line character and the line
and paragraph separators. -/
def isBreak (r : Glyph) : Bool :=
  r = .char '\n' || r = .char '\r' || r = .char '\x85' || r = .char '\u2028' ||
    r = .char '\u2029'

/-- Whether a text is at its end or at a line end. -/
def atBreak (s : Text) : Bool :=
  match s with
  | [] => true
  | r :: _ => isBreak r

/-- Whether a text is at its end, or at a space, a tab or a line end. -/
def atBlank (s : Text) : Bool :=
  match s with
  | [] => true
  | r :: _ => isBlankGlyph r || isBreak r

/-- A letter, a digit, an underscore or a dash. -/
def isNameGlyph (r : Glyph) : Bool :=
  r.isLetter || r.isDigit || r = .char '_' || r = .char '-'

/-- The characters a stream may hold. -/
def isAllowed : Glyph → Bool
  | .stray _ => false
  | .char c =>
    let n := c.toNat
    n == 0x09 || n == 0x0A || n == 0x0D || (0x20 ≤ n && n ≤ 0x7E) || n == 0x85 ||
      (0xA0 ≤ n && n ≤ 0xFFFD) || 0x10000 ≤ n

/-- A place in a stream. -/
structure Cursor where
  /-- What follows. -/
  rest : Text
  /-- The stream is written in units of two bytes. -/
  wide : Bool := false
  /-- The stream ends inside a character. -/
  isCut : Bool := false
  /-- The number of glyphs that follow and are loaded. -/
  loaded : Nat := 0
  /-- A byte order mark stood at the cursor when a block was last loaded. -/
  leadsWithMark : Bool := false
  /-- The number of glyphs before. -/
  index : Nat := 0
  /-- The line, counted from one. -/
  line : Nat := 1
  column : Nat := 0
  /-- The number of line ends since the last glyph that was no white space. -/
  newlines : Nat := 0

namespace Cursor

/-- The number of bytes that are taken at once. -/
def blockWidth : Nat := 512

/-- The number of bytes a glyph takes in the stream. -/
def glyphWidth (wide : Bool) (r : Glyph) : Nat := if wide then 2 * r.units else r.width

/-- The number of whole glyphs among the first `room` bytes. -/
def blockLength (wide : Bool) : (room : Nat) → Text → Nat
  | _, [] => 0
  | room, r :: s =>
    if glyphWidth wide r ≤ room then blockLength wide (room - glyphWidth wide r) s + 1 else 0

/-- Loads the whole glyphs among the next `room` bytes, or else the end; none if
one of them is not allowed, or the end lies inside a character. -/
def loadBlock (room : Nat) (c : Cursor) : Option Cursor :=
  let ahead := c.rest.drop c.loaded
  let n := blockLength c.wide room ahead
  if ahead.isEmpty then if c.isCut then none else some { c with loaded := c.loaded + 1 }
  else if (ahead.take n).all isAllowed then some { c with loaded := c.loaded + n }
  else none

/-- Loads blocks until `n` glyphs are loaded or the end is. -/
def loadBlocks (n : Nat) : (fuel : Nat) → Cursor → Option Cursor
  | 0, c => some c
  | fuel + 1, c =>
    if n ≤ c.loaded then some c
    else if c.rest.length ≤ c.loaded then c.loadBlock blockWidth
    else do loadBlocks n fuel (← c.loadBlock blockWidth)

/-- Makes sure that the next `n` glyphs are loaded. -/
def ensure (c : Cursor) (n : Nat) : Option Cursor :=
  if n ≤ c.loaded then some c
  else loadBlocks n n { c with leadsWithMark := c.rest.head? == some byteOrderMark }

/-- The start of a stream that is written in the given units, behind a byte
order mark of `markWidth` bytes. -/
def atStart (wide : Bool) (markWidth : Nat) (glyphs : Text × Bool) : Option Cursor :=
  let (rest, isCut) := glyphs
  loadBlock (blockWidth - markWidth)
    { rest, wide, isCut, leadsWithMark := rest.head? == some byteOrderMark }

/-- A stream of fewer bytes is known to end when it is first looked at. -/
def tinyWidth : Nat := 3

/-- The start of a stream. -/
def ofStream (stream : Text) : Option Cursor := do
  let c ← match stream with
    | .stray 0xFF :: .stray 0xFE :: rest =>
      atStart true 2 (Text.decodeUnits false (Text.encode rest))
    | .stray 0xFE :: .stray 0xFF :: rest =>
      atStart true 2 (Text.decodeUnits true (Text.encode rest))
    | .char '\uFEFF' :: rest => atStart false 3 (Text.wholePart rest)
    | rest => atStart false 0 (Text.wholePart rest)
  if stream.width < tinyWidth && !c.rest.isEmpty then c.loadBlock blockWidth else some c

/-- The cursor behind the next glyph, which ends no line. -/
def skip (c : Cursor) : Cursor :=
  { c with
    rest := c.rest.tail
    loaded := c.loaded - 1
    index := c.index + 1
    column := c.column + 1
    newlines := if c.rest.head?.any isBlankGlyph then c.newlines else 0 }

/-- The cursor behind the next `n` glyphs, none of which ends a line. -/
def skipMany : (n : Nat) → Cursor → Cursor
  | 0, c => c
  | n + 1, c => skipMany n c.skip

/-- The number of glyphs of the line end at the cursor. -/
def breakLength (c : Cursor) : Nat := if c.rest.startsWith (text "\r\n") then 2 else 1

/-- The cursor behind a line end, if it stands before one. -/
def skipLine (c : Cursor) : Cursor :=
  if c.rest.head?.any isBreak then
    { c with
      rest := c.rest.drop c.breakLength
      loaded := c.loaded - c.breakLength
      index := c.index + c.breakLength
      line := c.line + 1
      column := 0
      newlines := c.newlines + 1 }
  else c

/-- How the line end at the cursor reads inside a scalar. -/
def lineText (c : Cursor) : Text :=
  match c.rest with
  | r :: _ =>
    if r = .char '\u2028' || r = .char '\u2029' then [r]
    else if isBreak r then [.char '\n']
    else []
  | [] => []

/-- Whether the given glyph follows. -/
def isAt (c : Cursor) (ch : Char) : Bool := c.rest.head? == some (.char ch)

/-- Whether a document marker, `---` or `...`, stands at the cursor. -/
def atMarker (c : Cursor) (marker : String) : Bool :=
  c.column == 0 && c.rest.startsWith (text marker) && atBlank (c.rest.drop 3)

/-- Whether a document marker of either kind stands at the cursor. -/
def atAnyMarker (c : Cursor) : Bool := c.atMarker "---" || c.atMarker "..."

/-- The cursor behind the glyphs of a class, and these glyphs, in order; `seen`
holds those before, in reverse. -/
def readWhile (p : Glyph → Bool) (seen : Text) : (fuel : Nat) → Cursor → Option (Text × Cursor)
  | 0, c => some (seen.reverse, c)
  | fuel + 1, c =>
    match c.rest with
    | [] => some (seen.reverse, c)
    | r :: _ =>
      if p r then do readWhile p (r :: seen) fuel (← c.skip.ensure 1)
      else some (seen.reverse, c)

/-- The glyphs of a class at the cursor, and the cursor behind them. -/
def takeWhile (c : Cursor) (p : Glyph → Bool) : Option (Text × Cursor) := do
  let c ← c.ensure 1
  readWhile p [] (c.rest.length + 1) c

/-- The cursor behind the glyphs of a class. -/
def skipWhile (c : Cursor) (p : Glyph → Bool) : Option Cursor := do
  return (← c.takeWhile p).2

/-- The cursor behind spaces and tabs. -/
def skipBlanks (c : Cursor) : Option Cursor := c.skipWhile isBlankGlyph

/-- The cursor at the end of its line. -/
def skipToBreak (c : Cursor) : Option Cursor := c.skipWhile (!isBreak ·)

/-- The cursor behind the line end at it, which is loaded whole. -/
def passLine (c : Cursor) : Option Cursor := do return (← c.ensure 2).skipLine

end Cursor

end TemplateFormat.Yaml
