import TemplateFormat.Yaml.Scalar.Quoted

/-!
# Tags and directives

A tag names the type of a node.  It is written in full, `!<…>`, or as a handle
and a suffix, `!!int` or `!e!point`; a directive at the head of the document
tells what a handle stands for.  The tags of the standard types are shown in
short: `!!int` for the full name of an integer.
-/

namespace TemplateFormat.Yaml

/-- What the names of the standard types start with. -/
def standardLead : Text := text "tag:yaml.org,2002:"

/-- A tag as messages show it, with the names of standard types in short. -/
def shortTag (tag : Text) : Text :=
  match Text.after? standardLead tag with
  | some name => text "!!" ++ name
  | none => tag

/-- The handles that need no directive, and what they stand for. -/
def standardHandles : List (Text × Text) :=
  [(text "!", text "!"), (text "!!", standardLead)]

/-- The characters of a tag besides those of names. -/
def isUriMark (r : Glyph) : Bool := (text ";/?:@&=+$,.!~*\x27()[]%").contains r

namespace Cursor

/-- The byte that a percent sign and two digits at the cursor write, and the
cursor behind them. -/
def readOctet? (c : Cursor) : Option (UInt8 × Cursor) := do
  let c ← c.ensure 3
  if !c.isAt '%' then none
  let n ← hexNumber? 2 c.rest.tail
  return (UInt8.ofNat n, c.skipMany 3)

/-- The further bytes of an escaped character; `n` of them are missing. -/
def readFurtherOctets? : (n : Nat) → Cursor → Option (List UInt8 × Cursor)
  | 0, c => some ([], c)
  | n + 1, c => do
    let (b, c) ← c.readOctet?
    if b < 0x80 ∨ 0xC0 ≤ b then none
    let (more, c) ← readFurtherOctets? n c
    return (b :: more, c)

/-- The bytes of the escaped character at the cursor. -/
def readEscapedBytes? (c : Cursor) : Option (List UInt8 × Cursor) := do
  let (b, c) ← c.readOctet?
  let (more, c) ← readFurtherOctets? ((← announcedLength? b) - 1) c
  return (b :: more, c)

/-- Reads the characters of a tag behind the bytes of `seen`. -/
def readUriFrom (seen : List UInt8) : (fuel : Nat) → Cursor → Option (List UInt8 × Cursor)
  | 0, c => some (seen, c)
  | fuel + 1, c =>
    match c.rest with
    | [] => some (seen, c)
    | r :: _ =>
      if r = .char '%' then do
        let (bytes, c) ← c.readEscapedBytes?
        readUriFrom (seen ++ bytes) fuel (← c.ensure 1)
      else if isNameGlyph r || isUriMark r then do
        readUriFrom (seen ++ r.bytes) fuel (← c.skip.ensure 1)
      else some (seen, c)

/-- The characters of a tag at the cursor, behind those of `head`; none if there
are none at all and `head` is none either. -/
def readUri? (c : Cursor) (head : Option Text) : Option (Text × Cursor) := do
  let c ← c.ensure 1
  let (bytes, d) ← readUriFrom [] (c.rest.length + 1) c
  if head.isNone && d.index == c.index then none
  return (head.getD [] ++ Text.decode ⟨bytes.toArray⟩, d)

/-- The handle at the cursor: an exclamation mark, a name, and another mark if
one follows. -/
def readHandle? (c : Cursor) : Option (Text × Cursor) := do
  let c ← c.ensure 1
  if !c.isAt '!' then none
  let (name, c) ← c.skip.takeWhile isNameGlyph
  let handle := .char '!' :: name
  return if c.isAt '!' then (handle ++ [.char '!'], c.skip) else (handle, c)

end Cursor

/-- Whether a handle has a mark at both ends. -/
def isFullHandle (handle : Text) : Bool :=
  1 < handle.length && handle.getLast? == some (.char '!')

/-- The handle and the suffix of the tag at a cursor, and the cursor behind it.
A tag in full has no handle, and neither has the mark alone. -/
def readTag? (c : Cursor) : Option ((Text × Text) × Cursor) := do
  let c ← c.ensure 2
  let (tag, c) ←
    if c.rest.startsWith (text "!<") then do
      let (suffix, c) ← (c.skipMany 2).readUri? none
      if !c.isAt '>' then none
      some (([], suffix), c.skip)
    else do
      let (handle, c) ← c.readHandle?
      if isFullHandle handle then
        let (suffix, c) ← c.readUri? none
        some ((handle, suffix), c)
      else
        let (suffix, c) ← c.readUri? handle.tail
        some (if suffix.isEmpty then ([], handle) else (text "!", suffix), c)
  let c ← c.ensure 1
  if atBlank c.rest then some (tag, c) else none

/-- The name of the anchor or alias at a cursor, which stands before its
indicator. -/
def readAnchor? (c : Cursor) : Option (Text × Cursor) := do
  let (name, c) ← c.skip.takeWhile isNameGlyph
  let ended := atBlank c.rest || c.rest.head?.any (text "?:,]\x7d%@`").contains
  if name.isEmpty || !ended then none
  return (name, c)

/-- A directive at the head of a document. -/
inductive Directive where
  /-- The version of YAML. -/
  | version (major minor : Nat)
  /-- What a handle stands for. -/
  | handle (handle lead : Text)
deriving DecidableEq, Repr

/-- The number of digits a version number may have. -/
def versionDigits : Nat := 2

/-- A version number at a cursor. -/
def readVersionNumber? (c : Cursor) : Option (Nat × Cursor) := do
  let (digits, c) ← c.takeWhile Glyph.isDigit
  if digits.isEmpty || versionDigits < digits.length then none
  return (digits.foldl (fun n r => 10 * n + (r.code - 48)) 0, c)

/-- What follows the name of a version directive. -/
def readVersion? (c : Cursor) : Option (Directive × Cursor) := do
  let (major, c) ← readVersionNumber? (← c.skipBlanks)
  if !c.isAt '.' then none
  let (minor, c) ← readVersionNumber? c.skip
  return (.version major minor, c)

/-- What follows the name of a handle directive. -/
def readHandleDirective? (c : Cursor) : Option (Directive × Cursor) := do
  let (handle, c) ← (← c.skipBlanks).readHandle?
  if handle ≠ text "!" ∧ !isFullHandle handle then none
  let c ← c.ensure 1
  if !c.rest.head?.any isBlankGlyph then none
  let (lead, c) ← (← c.skipBlanks).readUri? none
  let c ← c.ensure 1
  if !atBlank c.rest then none
  return (.handle handle lead, c)

/-- The directive at a cursor, which stands before the percent sign, and the
cursor behind its line. -/
def readDirective? (c : Cursor) : Option (Directive × Cursor) := do
  let (name, c) ← c.skip.takeWhile isNameGlyph
  if !atBlank c.rest then none
  let (directive, c) ←
    if name = text "YAML" then readVersion? c
    else if name = text "TAG" then readHandleDirective? c
    else none
  let c ← c.skipBlanks
  let c ← if c.isAt '#' then c.skipToBreak else some c
  if !atBreak c.rest then none
  return (directive, ← c.passLine)

end TemplateFormat.Yaml
