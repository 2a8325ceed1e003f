import TemplateFormat.Yaml.Scalar.Basic

/-!
# Block scalars

A block scalar is a literal or folded text that is set off by indentation.  Its
header, behind `|` or `>`, may tell how far it is indented and what becomes of
the line ends behind it; without a number the first line that is not empty, or
the longest empty one, gives the indentation.
-/

namespace TemplateFormat.Yaml

/-- What becomes of the line ends behind a block scalar. -/
inductive Chomping where
  /-- All are dropped. -/
  | strip
  /-- The first one is kept. -/
  | clip
  /-- All are kept. -/
  | keep
deriving DecidableEq, Repr

/-- The header of a block scalar. -/
structure BlockHeader where
  chomping : Chomping := .clip
  /-- The indentation relative to the collection around it; zero if it is not
  given. -/
  increment : Nat := 0

/-- The chomping indicator at a cursor, if there is one. -/
def readChomping? (c : Cursor) : Option (Chomping × Cursor) :=
  if c.isAt '+' then some (.keep, c.skip)
  else if c.isAt '-' then some (.strip, c.skip)
  else none

/-- The indentation indicator at a cursor, zero if there is none; a written zero
is refused. -/
def readIncrement? (c : Cursor) : Option (Nat × Cursor) :=
  match c.rest with
  | .char d :: _ =>
    if d = '0' then none
    else if d.isDigit then some (d.toNat - 48, c.skip)
    else some (0, c)
  | _ => some (0, c)

/-- Reads the two indicators of a header, in either order. -/
def readBlockHeader? (c : Cursor) : Option (BlockHeader × Cursor) := do
  let c ← c.ensure 1
  match readChomping? c with
  | some (chomping, c) =>
    let (increment, c) ← readIncrement? (← c.ensure 1)
    return ({ chomping, increment }, c)
  | none =>
    let (increment, c) ← readIncrement? c
    let c ← c.ensure 1
    match readChomping? c with
    | some (chomping, c) => return ({ chomping, increment }, c)
    | none => return ({ increment }, c)

/-- Passes the rest of a header's line, which may hold a comment. -/
def passHeaderLine? (c : Cursor) : Option Cursor := do
  let c ← c.skipBlanks
  let c ← if c.isAt '#' then c.skipToBreak else some c
  if !atBreak c.rest then none
  c.passLine

/-- Passes empty lines and the indentation of the next line.  Gives the widest
indentation seen and the line ends passed; an `indent` of zero is not known
yet. -/
def passEmptyLines (indent : Nat) :
    (fuel : Nat) → Cursor → (widest : Nat) → (breaks : Text) → Option (Nat × Text × Cursor)
  | 0, _, _, _ => none
  | fuel + 1, c, widest, breaks => do
    let c ← c.ensure 1
    let before := indent = 0 || c.column < indent
    if before && c.isAt ' ' then passEmptyLines indent fuel c.skip widest breaks
    else if before && c.isAt '\t' then none
    else
      let widest := max widest c.column
      if c.rest.head?.any isBreak then
        passEmptyLines indent fuel (← c.passLine) widest (breaks ++ c.lineText)
      else return (widest, breaks, c)

/-- The indentation of a block scalar for which none is given: that of its first
line, but at least one more than that of the collection around it. -/
def foundIndent (around : Int) (widest : Nat) : Nat := max (max widest (around + 1).toNat) 1

/-- Reads the lines of a block scalar.  `seen` is what was read, in reverse,
`first` the line end of the last line, `more` those of the empty lines behind
it, and `afterBlank` tells that the last line started with a blank. -/
def readBlockLines (literal : Bool) (indent : Nat) :
    (fuel : Nat) → Cursor → (seen first more : Text) → (afterBlank : Bool) →
    Option (Text × Text × Text × Cursor)
  | 0, _, _, _, _, _ => none
  | fuel + 1, c, seen, first, more, afterBlank =>
    if c.column == indent && !c.rest.isEmpty then do
      let onBlank := c.rest.head?.any isBlankGlyph
      let folds := !literal && !afterBlank && !onBlank && first == [.char '\n']
      let join := if folds then (if more.isEmpty then [.char ' '] else more) else first ++ more
      let (line, c) ← c.takeWhile (!isBreak ·)
      let c ← c.ensure 2
      let first := c.lineText
      let (_, more, c) ← passEmptyLines indent (c.rest.length + 2) c.skipLine 0 []
      readBlockLines literal indent fuel c (line.reverse ++ join.reverse ++ seen) first more onBlank
    else some (seen, first, more, c)

/-- The block scalar at a cursor, which stands before its indicator; `around` is
the column of the collection around it. -/
def Scalar.block? (literal : Bool) (around : Int) (c : Cursor) : Option Scalar := do
  let (header, c) ← readBlockHeader? c.skip
  let c ← passHeaderLine? c
  let given := if header.increment = 0 then 0 else (max around 0).toNat + header.increment
  let (widest, more, c) ← passEmptyLines given (c.rest.length + 2) c 0 []
  let indent := if given = 0 then foundIndent around widest else given
  let (seen, first, more, c) ←
    readBlockLines literal indent (c.rest.length + 2) c [] [] more false
  let tail := match header.chomping with
    | .strip => []
    | .clip => first
    | .keep => first ++ more
  return { content := seen.reverse ++ tail, cursor := c }

end TemplateFormat.Yaml
