import TemplateFormat.Yaml.Scalar.Basic

/-!
# Quoted scalars

Between single quotes only the quote itself is special: it is written twice.
Between double quotes a backslash starts an escape, and at the end of a line it
takes the line end away.
-/

namespace TemplateFormat.Yaml

/-- The value of a hexadecimal digit. -/
def hexValue? : Glyph → Option Nat
  | .stray _ => none
  | .char c =>
    if c.isDigit then some (c.toNat - 48)
    else if 'a' ≤ c ∧ c ≤ 'f' then some (c.toNat - 87)
    else if 'A' ≤ c ∧ c ≤ 'F' then some (c.toNat - 55)
    else none

/-- The number that the first `n` hexadecimal digits of a text write. -/
def hexNumber? (n : Nat) (s : Text) : Option Nat :=
  if (s.take n).length < n then none
  else (s.take n).foldl (fun acc r => do return (← acc) * 16 + (← hexValue? r)) (some 0)

/-- The characters that the one-letter escapes write. -/
def letterEscapes : List (Char × Char) :=
  [('0', '\x00'), ('a', '\x07'), ('b', '\x08'), ('t', '\t'), ('\t', '\t'), ('n', '\n'),
    ('v', '\x0B'), ('f', '\x0C'), ('r', '\r'), ('e', '\x1B'), (' ', ' '), ('\x22', '\x22'),
    ('\x27', '\x27'), ('\\', '\\'), ('N', '\x85'), ('_', '\xA0'), ('L', '\u2028'),
    ('P', '\u2029')]

/-- The escapes that write a character by its number, with the number of
hexadecimal digits. -/
def numberEscapes : List (Char × Nat) := [('x', 2), ('u', 4), ('U', 8)]

/-- The character that the escape at a backslash writes, and the cursor behind
the escape. -/
def readEscape? (c : Cursor) : Option (Glyph × Cursor) :=
  match c.rest with
  | _ :: .char e :: _ =>
    let c := c.skip.skip
    match letterEscapes.lookup e with
    | some out => some (.char out, c)
    | none => do
      let digits ← numberEscapes.lookup e
      let c ← c.ensure digits
      let n ← hexNumber? digits c.rest
      if n.isValidChar then some (.char (Char.ofNat n), c.skipMany digits) else none
  | _ => none

/-- Reads a quoted scalar behind its opening quote.  `seen` is what was read, in
reverse, and `fresh` tells that white space was just passed. -/
def readQuoted (double : Bool) :
    (fuel : Nat) → Cursor → (seen : Text) → Pending → (fresh : Bool) → Option Scalar
  | 0, _, _, _, _ => none
  | fuel + 1, c, seen, pending, fresh =>
    let written := pending.flush.reverse ++ seen
    match c.rest with
    | [] => none
    | r :: rest =>
      if isBlankGlyph r then do
        readQuoted double fuel (← c.skip.ensure 1) seen (pending.addBlank r) true
      else if isBreak r then do
        let added := pending.addBreak c.lineText
        readQuoted double fuel (← (← c.passLine).ensure 1) seen added true
      else do
        let c ← if fresh then c.ensure 4 else some c
        if fresh && c.atAnyMarker then none
        else if r = .char (if double then '\x22' else '\x27') then
          if !double && rest.head? == some r then
            readQuoted double fuel (← c.skip.skip.ensure 2) (r :: written) (.blanks []) false
          else return { content := written.reverse, cursor := c.skip }
        else if double && r = .char '\\' then
          if rest.head?.any isBreak then
            let c ← c.ensure 3
            readQuoted double fuel (← c.skip.skipLine.ensure 1) written (.breaks [] []) true
          else
            let (out, c) ← readEscape? c
            readQuoted double fuel (← c.ensure 2) (out :: written) (.blanks []) false
        else readQuoted double fuel (← c.skip.ensure 2) (r :: written) (.blanks []) false

/-- The quoted scalar at a cursor, which stands before the opening quote. -/
def Scalar.quoted? (double : Bool) (c : Cursor) : Option Scalar := do
  let c ← c.skip.ensure 4
  readQuoted double (c.rest.length + 1) c [] (.blanks []) false

end TemplateFormat.Yaml
