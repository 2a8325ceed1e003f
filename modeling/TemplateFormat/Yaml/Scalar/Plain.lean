import TemplateFormat.Yaml.Scalar.Basic

/-!
# Plain scalars

A plain scalar is written without quotes.  It ends before a comment, before a
colon that blank space follows, before the punctuation of a flow collection
inside one, and where a line starts too far left or with a document marker.
-/

namespace TemplateFormat.Yaml

/-- Whether a plain scalar ends before the text. -/
def endsPlain (inFlow : Bool) (s : Text) : Bool :=
  match s with
  | [] => true
  | r :: rest =>
    (r = .char ':' && atBlank rest) || (inFlow && (text ",?[]\x7b\x7d").contains r)

/-- Reads a plain scalar.  `indent` is the least column its further lines may
start in, `seen` what was read, in reverse, and `fresh` tells that white space
or the start of the scalar was just passed. -/
def readPlain (inFlow : Bool) (indent : Int) :
    (fuel : Nat) → Cursor → (seen : Text) → Pending → (fresh : Bool) → Option Scalar
  | 0, _, _, _, _ => none
  | fuel + 1, c, seen, pending, fresh =>
    let stop (c : Cursor) : Option Scalar :=
      some { content := seen.reverse, brokeLine := pending.hasBreak, cursor := c }
    if c.rest.head?.any isBlankGlyph then do
      if pending.hasBreak && c.column < indent && c.isAt '\t' then none
      let added := c.rest.head?.elim pending pending.addBlank
      readPlain inFlow indent fuel (← c.skip.ensure 1) seen added true
    else if c.rest.head?.any isBreak then do
      let added := pending.addBreak c.lineText
      readPlain inFlow indent fuel (← (← c.passLine).ensure 1) seen added true
    else if fresh && !seen.isEmpty && !inFlow && c.column < indent then stop c
    else do
      let c ← if fresh then c.ensure 4 else some c
      if fresh && (c.atAnyMarker || c.isAt '#') then stop c
      else if endsPlain inFlow c.rest then stop c
      else
        readPlain inFlow indent fuel (← c.skip.ensure 2)
          (c.rest.take 1 ++ pending.flush.reverse ++ seen) (.blanks []) false

/-- The plain scalar at a cursor. -/
def Scalar.plain? (inFlow : Bool) (indent : Int) (c : Cursor) : Option Scalar :=
  readPlain inFlow indent (c.rest.length + 1) c [] (.blanks []) true

end TemplateFormat.Yaml
