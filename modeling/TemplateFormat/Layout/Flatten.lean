import TemplateFormat.Markup.Block
import TemplateFormat.Layout.Interpolation

/-!
# Flattening tokens to one line

`flatten` writes tokens side by side: single spaces between tokens, no white
space between two tags, and no padding just inside the elements that may
stand on one line.  The last three rules change the joined text,
`closeTagGaps`, `tightenOpenings` and `tightenClosings`; they look at
characters only, not at the tokens these came from.
-/

namespace TemplateFormat.Layout

open TemplateFormat.Markup

/-- The token as it stands on a line with others: interpolations in normal
form, all else as it is. -/
def renderInline (tok : Token) : Text :=
  match tok.kind with
  | .interpolation => Interpolation.normalize tok.literal
  | _ => tok.literal

/-- Whether a glyph is the lower-case letter `letter` up to case.  Besides its
upper case, `s` has the long s as a variant and `k` the Kelvin sign. -/
def foldsTo (letter r : Glyph) : Bool :=
  match letter, r with
  | .char 's', .char '\u017F' => true
  | .char 'k', .char '\u212A' => true
  | .char a, .char c => c.toNat < 128 && c.toLower == a
  | _, _ => false

/-- What follows `name`, which is in lower case, in a text that starts with it
up to case. -/
def afterFolded? : (name s : Text) → Option Text
  | [], s => some s
  | _ :: _, [] => none
  | a :: name, r :: s => if foldsTo a r then afterFolded? name s else none

/-- Leaves out the gaps between `>` and `<`.  `skipping` tells that the text
starts inside such a gap. -/
def closeTagGaps (skipping : Bool) : Text → Text
  | [] => []
  | r :: s =>
    if skipping && r.isGap then closeTagGaps true s
    else
      r :: closeTagGaps
        (r = .char '>' && (s.dropWhile Glyph.isGap).head? == some (.char '<')) s

/-- What follows the start tag of an element that may stand on one line; the
text starts behind its `<`. -/
def afterInlineOpening? (s : Text) : Option Text :=
  inlineElements.findSome? fun name =>
    match afterFolded? name s with
    | some (r :: rest) =>
      if r = .char '>' then some rest
      else if r.isGap then
        match rest.dropWhile (· != .char '>') with
        | _ :: tail => some tail
        | [] => none
      else none
    | _ => none

/-- Leaves out the gaps behind the start tags of elements that may stand on
one line.  `copy` glyphs belong to such a tag, and `skipping` tells that the
text starts in the gap behind one. -/
def tightenOpenings : (copy : Nat) → (skipping : Bool) → Text → Text
  | _, _, [] => []
  | copy + 1, _, r :: s => r :: tightenOpenings copy (copy == 0) s
  | 0, skipping, r :: s =>
    if skipping && r.isGap then tightenOpenings 0 true s
    else if r = .char '<' then
      match afterInlineOpening? s with
      | some tail => r :: tightenOpenings (s.length - tail.length) false s
      | none => r :: tightenOpenings 0 false s
    else r :: tightenOpenings 0 false s

/-- Whether the text starts with the closing tag of an element that may stand
on one line. -/
def startsInlineClosing (s : Text) : Bool :=
  match Text.after? (text "</") s with
  | none => false
  | some rest => inlineElements.any fun name =>
      match afterFolded? name rest with
      | some (r :: _) => r = .char '>'
      | _ => false

/-- Leaves out the gaps before the closing tags of elements that may stand on
one line. -/
def tightenClosings : Text → Text
  | [] => []
  | r :: s =>
    if r.isGap && startsInlineClosing (s.dropWhile Glyph.isGap) then tightenClosings s
    else r :: tightenClosings s

/-- The tokens on one line. -/
def flatten (tokens : List Token) : Text :=
  let line := Text.collapse (Text.join [.char ' '] (tokens.map renderInline))
  tightenClosings (tightenOpenings 0 false (closeTagGaps false line))

end TemplateFormat.Layout
