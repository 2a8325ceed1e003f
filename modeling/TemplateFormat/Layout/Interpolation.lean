import TemplateFormat.Markup.Lexeme

/-!
# Interpolations: the normal form of `{{ expr }}`

An expression is written with one space inside each marker, single spaces
for runs of white space outside string literals, ` | ` between the segments
of a pipe, and single spaces around binary operators.  The three changes
are `collapseOutside`, `splitPipes` and `spaceOperators`, applied in this
order.  An interpolation that lacks its closing marker is left alone.
-/

namespace TemplateFormat.Layout.Interpolation

open TemplateFormat.Markup

/-- The operators of more than one character, longest first. -/
def compoundOperators : List Text :=
  ["===", "!==", "&&", "||", "==", "!=", "<=", ">="].map text

/-- The operators of one character. -/
def isSingleOperator (r : Glyph) : Bool :=
  r = .char '+' || r = .char '-' || r = .char '*' || r = .char '/' || r = .char '<' ||
    r = .char '>'

/-- Replaces each run of spaces outside quotes by one space and drops one at
the end.  `prev` is the glyph before the text, `gap` tells that it ends a run
of spaces, and `seen` is what was written so far, in reverse. -/
def collapseFrom (prev : Option Glyph) (q : Quote) (gap : Bool) (seen : Text) : Text → Text
  | [] => seen.reverse
  | r :: s =>
    if q.isOutside && r.isSpace then collapseFrom (some r) q true seen s
    else
      collapseFrom (some r) (q.next prev r) false
        (if gap then r :: .char ' ' :: seen else r :: seen) s

/-- The expression with each run of spaces outside quotes written as one
space. -/
def collapseOutside (expr : Text) : Text := collapseFrom none .outside false [] expr

/-- The segments of an expression between single pipe characters, not trimmed;
`||` divides nothing.  `pending` holds the current segment in reverse. -/
def pipeSegments (pending : Text) : Text → List Text
  | [] => [pending.reverse]
  | [r] => if r = .char '|' then [pending.reverse, []] else [(r :: pending).reverse]
  | a :: b :: s =>
    if a = .char '|' then
      if b = .char '|' then pipeSegments (b :: a :: pending) s
      else pending.reverse :: pipeSegments [] (b :: s)
    else pipeSegments (a :: pending) (b :: s)

/-- The expression with ` | ` between its segments; quotes do not hide a
pipe character. -/
def splitPipes (expr : Text) : Text :=
  match pipeSegments [] expr with
  | [_] => expr
  | segments => Text.join (text " | ") (segments.map Text.trim)

/-- The compound operator at the start of a text. -/
def compoundAt? (s : Text) : Option Text := compoundOperators.find? (·.isPrefixOf s)

/-- Writes the operators of a text with single spaces around them.  `skip`
glyphs, and then any spaces if `closeUp` is set, belong to an operator already
written; `prev` is the glyph before the text; `seen` is what was written so
far, in reverse. -/
def spaceFrom : (skip : Nat) → (closeUp : Bool) → (prev : Option Glyph) → Quote → (seen : Text) →
    Text → Text
  | _, _, _, _, seen, [] => seen.reverse
  | skip + 1, closeUp, _, q, seen, r :: s => spaceFrom skip closeUp (some r) q seen s
  | 0, closeUp, prev, q, seen, r :: s =>
    if closeUp && r = .char ' ' then spaceFrom 0 true (some r) q seen s
    else
      let q' := q.next prev r
      if !q'.isOutside || r = .char '\x27' || r = .char '\x22' then
        spaceFrom 0 false (some r) q' (r :: seen) s
      else
        match compoundAt? (r :: s) with
        | some op =>
          spaceFrom (op.length - 1) true (some r) q'
            (.char ' ' :: op.reverse ++ .char ' ' :: seen.dropWhile (· == .char ' ')) s
        | none =>
          if isSingleOperator r && prev.any (· != .char ' ') && s.head?.any (· != .char ' ') then
            spaceFrom 0 false (some r) q' (.char ' ' :: r :: .char ' ' :: seen) s
          else spaceFrom 0 false (some r) q' (r :: seen) s

/-- The expression with single spaces around compound operators, and around
single-character operators that stand directly between two operands; quoted
parts are copied as they are. -/
def spaceOperators (expr : Text) : Text := spaceFrom 0 false none .outside [] expr

/-- The text between the markers of a closed interpolation. -/
def inner? (literal : Text) : Option Text :=
  match Text.after? interpolationOpen literal with
  | some rest =>
    if rest.endsWith interpolationClose then
      some (rest.take (rest.length - interpolationClose.length))
    else none
  | none => none

/-- The normal form of an interpolation. -/
def normalize (literal : Text) : Text :=
  match inner? literal with
  | none => literal
  | some expr =>
    let expr := expr.trim
    if expr.isEmpty then interpolationOpen ++ text "  " ++ interpolationClose
    else
      interpolationOpen ++ text " " ++
        Text.trim (spaceOperators (splitPipes (collapseOutside expr))) ++
        text " " ++ interpolationClose

end TemplateFormat.Layout.Interpolation
