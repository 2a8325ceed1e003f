import TemplateFormat.Layout.Inline

/-!
# The printer: from tokens to indented lines

The printer walks over the tokens of a source and keeps the nesting depth and
the lines written so far.  At each token it writes a line, adds to the last
one, or puts a whole element on one line and goes on behind it.  Closers end
their level before they are written, openers start theirs after.

`Printer.step` is one such step, `Printer.run` all of them, and
`Printer.steps` lists each with the state before and after it.
-/

namespace TemplateFormat.Layout

open TemplateFormat.Markup

/-- What a layout is made from: the options, the tokens of the source and the
index of its elements. -/
structure Printer where
  options : Options
  tokens : List Token
  index : SourceIndex

/-- The state of a layout between two steps. -/
structure Printer.State where
  depth : Nat := 0
  /-- The lines written so far, the last one first. -/
  lines : List Text := []
  memo : SourceIndex.Memo := {}

namespace Printer

/-- The printer of a source. -/
def ofSource (options : Options) (source : Text) : Printer :=
  let tokens := Token.scan source
  { options, tokens, index := SourceIndex.build source tokens }

/-- The indentation of a level. -/
def indentation (p : Printer) (depth : Nat) : Text :=
  (List.replicate depth p.options.unit).flatten

/-- Writes a line at the current level. -/
def writeLine (p : Printer) (st : State) (line : Text) : State :=
  { st with lines := (p.indentation st.depth ++ line) :: st.lines }

/-- Adds to the last line. -/
def appendToLine (st : State) (more : Text) : State :=
  match st.lines with
  | [] => st
  | last :: rest => { st with lines := (last ++ more) :: rest }

/-- Whether text behind the tokens `before`, the nearest first, belongs to the
line of a start tag: walking back over text and interpolations, the first
other token is the start tag of an element that may stand on one line. -/
def isTrailing (p : Printer) (st : State) (before : List Token) : Bool :=
  p.options.inlineShort && !st.lines.isEmpty &&
    (before.dropWhile Token.isContent).head?.any fun tok =>
      tok.isStartTag && !tok.isChildless && inlineEligible tok.name

/-- Writes a text token: behind the line it belongs to, or on a line of its
own.  Behind an interpolation it keeps the space it had in the source. -/
def stepText (p : Printer) (st : State) (before : List Token) (tok : Token) : State :=
  if p.isTrailing st before then
    let spaced := tok.spaceBefore && before.head?.any (·.kind == .interpolation)
    appendToLine (if spaced then appendToLine st [.char ' '] else st) tok.literal
  else p.writeLine st tok.literal

/-- Writes a token on a line of its own: a closer ends its level first, an
opener starts one after. -/
def stepBlock (p : Printer) (st : State) (tok : Token) : State :=
  let st := if tok.closesBlock then { st with depth := st.depth - 1 } else st
  let st := p.writeLine st tok.literal
  if tok.opensBlock && !tok.isChildless then { st with depth := st.depth + 1 } else st

/-- One step at the token `tok`, between the tokens `before` (the nearest
first) and `after`.  The number tells how many of `after` the step takes. -/
def step (p : Printer) (st : State) (before : List Token) (tok : Token) (after : List Token) :
    Nat × State :=
  match tok.kind with
  | .interpolation => (0, p.writeLine st (Interpolation.normalize tok.literal))
  | .text => (0, p.stepText st before tok)
  | _ =>
    if p.options.inlineShort && tok.isStartTag && !tok.isChildless then
      match contentMerge p.options p.index tok after st.memo with
      | (some merged, memo) =>
        (merged.absorbed, p.writeLine { st with memo } merged.line)
      | (none, memo) =>
        match tightMerge p.options p.index tok after memo with
        | (some merged, memo) =>
          (merged.absorbed, p.writeLine { st with memo } merged.line)
        | (none, memo) => (0, p.stepBlock { st with memo } tok)
    else (0, p.stepBlock st tok)

/-- All steps over the tokens behind `before`, the first `skip` of which are
already taken. -/
def run (p : Printer) : (skip : Nat) → State → (before : List Token) → List Token → State
  | _, st, _, [] => st
  | skip + 1, st, before, tok :: after => run p skip st (tok :: before) after
  | 0, st, before, tok :: after =>
    let (taken, st) := p.step st before tok after
    run p taken st (tok :: before) after

/-- The state when all tokens are printed. -/
def final (p : Printer) : State := p.run 0 {} [] p.tokens

/-- The lines of a layout, joined. -/
def print (p : Printer) : Text := Text.join [.char '\n'] p.final.lines.reverse

/-- A step of a layout: where it was taken, and the state before and after. -/
structure Step where
  /-- The index of the token. -/
  index : Nat
  /-- The tokens before it, the nearest first. -/
  before : List Token
  token : Token
  after : List Token
  start : State
  finish : State

/-- The steps over the tokens behind `before`; `index` tokens stand before and
the first `skip` are already taken. -/
def stepsFrom (p : Printer) : (index skip : Nat) → State → (before : List Token) →
    List Token → List Step
  | _, _, _, _, [] => []
  | index, skip + 1, st, before, tok :: after =>
    stepsFrom p (index + 1) skip st (tok :: before) after
  | index, 0, st, before, tok :: after =>
    let (taken, finish) := p.step st before tok after
    { index, before, token := tok, after, start := st, finish } ::
      stepsFrom p (index + 1) taken finish (tok :: before) after

/-- The steps of a layout, in order. -/
def steps (p : Printer) : List Step := p.stepsFrom 0 0 {} [] p.tokens

end Printer

end TemplateFormat.Layout
