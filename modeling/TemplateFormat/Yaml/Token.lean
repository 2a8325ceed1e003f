import TemplateFormat.Yaml.Scalar.Plain
import TemplateFormat.Yaml.Scalar.Block
import TemplateFormat.Yaml.Tag

/-!
# YAML tokens

The structure of a YAML stream is carried by indentation and by indicator
characters.  A `Scan` turns both into tokens, one after the other as they are
asked for: where a block collection starts and ends, where an entry, a key or a
value begins, and the scalars in between.

A key is recognised only when its `:` is reached, so its tokens are put in at
the place where it began.  That place is remembered until the key can no longer
end, and while it is the next token to be taken, more tokens are read; a place
that is already passed puts the tokens at the end.
-/

namespace TemplateFormat.Yaml

/-- What a token says about the structure of a stream. -/
inductive Token.Kind where
  | documentStart
  | documentEnd
  | directive (d : Directive)
  | blockSequence
  | blockMapping
  | blockEnd
  | flowSequence
  | flowSequenceEnd
  | flowMapping
  | flowMappingEnd
  | blockEntry
  | flowEntry
  | key
  | value
  | anchor (name : Text)
  | alias (name : Text)
  | tag (handle suffix : Text)
  | scalar (content : Text) (plain : Bool)
  | streamEnd
deriving DecidableEq, Repr

/-- A token and the line it starts on, counted from one. -/
structure Token where
  kind : Token.Kind
  line : Nat
deriving DecidableEq, Repr

/-- The place where a key may have begun. -/
structure KeyStart where
  /-- The key may still end. -/
  isOpen : Bool := false
  /-- A key must stand here: nothing else can, at this column. -/
  required : Bool := false
  /-- The number of tokens before it. -/
  number : Nat := 0
  index : Nat := 0
  line : Nat := 0
  column : Nat := 0

/-- The state of a scan. -/
structure Scan where
  cursor : Cursor
  /-- The tokens that were read and not yet taken. -/
  queue : List Token := []
  /-- The number of tokens that were taken. -/
  taken : Nat := 0
  /-- The column of the innermost block collection. -/
  indent : Int := -1
  /-- The columns of the block collections around it, the innermost first. -/
  outer : List Int := []
  /-- The last place a key may have begun in each open flow collection and in
  the block around them, the innermost first. -/
  keys : List KeyStart := [{}]
  /-- The numbers of the tokens that wait for a key to end, each with the number
  of flow collections open around the key. -/
  waiting : List (Nat × Nat) := []
  /-- A key may begin here. -/
  keyAllowed : Bool := true

namespace Scan

/-- How deep collections may be nested. -/
def depthLimit : Nat := 10000

/-- How far a key may reach. -/
def keyLimit : Nat := 1024

/-- The number of open flow collections. -/
def flowDepth (s : Scan) : Nat := s.keys.length - 1

/-- Whether a flow collection is open. -/
def inFlow (s : Scan) : Bool := 0 < s.flowDepth

/-- The number of the next token. -/
def nextNumber (s : Scan) : Nat := s.taken + s.queue.length

/-- Adds a token that starts at the given line. -/
def emitAt (s : Scan) (kind : Token.Kind) (line : Nat) : Scan :=
  { s with queue := s.queue ++ [⟨kind, line⟩] }

/-- Adds a token that starts here. -/
def emit (s : Scan) (kind : Token.Kind) : Scan := s.emitAt kind s.cursor.line

/-- Puts a token in as number `n`, or at the end if that number is taken. -/
def insert (s : Scan) (n : Nat) (kind : Token.Kind) (line : Nat) : Scan :=
  if n < s.taken then s.emitAt kind line
  else
    let i := n - s.taken
    { s with queue := s.queue.take i ++ ⟨kind, line⟩ :: s.queue.drop i }

/-- The cursor moved by `n` glyphs. -/
def skip (s : Scan) (n : Nat) : Scan := { s with cursor := s.cursor.skipMany n }

/-- The scan with another cursor. -/
def moveTo (s : Scan) (cursor : Cursor) : Scan := { s with cursor }

/-- Ends the block collections that stand further right than `column`; those
around the innermost one have the columns `outer`. -/
def unrollFrom (column : Int) (s : Scan) : (outer : List Int) → Scan
  | [] => s
  | indent :: rest =>
    if column < s.indent then
      unrollFrom column { s.emit .blockEnd with indent, outer := rest } rest
    else s

/-- Ends the block collections that stand further right than `column`. -/
def unroll (s : Scan) (column : Int) : Scan :=
  if s.inFlow then s else s.unrollFrom column s.outer

/-- Starts a block collection at a column that lies further right than the
innermost one; its token gets the number `n`. -/
def roll (s : Scan) (column : Nat) (n : Nat) (kind : Token.Kind) (line : Nat) : Option Scan :=
  if s.inFlow || (column : Int) ≤ s.indent then some s
  else if depthLimit ≤ s.outer.length then none
  else some { s.insert n kind line with indent := column, outer := s.indent :: s.outer }

/-- No token waits for the key of the given number. -/
def release (s : Scan) (number : Nat) : Scan :=
  { s with waiting := s.waiting.filter (·.1 != number) }

/-- Forgets the key that may have begun; none if it had to be one. -/
def forgetKey (s : Scan) : Option Scan :=
  match s.keys with
  | key :: rest =>
    if key.isOpen then
      if key.required then none
      else some ({ s with keys := { key with isOpen := false } :: rest }.release key.number)
    else some s
  | [] => some s

/-- Remembers that a key may begin here. -/
def rememberKey (s : Scan) : Option Scan :=
  if s.keyAllowed then do
    let s ← s.forgetKey
    let c := s.cursor
    let key : KeyStart :=
      { isOpen := true, required := !s.inFlow && s.indent == c.column, number := s.nextNumber,
        index := c.index, line := c.line, column := c.column }
    return { s with
      keys := key :: s.keys.tail, waiting := (key.number, s.flowDepth) :: s.waiting }
  else some s

/-- Whether a key that began at `key` may end here; none if it had to end
before. -/
def mayEnd? (s : Scan) (key : KeyStart) : Option Bool :=
  if !key.isOpen then some false
  else if key.line < s.cursor.line || key.index + keyLimit < s.cursor.index then
    if key.required then none else some false
  else some true

/-- The key that began with `depth` flow collections open. -/
def keyAt? (s : Scan) (depth : Nat) : Option KeyStart := s.keys.reverse[depth]?

/-- The scan with the key that began at a depth given up. -/
def giveUp (s : Scan) (depth : Nat) : Scan :=
  let i := s.keys.length - 1 - depth
  { s with keys := s.keys.modify i fun key => { key with isOpen := false } }

/-- Skips white space, comments and line ends.  A tab is white space only where
it cannot be taken for indentation.  While the loaded part of the stream leads
with a byte order mark, the first glyph of a line is passed over. -/
def skipGap : (fuel : Nat) → Scan → Option Scan
  | 0, s => some s
  | fuel + 1, s => do
    let c ← s.cursor.ensure 1
    let c := if c.column == 0 && c.leadsWithMark then c.skip else c
    let tabs := s.inFlow || !s.keyAllowed
    let c ← c.skipWhile fun r => r = .char ' ' || (tabs && r = .char '\t')
    let c ← if c.isAt '#' then c.skipComments (c.rest.length + 1) else some c
    if c.rest.head?.any isBreak then
      skipGap fuel { s.moveTo (← c.passLine) with keyAllowed := s.keyAllowed || !s.inFlow }
    else return s.moveTo c

/-- Ends all block collections and forgets the key that may have begun. -/
def endBlocks (s : Scan) : Option Scan := do
  let s ← (s.unroll (-1)).forgetKey
  return { s with keyAllowed := false }

/-- The end of the stream, on a line of its own. -/
def fetchEnd (s : Scan) : Option Scan := do
  let c := s.cursor
  let c := if c.column == 0 then c else { c with column := 0, line := c.line + 1 }
  return (← (s.moveTo c).endBlocks).emit .streamEnd

/-- A directive. -/
def fetchDirective (s : Scan) : Option Scan := do
  let s ← s.endBlocks
  let (directive, c) ← readDirective? s.cursor
  return (s.emit (.directive directive)).moveTo c

/-- A document marker. -/
def fetchMarker (s : Scan) (kind : Token.Kind) : Option Scan := do
  return ((← s.endBlocks).emit kind).skip 3

/-- The start of a flow collection. -/
def fetchFlowStart (s : Scan) (kind : Token.Kind) : Option Scan := do
  let s ← s.rememberKey
  if depthLimit ≤ s.flowDepth then none
  return { (s.emit kind).skip 1 with
    keys := { number := s.nextNumber } :: s.keys, keyAllowed := true }

/-- Leaves the innermost flow collection, if one is open.  No token waits any
longer for the last key in it, nor for one that the collection itself began, if
no key began in it. -/
def leaveFlow (s : Scan) : Scan :=
  match s.keys with
  | key :: outer :: rest => { s.release key.number with keys := outer :: rest }
  | _ => s

/-- The end of a flow collection. -/
def fetchFlowEnd (s : Scan) (kind : Token.Kind) : Option Scan := do
  let s ← s.forgetKey
  return { (s.leaveFlow.emit kind).skip 1 with keyAllowed := false }

/-- A comma between the entries of a flow collection. -/
def fetchFlowEntry (s : Scan) : Option Scan := do
  let s ← s.forgetKey
  return { (s.emit .flowEntry).skip 1 with keyAllowed := true }

/-- The dash of a block entry. -/
def fetchBlockEntry (s : Scan) : Option Scan := do
  if !s.inFlow && !s.keyAllowed then none
  let s ← s.roll s.cursor.column s.nextNumber .blockSequence s.cursor.line
  let s ← s.forgetKey
  return { (s.emit .blockEntry).skip 1 with keyAllowed := true }

/-- The question mark of an explicit key. -/
def fetchKey (s : Scan) : Option Scan := do
  if !s.inFlow && !s.keyAllowed then none
  let s ← s.roll s.cursor.column s.nextNumber .blockMapping s.cursor.line
  let s ← s.forgetKey
  return { (s.emit .key).skip 1 with keyAllowed := !s.inFlow }

/-- The colon of a value, which ends a key that began before it on the same
line. -/
def fetchValue (s : Scan) : Option Scan := do
  let key ← s.keys.head?
  if ← s.mayEnd? key then
    let s := s.insert key.number .key key.line
    let s ← s.roll key.column key.number .blockMapping key.line
    let s := (s.giveUp s.flowDepth).release key.number
    return { (s.emit .value).skip 1 with keyAllowed := false }
  else
    let s := s.giveUp s.flowDepth
    if !s.inFlow && !s.keyAllowed then none
    let s ← s.roll s.cursor.column s.nextNumber .blockMapping s.cursor.line
    return { (s.emit .value).skip 1 with keyAllowed := !s.inFlow }

/-- An anchor, or an alias of one. -/
def fetchAnchor (s : Scan) (kind : Text → Token.Kind) : Option Scan := do
  let s ← s.rememberKey
  let (name, c) ← readAnchor? s.cursor
  return { (s.emit (kind name)).moveTo c with keyAllowed := false }

/-- A tag. -/
def fetchTag (s : Scan) : Option Scan := do
  let s ← s.rememberKey
  let ((handle, suffix), c) ← readTag? s.cursor
  return { (s.emit (.tag handle suffix)).moveTo c with keyAllowed := false }

/-- A block scalar. -/
def fetchBlock (s : Scan) (literal : Bool) : Option Scan := do
  let s ← s.forgetKey
  let scalar ← Scalar.block? literal s.indent s.cursor
  return { (s.emit (.scalar scalar.content false)).moveTo scalar.cursor with keyAllowed := true }

/-- A quoted scalar. -/
def fetchQuoted (s : Scan) (double : Bool) : Option Scan := do
  let s ← s.rememberKey
  let scalar ← Scalar.quoted? double s.cursor
  return { (s.emit (.scalar scalar.content false)).moveTo scalar.cursor with keyAllowed := false }

/-- A plain scalar. -/
def fetchPlain (s : Scan) : Option Scan := do
  let s ← s.rememberKey
  let scalar ← Scalar.plain? s.inFlow (s.indent + 1) s.cursor
  return { (s.emit (.scalar scalar.content true)).moveTo scalar.cursor with
    keyAllowed := scalar.brokeLine }

/-- The characters that cannot start a plain scalar, whatever follows, or only
if no space follows. -/
def isIndicator (r : Glyph) : Bool := (text "-?:,[]\x7b\x7d#&*!|>\x27\x22%@`").contains r

/-- Whether a plain scalar may start with `r`, with `rest` behind it. -/
def startsPlain (s : Scan) (r : Glyph) (rest : Text) : Bool :=
  !(isBlankGlyph r || isBreak r || isIndicator r) ||
    (r = .char '-' && !rest.head?.any isBlankGlyph) ||
    (!s.inFlow && (r = .char '?' || r = .char ':') && !atBlank rest)

/-- Reads a token that starts with `r`, with `rest` behind it. -/
def fetchContent (s : Scan) (r : Glyph) (rest : Text) : Option Scan :=
  if r = .char '[' then s.fetchFlowStart .flowSequence
  else if r = .char '\x7b' then s.fetchFlowStart .flowMapping
  else if r = .char ']' then s.fetchFlowEnd .flowSequenceEnd
  else if r = .char '\x7d' then s.fetchFlowEnd .flowMappingEnd
  else if r = .char ',' then s.fetchFlowEntry
  else if r = .char '-' && atBlank rest then s.fetchBlockEntry
  else if r = .char '?' && (s.inFlow || atBlank rest) then s.fetchKey
  else if r = .char ':' && (s.inFlow || atBlank rest) then s.fetchValue
  else if r = .char '*' then s.fetchAnchor .alias
  else if r = .char '&' then s.fetchAnchor .anchor
  else if r = .char '!' then s.fetchTag
  else if r = .char '|' && !s.inFlow then s.fetchBlock true
  else if r = .char '>' && !s.inFlow then s.fetchBlock false
  else if r = .char '\x27' then s.fetchQuoted false
  else if r = .char '\x22' then s.fetchQuoted true
  else if s.startsPlain r rest then s.fetchPlain
  else none

/-- Passes a comment on the line of the token that was read last; behind a dash
it is left to what follows. -/
def passLineComment (s : Scan) : Option Scan := do
  if s.queue.getLast?.any (·.kind == .blockEntry) then return s
  return s.moveTo (← s.cursor.skipLineComment)

/-- Reads the next token. -/
def fetch (s : Scan) : Option Scan := do
  let s ← skipGap (s.cursor.rest.length + 2) s
  let s := s.unroll s.cursor.column
  let s := s.moveTo (← s.cursor.ensure 4)
  match s.cursor.rest with
  | [] => s.fetchEnd
  | r :: rest =>
    if s.cursor.column == 0 && r = .char '%' then s.fetchDirective
    else if s.cursor.atMarker "---" then s.fetchMarker .documentStart
    else if s.cursor.atMarker "..." then s.fetchMarker .documentEnd
    else do (← s.fetchContent r rest).passLineComment

/-- The number of tokens that are read ahead. -/
def readAhead : Nat := 3

/-- Reads tokens until enough are known and the next one waits for no key; none
if the stream cannot be read so far. -/
def fill : (fuel : Nat) → Scan → Option Scan
  | 0, s => some s
  | fuel + 1, s =>
    if s.queue.length < readAhead then do fill fuel (← s.fetch)
    else
      match s.waiting.lookup s.taken with
      | none => some s
      | some depth => do
        if ← s.mayEnd? (← s.keyAt? depth) then fill fuel (← s.fetch)
        else return s.giveUp depth

/-- The next token. -/
def peek? (s : Scan) : Option (Token × Scan) := do
  let s ← fill (s.cursor.rest.length + 2 * readAhead) s
  return (← s.queue.head?, s)

/-- The scan behind the next token. -/
def drop (s : Scan) : Scan := { s with queue := s.queue.tail, taken := s.taken + 1 }

/-- The scan of a stream. -/
def ofStream (stream : Text) : Option Scan := do
  return { cursor := ← Cursor.ofStream stream }

end Scan

end TemplateFormat.Yaml
