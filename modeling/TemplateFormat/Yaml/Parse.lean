import TemplateFormat.Yaml.Node

/-!
# From tokens to nodes

`Parse.first` reads the first document of a stream.  What follows it is not
looked at, except that the scan reads some tokens ahead, so a stream that
breaks off there is refused.
-/

namespace TemplateFormat.Yaml

/-- The state of reading a document. -/
structure Parse where
  scan : Scan
  /-- What the handles of tags stand for. -/
  handles : List (Text × Text) := []
  /-- The numbers of the anchors seen so far, the last one first. -/
  anchors : List (Text × Nat) := []
  /-- The anchored nodes that are read whole. -/
  anchored : List (Nat × Node) := []

namespace Parse

/-- The next token. -/
def peek? (p : Parse) : Option (Token × Parse) := do
  let (tok, scan) ← p.scan.peek?
  return (tok, { p with scan })

/-- The state behind the next token. -/
def drop (p : Parse) : Parse := { p with scan := p.scan.drop }

/-- What stands before a node: an anchor, a tag, both in either order, or
nothing. -/
structure Properties where
  /-- The line the node starts on. -/
  line : Nat
  anchor : Option Text := none
  /-- The handle and the suffix of the tag. -/
  tag : Option (Text × Text) := none

/-- Reads an anchor, if one follows. -/
def readAnchor (props : Properties) (p : Parse) : Option (Properties × Parse) := do
  let (tok, p) ← p.peek?
  match tok.kind with
  | .anchor name => return ({ props with anchor := some name }, p.drop)
  | _ => return (props, p)

/-- Reads a tag, if one follows. -/
def readTag (props : Properties) (p : Parse) : Option (Properties × Parse) := do
  let (tok, p) ← p.peek?
  match tok.kind with
  | .tag handle suffix => return ({ props with tag := some (handle, suffix) }, p.drop)
  | _ => return (props, p)

/-- Reads what stands before a node. -/
def readProperties (p : Parse) : Option (Properties × Parse) := do
  let (tok, p) ← p.peek?
  let props : Properties := { line := tok.line }
  match tok.kind with
  | .anchor _ =>
    let (props, p) ← readAnchor props p
    readTag props p
  | .tag .. =>
    let (props, p) ← readTag props p
    readAnchor props p
  | _ => return (props, p)

/-- The tag of a node in full; empty without one, and none if its handle stands
for nothing. -/
def fullTag? (p : Parse) (props : Properties) : Option Text :=
  match props.tag with
  | none => some []
  | some (handle, suffix) =>
    if handle.isEmpty then some suffix
    else (p.handles.lookup handle).map (· ++ suffix)

/-- The tag that a node gets: the written one unless it is missing or a mere
mark, and then the implied one. -/
def chosenTag (full implied : Text) : Text :=
  if full.isEmpty || full = text "!" then implied else shortTag full

/-- Gives the next number to an anchor. -/
def openAnchor (p : Parse) : (anchor : Option Text) → Option Nat × Parse
  | none => (none, p)
  | some name =>
    let number := p.anchors.length
    (some number, { p with anchors := (name, number) :: p.anchors })

/-- Returns a node that is read whole, under its number if it has one. -/
def close (number : Option Nat) (node : Node) (p : Parse) : Node × Parse :=
  match number with
  | none => (node, p)
  | some n => (node, { p with anchored := (n, node) :: p.anchored })

/-- Where a node stands, which decides what may follow it and whether it may be
left out. -/
inductive Context where
  /-- An entry of a block sequence. -/
  | blockEntry
  /-- An entry of a block sequence at the column of its mapping. -/
  | indentlessEntry
  /-- A key or a value of a block mapping. -/
  | blockPart
  /-- A key of a flow mapping. -/
  | flowKey
  /-- A value of a flow mapping. -/
  | flowValue
  /-- A key of a single pair in a flow sequence. -/
  | pairKey
  /-- A value of a single pair in a flow sequence. -/
  | pairValue

/-- Whether a node is left out before this token. -/
def Context.leavesOut (context : Context) (kind : Token.Kind) : Bool :=
  match context with
  | .blockEntry => kind == .blockEntry || kind == .blockEnd
  | .indentlessEntry =>
    kind == .blockEntry || kind == .key || kind == .value || kind == .blockEnd
  | .blockPart => kind == .key || kind == .value || kind == .blockEnd
  | .flowKey => kind == .value || kind == .flowEntry || kind == .flowMappingEnd
  | .flowValue => kind == .flowEntry || kind == .flowMappingEnd
  | .pairKey => kind == .value || kind == .flowEntry || kind == .flowSequenceEnd
  | .pairValue => kind == .flowEntry || kind == .flowSequenceEnd

/-- Whether block collections may stand here. -/
def Context.isBlock : Context → Bool
  | .blockEntry | .indentlessEntry | .blockPart => true
  | _ => false

/-- Whether a sequence may stand at the column of its mapping. -/
def Context.isPart : Context → Bool
  | .blockPart => true
  | _ => false

/-- The line of a node that is left out: in a block that of the indicator before
it, in a flow collection that of the token behind it. -/
def Context.emptyLine (context : Context) (before behind : Nat) : Nat :=
  if context.isBlock then before else behind

/-- Whether the token behind a node that is left out goes with it.  In a single
pair the key that is left out takes it. -/
def Context.takesToken : Context → Bool
  | .pairKey => true
  | _ => false

mutual

/-- Reads a node.  `block` admits block collections and `indentless` a sequence
at the column of its mapping. -/
def read (block indentless : Bool) : (fuel : Nat) → Parse → Option (Node × Parse)
  | 0, _ => none
  | fuel + 1, p => do
    let (tok, p) ← p.peek?
    if let .alias name := tok.kind then
      return (.alias tok.line name (← p.anchors.lookup name), p.drop)
    let (props, p) ← p.readProperties
    let (tok, p) ← p.peek?
    let full ← p.fullTag? props
    let (number, p) := p.openAnchor props.anchor
    let line := props.line
    match tok.kind with
    | .scalar content plain =>
      return p.drop.close number (.scalar line (chosenTag full (impliedTag plain content)) content)
    | .flowSequence =>
      let (items, p) ← readFlowItems true fuel p.drop
      return p.close number (.sequence line (chosenTag full Tag.sequence) items)
    | .flowMapping =>
      let (pairs, p) ← readFlowPairs true fuel p.drop
      return p.close number (.mapping line (chosenTag full Tag.mapping) pairs)
    | kind =>
      if indentless && kind == .blockEntry then
        let (items, p) ← readIndentlessItems fuel p
        return p.close number (.sequence line (chosenTag full Tag.sequence) items)
      else if block && kind == .blockSequence then
        let (items, p) ← readBlockItems fuel p.drop
        return p.close number (.sequence line (chosenTag full Tag.sequence) items)
      else if block && kind == .blockMapping then
        let (pairs, p) ← readBlockPairs fuel p.drop
        return p.close number (.mapping line (chosenTag full Tag.mapping) pairs)
      else if props.anchor.isSome || !full.isEmpty then
        return p.close number (.scalar line (chosenTag full Tag.null) [])
      else none

/-- Reads a node that may be left out, behind an indicator on line `before`. -/
def readPart (context : Context) (before : Nat) : (fuel : Nat) → Parse → Option (Node × Parse)
  | 0, _ => none
  | fuel + 1, p => do
    let (tok, p) ← p.peek?
    if context.leavesOut tok.kind then
      let p := if context.takesToken then p.drop else p
      return (.unwritten (context.emptyLine before tok.line), p)
    else read context.isBlock context.isPart fuel p

/-- Reads a value behind its colon; one without a colon is left out. -/
def readValue (context : Context) : (fuel : Nat) → Parse → Option (Node × Parse)
  | 0, _ => none
  | fuel + 1, p => do
    let (tok, p) ← p.peek?
    if tok.kind == .value then readPart context tok.line fuel p.drop
    else return (.unwritten tok.line, p)

/-- Reads the entries of a block sequence up to its end. -/
def readBlockItems : (fuel : Nat) → Parse → Option (List Node × Parse)
  | 0, _ => none
  | fuel + 1, p => do
    let (tok, p) ← p.peek?
    match tok.kind with
    | .blockEntry =>
      let (item, p) ← readPart .blockEntry tok.line fuel p.drop
      let (items, p) ← readBlockItems fuel p
      return (item :: items, p)
    | .blockEnd => return ([], p.drop)
    | _ => none

/-- Reads the entries of a sequence at the column of its mapping. -/
def readIndentlessItems : (fuel : Nat) → Parse → Option (List Node × Parse)
  | 0, _ => none
  | fuel + 1, p => do
    let (tok, p) ← p.peek?
    if tok.kind == .blockEntry then
      let (item, p) ← readPart .indentlessEntry tok.line fuel p.drop
      let (items, p) ← readIndentlessItems fuel p
      return (item :: items, p)
    else return ([], p)

/-- Reads the pairs of a block mapping up to its end. -/
def readBlockPairs : (fuel : Nat) → Parse → Option (List (Node × Node) × Parse)
  | 0, _ => none
  | fuel + 1, p => do
    let (tok, p) ← p.peek?
    match tok.kind with
    | .key =>
      let (key, p) ← readPart .blockPart tok.line fuel p.drop
      let (value, p) ← readValue .blockPart fuel p
      let (pairs, p) ← readBlockPairs fuel p
      return ((key, value) :: pairs, p)
    | .blockEnd => return ([], p.drop)
    | _ => none

/-- Reads the entries of a flow sequence up to its end; all but the first
follow a comma, and one may be a single pair. -/
def readFlowItems (first : Bool) : (fuel : Nat) → Parse → Option (List Node × Parse)
  | 0, _ => none
  | fuel + 1, p => do
    let (tok, p) ← p.peek?
    if tok.kind == .flowSequenceEnd then return ([], p.drop)
    if !first && tok.kind != .flowEntry then none
    let (tok, p) ← (if first then p else p.drop).peek?
    match tok.kind with
    | .flowSequenceEnd => return ([], p.drop)
    | .key =>
      let (key, p) ← readPart .pairKey tok.line fuel p.drop
      let (value, p) ← readValue .pairValue fuel p
      let (items, p) ← readFlowItems false fuel p
      return (.mapping tok.line Tag.mapping [(key, value)] :: items, p)
    | _ =>
      let (item, p) ← read false false fuel p
      let (items, p) ← readFlowItems false fuel p
      return (item :: items, p)

/-- Reads the pairs of a flow mapping up to its end; all but the first follow a
comma, and one without a key indicator has no value. -/
def readFlowPairs (first : Bool) : (fuel : Nat) → Parse → Option (List (Node × Node) × Parse)
  | 0, _ => none
  | fuel + 1, p => do
    let (tok, p) ← p.peek?
    if tok.kind == .flowMappingEnd then return ([], p.drop)
    if !first && tok.kind != .flowEntry then none
    let (tok, p) ← (if first then p else p.drop).peek?
    match tok.kind with
    | .flowMappingEnd => return ([], p.drop)
    | .key =>
      let (key, p) ← readPart .flowKey tok.line fuel p.drop
      let (value, p) ← readValue .flowValue fuel p
      let (pairs, p) ← readFlowPairs false fuel p
      return ((key, value) :: pairs, p)
    | _ =>
      let (key, p) ← read false false fuel p
      let (tok, p) ← p.peek?
      let (pairs, p) ← readFlowPairs false fuel p
      return ((key, .unwritten tok.line) :: pairs, p)

end

/-- The version of YAML that a directive may name. -/
def version : Directive := .version 1 1

/-- Reads the directives of a document; none if a handle or the version is given
twice, or another version. -/
def readDirectives (versioned : Bool) : (fuel : Nat) → Parse → Option Parse
  | 0, _ => none
  | fuel + 1, p => do
    let (tok, p) ← p.peek?
    match tok.kind with
    | .directive (.version major minor) =>
      if versioned || Directive.version major minor ≠ version then none
      readDirectives true fuel p.drop
    | .directive (.handle handle lead) =>
      if (p.handles.lookup handle).isSome then none
      readDirectives versioned fuel { p.drop with handles := (handle, lead) :: p.handles }
    | _ => return { p with handles := p.handles ++ standardHandles }

/-- Whether a token cannot start the content of a document. -/
def endsDocument : Token.Kind → Bool
  | .documentStart | .documentEnd | .directive _ | .streamEnd => true
  | _ => false

/-- Reads the content of a document up to its end. -/
def readContent (fuel : Nat) (p : Parse) : Option Document := do
  let (root, p) ← read true false fuel p
  let (_, p) ← p.peek?
  return { root, anchored := p.anchored }

/-- Reads a document behind its start marker. -/
def readMarked (fuel : Nat) (p : Parse) : Option Document := do
  let (tok, p) ← p.peek?
  if endsDocument tok.kind then return { root := .unwritten tok.line }
  else readContent fuel p

/-- Reads the first document of a stream; there is none in an empty stream. -/
def readStream (fuel : Nat) (p : Parse) : Option (Option Document) := do
  let (tok, p) ← p.peek?
  if tok.kind == .streamEnd then return none
  let p ← readDirectives false fuel p
  match tok.kind with
  | .documentStart | .directive _ =>
    let (tok, p) ← p.peek?
    if tok.kind ≠ .documentStart then none
    readMarked fuel p.drop
  | _ => readContent fuel p

/-- A number of steps that suffices to read a stream. -/
def steps (stream : Text) : Nat := 16 * (stream.length + 4)

/-- The first document of a stream, if it can be read and holds one. -/
def first (stream : Text) : Option (Option Document) := do
  readStream (steps stream) { scan := ← Scan.ofStream stream }

end Parse

end TemplateFormat.Yaml
