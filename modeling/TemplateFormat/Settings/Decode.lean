import TemplateFormat.Settings.Basic
import TemplateFormat.Yaml.Parse
import TemplateFormat.Text.Quoted

/-!
# Reading settings

`Settings.decode` reads the text of a settings file: a YAML mapping whose keys
are the names of settings.  A text that is no YAML is refused as a whole, and so
is one with a value that does not fit its own tag.  In a mapping, what does not
fit is collected and reported together: keys that name no setting, values of the
wrong kind, and keys given twice, which are reported alone.

Mappings under the merge key are read after the one they are merged into, and
set only what is not set before.
-/

namespace TemplateFormat

open TemplateFormat.Yaml

namespace Settings

/-- The kinds of values a setting, or the whole file, can ask for. -/
inductive Target where
  | int
  | bool
  | string
  | strings
  | settings
  /-- A whole number that may be missing. -/
  | optionalInt
  /-- A truth value that may be missing. -/
  | optionalBool
deriving DecidableEq, Repr

namespace Target

/-- The name of a kind in messages. -/
def label : Target → String
  | .int => "int"
  | .bool => "bool"
  | .string => "string"
  | .strings => "[]string"
  | .settings => "config.Config"
  | .optionalInt => "*int"
  | .optionalBool => "*bool"

/-- The kind that is asked for where a node has the tag of a null. -/
def orMissing : Target → Target
  | .int => .optionalInt
  | .bool => .optionalBool
  | target => target

end Target

/-- Something in a settings file that does not fit. -/
inductive Mismatch where
  | duplicateKey (line : Nat) (key : Text) (firstLine : Nat)
  | unknownField (line : Nat) (name : Text)
  | repeatedField (line : Nat) (name : Text)
  | wrongValue (line : Nat) (tag value : Text) (target : Target)
deriving DecidableEq, Repr

/-- The longest value that a message shows whole, in bytes. -/
def shownWidth : Nat := 10

/-- The number of bytes a message shows of a longer value. -/
def cutWidth : Nat := 7

/-- A value as a message shows it. -/
def shownValue (value : Text) : Text :=
  if shownWidth < value.width then
    Text.decode ⟨(value.encode.take cutWidth).toArray⟩ ++ text "..."
  else value

/-- A value behind its tag as a message shows it; one with the tag of a
collection is not set off. -/
def taggedValue (tag value : Text) : Text :=
  if tag = Tag.sequence || tag = Tag.mapping then tag ++ value
  else tag ++ text " `" ++ shownValue value ++ text "`"

/-- The wording of a mismatch. -/
def Mismatch.message : Mismatch → Text
  | .duplicateKey line key firstLine =>
    text "line " ++ Text.ofNat line ++ text ": mapping key " ++ key.quoted ++
      text " already defined at line " ++ Text.ofNat firstLine
  | .unknownField line name =>
    text "line " ++ Text.ofNat line ++ text ": field " ++ name ++ text " not found in type " ++
      text Target.settings.label
  | .repeatedField line name =>
    text "line " ++ Text.ofNat line ++ text ": field " ++ name ++ text " already set in type " ++
      text Target.settings.label
  | .wrongValue line tag value target =>
    text "line " ++ Text.ofNat line ++ text ": cannot unmarshal " ++ taggedValue tag value ++
      text " into " ++ text target.label

/-- Why the text of a settings file is refused. -/
inductive DecodeFault where
  /-- It is no YAML, or a value does not fit its own tag. -/
  | unreadable
  /-- Parts of it do not fit. -/
  | mismatches (found : List Mismatch)
deriving DecidableEq, Repr

/-- The wording of a refusal. -/
def DecodeFault.message : DecodeFault → Text
  | .unreadable => text "decoding config: yaml: unreadable document"
  | .mismatches found =>
    text "decoding config: yaml: unmarshal errors:" ++
      found.flatMap fun m => text "\n  " ++ m.message

/-- The content by which two keys of a mapping are told apart, and whether they
are scalars, sequences, mappings or aliases. -/
def keyIdentity : Node → Nat × Text
  | .scalar _ _ content => (0, content)
  | .sequence .. => (1, [])
  | .mapping .. => (2, [])
  | .alias _ name _ => (3, name)

/-- The keys of a mapping that were given before. -/
def duplicates : List (Node × Node) → List Mismatch
  | [] => []
  | (key, _) :: rest =>
    ((rest.filter fun pair => keyIdentity pair.1 == keyIdentity key).map fun pair =>
        .duplicateKey pair.1.line (keyIdentity key).2 key.line) ++
      duplicates rest

/-- What was read, if anything, and what did not fit. -/
abbrev Reading (α : Type) := Option α × List Mismatch

/-- A node where another kind of value was asked for. -/
def wrongKind (target : Target) (node : Node) : List Mismatch :=
  let target := if node.tag = Tag.null then target.orMissing else target
  match node with
  | .scalar line tag content => [.wrongValue line tag content target]
  | .mapping line tag pairs =>
    if (duplicates pairs).isEmpty then [.wrongValue line tag [] target] else duplicates pairs
  | node => [.wrongValue node.line node.tag [] target]

/-- A real number cut to a word of sixty-four bits; a number below all words is
the least one. -/
def cutToWord? : RealValue → Option Int
  | .cut n =>
    if n < leastWord then some leastWord
    else if n < -leastWord then some n
    else if n = -leastWord then some leastWord
    else none
  | .infinite true => some leastWord
  | _ => none

/-- The words that stand for a truth value besides `true` and `false`. -/
def truthWord? (s : Text) : Option Bool :=
  if ["y", "Y", "yes", "Yes", "YES", "on", "On", "ON"].any (text · = s) then some true
  else if ["n", "N", "no", "No", "NO", "off", "Off", "OFF"].any (text · = s) then some false
  else none

/-- The whole number that a meaning gives; a real number is cut. -/
def intOf? : Meaning → Option Int
  | .whole n => if n < -leastWord then some n else none
  | .real x => cutToWord? x
  | _ => none

/-- The truth value that a meaning gives. -/
def boolOf? : Meaning → Option Bool
  | .truth b => some b
  | .text s => truthWord? s
  | _ => none

/-- Reads a scalar by what its meaning gives; a null gives nothing.  None if the
scalar does not fit its own tag. -/
def readScalar {α : Type} (target : Target) (value? : Meaning → Option α) (node : Node) :
    Option (Reading α) :=
  match node with
  | .scalar _ tag content => do
    let m ← Meaning.ofTagged? tag content
    if m = .null then return (none, [])
    match value? m with
    | some v => return (some v, [])
    | none => return (none, wrongKind target node)
  | node => some (none, wrongKind target node)

/-- The text that a scalar gives: what is written, or the bytes it stands
for. -/
def textOf (node : Node) (m : Meaning) : Option Text :=
  match node, m with
  | .scalar _ tag content, .text s => some (if tag = Tag.binary then s else content)
  | .scalar _ _ content, _ => some content
  | _, _ => none

/-- Reads a text: any scalar but null. -/
def readText (node : Node) : Option (Reading Text) := readScalar .string (textOf node) node

/-- Reads a list of texts; entries that are null or do not fit are left out. -/
def readTexts (doc : Document) (node : Node) : Option (Reading (List Text)) :=
  match node with
  | .sequence _ _ items => do
    let readings ← items.mapM fun item => readText (doc.follow item)
    return (some (readings.filterMap (·.1)), readings.flatMap (·.2))
  | node => readScalar .strings (fun _ => none) node

/-- The names of the settings. -/
inductive Field where
  | indentSize
  | useSpaces
  | inlineShort
  | threshold
  | keepMultiline
  | detectIndentation
  | extensions
deriving DecidableEq, Repr

/-- The settings by the keys that name them. -/
def Field.table : List (String × Field) := [
  ("indent_size", .indentSize),
  ("use_spaces", .useSpaces),
  ("inline_short_elements", .inlineShort),
  ("short_element_threshold", .threshold),
  ("preserve_user_multiline", .keepMultiline),
  ("detect_indentation", .detectIndentation),
  ("extensions", .extensions)]

/-- The setting that a key names. -/
def Field.ofName? (name : Text) : Option Field :=
  (Field.table.find? (text ·.1 = name)).map (·.2)

/-- Reads the value of a setting. -/
def readField (doc : Document) (c : Settings) (field : Field) (value : Node) :
    Option (Settings × List Mismatch) := do
  match field with
  | .indentSize =>
    let (v, faults) ← readScalar .int intOf? value
    return ({ c with indentSize := v }, faults)
  | .useSpaces =>
    let (v, faults) ← readScalar .bool boolOf? value
    return ({ c with useSpaces := v }, faults)
  | .inlineShort =>
    let (v, faults) ← readScalar .bool boolOf? value
    return ({ c with inlineShort := v }, faults)
  | .threshold =>
    let (v, faults) ← readScalar .int intOf? value
    return ({ c with threshold := v }, faults)
  | .keepMultiline =>
    let (v, faults) ← readScalar .bool boolOf? value
    return ({ c with keepMultiline := v }, faults)
  | .detectIndentation =>
    let (v, faults) ← readScalar .bool boolOf? value
    return ({ c with detectIndentation := v }, faults)
  | .extensions =>
    let (v, faults) ← readTexts doc value
    return ({ c with extensions := v }, faults)

/-- What was read of a document so far. -/
structure Progress where
  settings : Settings := {}
  faults : List Mismatch := []
  /-- While mappings are merged in: the names that are set and must stay. -/
  fixed : Option (List Text) := none

namespace Progress

/-- Adds what does not fit. -/
def blame (p : Progress) (faults : List Mismatch) : Progress :=
  { p with faults := p.faults ++ faults }

/-- Whether a name must stay as it is. -/
def isFixed (p : Progress) (name : Text) : Bool := p.fixed.any (·.contains name)

/-- Fixes a name, if names are fixed at all. -/
def fix (p : Progress) (name : Text) : Progress := { p with fixed := p.fixed.map (name :: ·) }

end Progress

/-- Reads a key and its value.  A null key, and one whose name must stay as it
is, are passed over.  `own` are the settings that the mapping itself set. -/
def readPair (doc : Document) (own : List Field) (p : Progress) (key value : Node) :
    Option (List Field × Progress) := do
  match ← readText (doc.follow key) with
  | (none, faults) => return (own, p.blame faults)
  | (some name, _) =>
    if p.isFixed name then return (own, p)
    let p := p.fix name
    match Field.ofName? name with
    | none => return (own, p.blame [.unknownField key.line name])
    | some field =>
      if own.contains field then return (own, p.blame [.repeatedField key.line name])
      let (settings, faults) ← readField doc p.settings field (doc.follow value)
      return (field :: own, { p with settings }.blame faults)

/-- Reads the keys and values of a mapping, but not what is merged into it. -/
def readPairs (doc : Document) (p : Progress) (pairs : List (Node × Node)) : Option Progress := do
  let own := pairs.filter (!·.1.isMergeKey)
  let (_, p) ← own.foldlM (fun (own, p) (key, value) => readPair doc own p key value) ([], p)
  return p

/-- The name that a key sets, for the mappings that are merged in.  A key that is
no scalar cannot be compared with theirs. -/
def keyName (doc : Document) (key : Node) : Option (Reading Text) :=
  match doc.follow key with
  | .scalar _ tag content => do
    match ← Meaning.ofTagged? tag content with
    | .text s => return (some s, [])
    | _ => return (none, [])
  | .mapping _ _ pairs => if (duplicates pairs).isEmpty then none else some (none, duplicates pairs)
  | _ => none

/-- Fixes the names that a mapping sets, unless names are fixed already. -/
def fixNames (doc : Document) (pairs : List (Node × Node)) (p : Progress) : Option Progress :=
  if p.fixed.isSome then some p
  else do
    let names : List (Reading Text) ← pairs.mapM fun pair => keyName doc pair.1
    let p := { p with fixed := some (names.filterMap Prod.fst) }
    return p.blame (names.flatMap Prod.snd)

/-- The mappings to be merged in: a mapping, or a sequence of mappings. -/
def mergedNodes? (doc : Document) (value : Node) : Option (List Node) :=
  let nodes := match value with
    | .sequence _ _ items => items
    | node => [node]
  let nodes := nodes.map doc.follow
  if nodes.all Node.isMapping then some nodes else none

/-- Reads a mapping and what is merged into it.  `fuel` bounds how deep mappings
are merged into each other: only one that is merged into itself goes deeper. -/
def readMapping (doc : Document) : (fuel : Nat) → Progress → Node → Option Progress
  | 0, _, _ => none
  | fuel + 1, p, node =>
    match node with
    | .mapping _ _ pairs =>
      if !(duplicates pairs).isEmpty then some (p.blame (duplicates pairs))
      else do
        let p ← readPairs doc p pairs
        match (pairs.filter (·.1.isMergeKey)).getLast? with
        | none => return p
        | some (_, value) =>
          let merged ← mergedNodes? doc value
          let q ← merged.foldlM (readMapping doc fuel) (← fixNames doc pairs p)
          return if p.fixed.isNone then { q with fixed := none } else q
    | node => some (p.blame (wrongKind .settings node))

/-- Reads the settings of a document. -/
def ofDocument (fuel : Nat) (doc : Document) : Option Progress :=
  match doc.root with
  | .mapping .. => readMapping doc fuel {} doc.root
  | root => do
    let (_, faults) ← readScalar .settings (fun _ => (none : Option Unit)) root
    return { faults }

/-- Reads the text of a settings file; an empty one sets nothing. -/
def decode (source : Text) : Except DecodeFault Settings :=
  match Parse.first source with
  | none => .error .unreadable
  | some none => .ok {}
  | some (some doc) =>
    match ofDocument (source.length + 1) doc with
    | none => .error .unreadable
    | some p => if p.faults.isEmpty then .ok p.settings else .error (.mismatches p.faults)

end Settings

end TemplateFormat
