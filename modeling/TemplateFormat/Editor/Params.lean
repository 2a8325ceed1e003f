import TemplateFormat.Editor.Json
import TemplateFormat.Editor.Position

/-!
# The parameters of requests

Parameters are decoded by **readers**.  A reader changes a value by what a
JSON value says, or refuses a value of the wrong kind.  A `null` changes
nothing, and neither do members that a record does not have; a member given
twice is read twice, one over the other.

A name of a member that no field has exactly is matched without regard to
case.
-/

namespace TemplateFormat.Editor

/-- Changes a value by what a JSON value says; none if that is of the wrong
kind. -/
abbrev Reader (α : Type) := α → Json → Option α

/-- A field of a record: the name of its member, and how the member changes the
record. -/
structure Reader.Slot (α : Type) where
  name : Text
  read : Reader α

namespace Reader

/-- Reads a string. -/
def string : Reader Text
  | old, .null => some old
  | _, .string s => some s
  | _, _ => none

/-- Reads a truth value. -/
def truth : Reader Bool
  | old, .null => some old
  | _, .bool b => some b
  | _, _ => none

/-- The number that digits write. -/
def natOfDigits (digits : Text) : Nat :=
  digits.foldl (fun n r => n * 10 + (r.code - 48)) 0

/-- The whole number that a literal writes: digits, perhaps with a sign. -/
def wholeOfLiteral? (literal : Text) : Option Int :=
  match literal with
  | .char '-' :: digits =>
    if digits.all Glyph.isDigit then some (-(natOfDigits digits : Int)) else none
  | _ => if literal.all Glyph.isDigit then some (natOfDigits literal : Int) else none

/-- Reads a word of sixty-four bits with a sign, written without a fraction or
an exponent. -/
def signedWord : Reader Int
  | old, .null => some old
  | _, .number literal =>
    (wholeOfLiteral? literal).filter fun n => -0x8000000000000000 ≤ n && n < 0x8000000000000000
  | _, _ => none

/-- Reads a word of sixty-four bits without a sign. -/
def unsignedWord : Reader Int
  | old, .null => some old
  | _, .number literal =>
    if literal.all Glyph.isDigit then
      (wholeOfLiteral? literal).filter fun n => n < 0x10000000000000000
    else none
  | _, _ => none

/-- Reads something that may be missing; `blank` is where its parts start
from. -/
def optional {α : Type} (blank : α) (inner : Reader α) : Reader (Option α)
  | _, .null => some none
  | old, j => (inner (old.getD blank) j).map some

/-- Reads the items of an array over those of a list; `blank` is where an item
beyond the list starts from. -/
def items {α : Type} (blank : α) (inner : Reader α) : List α → List Json → Option (List α)
  | _, [] => some []
  | old, j :: js => do
    return (← inner (old.headD blank) j) :: (← items blank inner old.tail js)

/-- Reads an array. -/
def list {α : Type} (blank : α) (inner : Reader α) : Reader (List α)
  | _, .null => some []
  | old, .array js => items blank inner old js
  | _, _ => none

/-- The letter a glyph counts as where case does not matter.  Two characters
beyond ASCII count as letters: the long s and the sign for kelvin. -/
def foldCase : Glyph → Glyph
  | .stray b => .stray b
  | .char c =>
    if c = '\u017F' then .char 's'
    else if c = '\u212A' then .char 'k'
    else .char c.toLower

/-- The field that a member of the given name belongs to. -/
def field? {α : Type} (fields : List (Slot α)) (name : Text) : Option (Slot α) :=
  (fields.find? (·.name = name)).or
    (fields.find? fun f => f.name.map foldCase = name.map foldCase)

/-- Reads one member of a record. -/
def member {α : Type} (fields : List (Slot α)) (old : α) (name : Text) (value : Json) :
    Option α :=
  match field? fields name with
  | some f => f.read old value
  | none => some old

/-- Reads a record. -/
def record {α : Type} (fields : List (Slot α)) : Reader α
  | old, .null => some old
  | old, .object members =>
    members.foldlM (fun old (name, value) => member fields old name value) old
  | _, _ => none

/-- A field that holds a part of the record. -/
def part {α β : Type} (name : String) (get : α → β) (set : β → α → α) (inner : Reader β) :
    Slot α where
  name := text name
  read old j := (inner (get old) j).map (set · old)

/-- A field whose kind is checked and whose value is of no use. -/
def unused {α β : Type} (name : String) (blank : β) (inner : Reader β) : Slot α where
  name := text name
  read old j := (inner blank j).map fun _ => old

end Reader

open Reader

/-- Reads a position. -/
def Position.reader : Reader Position :=
  record [
    part "line" Position.line (fun v p => { p with line := v }) signedWord,
    part "character" Position.character (fun v p => { p with character := v }) signedWord]

/-- Reads a span. -/
def Span.reader : Reader Span :=
  record [
    part "start" Span.start (fun v s => { s with start := v }) Position.reader,
    part "end" Span.stop (fun v s => { s with stop := v }) Position.reader]

/-- A document with its text. -/
structure Document where
  uri : Text := []
  content : Text := []
deriving DecidableEq, Repr

/-- The parameters of opening a document: a document. -/
def Document.openReader : Reader Document :=
  record [
    part "textDocument" id (fun v _ => v) (record [
      part "uri" Document.uri (fun v d => { d with uri := v }) string,
      unused "languageId" [] string,
      unused "version" 0 signedWord,
      part "text" Document.content (fun v d => { d with content := v }) string])]

/-- The parameters of changing a document: its URI and the changes, each with the
text it puts in place. -/
structure Changes where
  uri : Text := []
  texts : List Text := []
deriving DecidableEq, Repr

/-- Reads a change. -/
def Changes.textReader : Reader Text :=
  record [
    unused "range" none (optional {} Span.reader),
    unused "rangeLength" 0 unsignedWord,
    part "text" id (fun v _ => v) string]

/-- Reads the parameters of changing a document. -/
def Changes.reader : Reader Changes :=
  record [
    part "textDocument" Changes.uri (fun v c => { c with uri := v }) (record [
      part "uri" id (fun v _ => v) string,
      unused "version" 0 signedWord]),
    part "contentChanges" Changes.texts (fun v c => { c with texts := v })
      (list [] Changes.textReader)]

/-- Reads the URI of a document. -/
def uriReader : Reader Text := record [part "uri" id (fun v _ => v) string]

/-- The parameters of closing a document: its URI. -/
def closeReader : Reader Text := record [part "textDocument" id (fun v _ => v) uriReader]

/-- The parameters of formatting a document, or a span of it. -/
structure Formatting where
  uri : Text := []
  /-- The editor's indentation; not given unless it is positive. -/
  tabSize : Int := 0
  insertSpaces : Bool := false
  span : Span := {}
deriving DecidableEq, Repr

/-- The fields of a formatting request for a whole document. -/
def Formatting.fields : List (Slot Formatting) := [
  part "textDocument" Formatting.uri (fun v f => { f with uri := v }) uriReader,
  part "options" id (fun v _ => v) (record [
    part "tabSize" Formatting.tabSize (fun v f => { f with tabSize := v }) signedWord,
    part "insertSpaces" Formatting.insertSpaces (fun v f => { f with insertSpaces := v }) truth,
    unused "key" [] string])]

/-- Reads the parameters of formatting a document. -/
def Formatting.reader : Reader Formatting := record Formatting.fields

/-- Reads the parameters of formatting a span of a document. -/
def Formatting.spanReader : Reader Formatting :=
  record (Formatting.fields ++
    [part "range" Formatting.span (fun v f => { f with span := v }) Span.reader])

end TemplateFormat.Editor
