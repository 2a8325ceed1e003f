import TemplateFormat.Layout.Element
import TemplateFormat.Text.Utf8

/-!
# How an element was written in the source

Whether an element is printed on one line depends on how its author wrote
it.  `SourceIndex` finds the source of an element that was rebuilt from its
tokens: first under the squashed text of the whole element, where spacing
and case do not matter, and failing that among the elements of the same name
whose content starts alike.  Identical markup always resolves to its first
occurrence.

Lookups remember their outcome in a `Memo`.  The memo saves work only: what
a lookup answers depends on the index and the element alone.
-/

namespace TemplateFormat.Layout

open TemplateFormat.Markup

/-- How an element was written. -/
inductive Written where
  /-- It was not found in the source. -/
  | absent
  /-- Its content stands on one line and fills the space between the tags. -/
  | compact
  /-- Its content is padded or spread over lines. -/
  | expanded
deriving DecidableEq, Repr

/-- How content stands between its tags. -/
def Written.ofContent (content : Text) : Written :=
  if content = content.trim ∧ .char '\n' ∉ content then .compact else .expanded

/-- The number of leading glyphs in which look-alike contents are compared. -/
def resemblanceLength : Nat := 30

/-- Whether one text occurs in the other; the empty text resembles only
itself. -/
def resembles (a b : Text) : Bool :=
  if a.isEmpty || b.isEmpty then a == b
  else occursIn b.encode a.encode || occursIn a.encode b.encode

/-- The part of an element's text between its first `>` and its last `<`. -/
def innerText? (element : Text) : Option Text :=
  match element.cut (.char '>') with
  | (_, some rest) => (rest.cutLast? (.char '<')).map (·.1)
  | (_, none) => none

/-- Whether a tag starts somewhere in a text: `<` and a word character. -/
def holdsTag : Text → Bool
  | [] => false
  | r :: s => (r = .char '<' && s.head?.any Glyph.isWord) || holdsTag s

/-- Whether the element takes more than one line and holds a tag. -/
def Element.isSpread (e : Element) : Bool :=
  e.whole.contains (.char '\n') && holdsTag e.content

/-- The first elements of a source under their keys. -/
abbrev FirstTable := List (Text × Element)

/-- Enters an element under a key unless an earlier element of the source has
the key. -/
def FirstTable.setFirst (key : Text) (e : Element) : FirstTable → FirstTable
  | [] => [(key, e)]
  | (k, earlier) :: rest =>
    if k = key then (k, if e.start < earlier.start then e else earlier) :: rest
    else (k, earlier) :: setFirst key e rest

/-- The elements of a source under their names. -/
abbrev NameTable := List (Text × List Element)

/-- Enters an element under its name. -/
def NameTable.add (e : Element) : NameTable → NameTable
  | [] => [(e.name, [e])]
  | (name, es) :: rest =>
    if name = e.name then (name, e :: es) :: rest else (name, es) :: add e rest

/-- The elements of a source, ready to be found. -/
structure SourceIndex where
  /-- The first element under each squashed text, for elements that a merge
  can rebuild. -/
  byKey : FirstTable := []
  /-- The first element under each squashed start tag. -/
  byOpening : FirstTable := []
  /-- The elements of each name, in the order of the source. -/
  byName : NameTable := []

namespace SourceIndex

/-- Enters an element. -/
def add (ix : SourceIndex) (e : Element) : SourceIndex where
  byKey := if e.isReachable then ix.byKey.setFirst e.whole.squash e else ix.byKey
  byOpening := ix.byOpening.setFirst e.openingTag.squash e
  byName := ix.byName.add e

/-- Puts the elements of each name in the order of the source. -/
def sorted (ix : SourceIndex) : SourceIndex :=
  { ix with byName := ix.byName.map fun (name, es) =>
      (name, es.mergeSort fun a b => a.start ≤ b.start) }

/-- The index of a source with its tokens. -/
def build (source : Text) (tokens : List Token) : SourceIndex :=
  ((Element.all source tokens).foldl add {}).sorted

/-- The outcomes of earlier lookups. -/
structure Memo where
  /-- How look-alikes were written, under the name, a NUL and the start of the
  content looked for. -/
  resembling : List (Text × Written) := []
  /-- Whether elements are spread over lines, under their start. -/
  spread : List (Nat × Bool) := []

/-- How the first element of the given name was written whose content starts
like `start`. -/
def resembling (ix : SourceIndex) (name start : Text) : Written :=
  match ((ix.byName.lookup name).getD []).find? fun e =>
      resembles (e.content.lead resemblanceLength) start with
  | some e => Written.ofContent e.content
  | none => .absent

/-- How the element was written, with the memo afterwards. -/
def written (ix : SourceIndex) (element : Text) (memo : Memo) : Written × Memo :=
  let element := element.trim
  if element.isEmpty then (.absent, memo)
  else
    match ix.byKey.lookup element.squash with
    | some e => (Written.ofContent e.content, memo)
    | none =>
      let name := Tag.firstName element
      match innerText? element with
      | none => (.absent, memo)
      | some content =>
        if name.isEmpty then (.absent, memo)
        else
          let start := content.lead resemblanceLength
          let key := name ++ .char '\x00' :: start
          match memo.resembling.lookup key with
          | some w => (w, memo)
          | none =>
            let w := ix.resembling name start
            (w, { memo with resembling := (key, w) :: memo.resembling })

/-- Whether the first element with this start tag is spread over lines around
nested tags, with the memo afterwards. -/
def isSpread (ix : SourceIndex) (openingTag : Text) (memo : Memo) : Bool × Memo :=
  match ix.byOpening.lookup openingTag.squash with
  | none => (false, memo)
  | some e =>
    match memo.spread.lookup e.start with
    | some b => (b, memo)
    | none => (e.isSpread, { memo with spread := (e.start, e.isSpread) :: memo.spread })

end SourceIndex

end TemplateFormat.Layout
