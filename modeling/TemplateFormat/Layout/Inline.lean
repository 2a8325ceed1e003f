import TemplateFormat.Layout.SourceIndex
import TemplateFormat.Layout.Flatten
import TemplateFormat.Layout.Options

/-!
# Elements on one line

An element can be written on one line in two ways.  A **content merge** takes
a start tag, the text and interpolations behind it, and its closing tag; a
**tight merge** takes everything up to the matching closing tag, nested
elements included, and flattens it.  Both search a bounded window of tokens,
and both are subject to `keepInline`, which weighs the length of the line, how
the element was written in the source, and how complex its attributes are.
-/

namespace TemplateFormat.Layout

open TemplateFormat.Markup

/-- The first tag in a text, up to its first `>`; `<>` is none. -/
def firstTag? : Text → Option Text
  | [] => none
  | r :: s =>
    let body := s.takeWhile (· != .char '>')
    if r = .char '<' && !body.isEmpty && body.length < s.length then
      some (r :: body ++ [.char '>'])
    else firstTag? s

/-- Whether a tag starts between the first `>` and the last `<` of an
element. -/
def hasNestedTags (element : Text) : Bool := (innerText? element).any holdsTag

/-- The glyphs of an attribute name, binding markers included. -/
def isAttributePart (r : Glyph) : Bool :=
  r.isWord || r = .char '-' || r = .char ':' || r = .char '.' || r = .char '[' ||
    r = .char ']' || r = .char '(' || r = .char ')' || r = .char '@' || r = .char '#' ||
    r = .char '*'

/-- Whether an attribute name and `=` stand at the start of a text. -/
def startsAttribute (s : Text) : Bool :=
  s.head?.any isAttributePart && (s.dropWhile isAttributePart).head? == some (.char '=')

/-- The number of attributes with a value: a gap, a name and `=`. -/
def attributeCount : Text → Nat
  | [] => 0
  | r :: s => (if r.isGap && startsAttribute s then 1 else 0) + attributeCount s

/-- The number of attributes with a value that an element may have and still be
simple. -/
def simpleAttributes : Nat := 2

/-- The length from which an attribute value counts as long. -/
def longValueLength : Nat := 20

/-- Whether `=` and a long quoted value stand at the start of a text. -/
def startsLongValue : Text → Bool
  | .char '=' :: q :: s =>
    let value := s.takeWhile (· != q)
    (q = .char '\x22' || q = .char '\x27') && longValueLength ≤ value.length &&
      value.length < s.length
  | _ => false

/-- Whether a long quoted value stands somewhere in a text. -/
def hasLongValue : Text → Bool
  | [] => false
  | r :: s => startsLongValue (r :: s) || hasLongValue s

/-- Whether an element has many attributes or a long attribute value. -/
def hasComplexAttributes (element : Text) : Bool :=
  simpleAttributes < attributeCount element || hasLongValue element

/-- Whether the author spread the element over lines around nested tags. -/
def wasSpread (ix : SourceIndex) (element : Text) (memo : SourceIndex.Memo) :
    Bool × SourceIndex.Memo :=
  match firstTag? element with
  | none => (false, memo)
  | some tag =>
    if (Tag.firstName element).isEmpty then (false, memo) else ix.isSpread tag memo

/-- Whether an element that was rebuilt on one line stays there.  Elements the
author spread over lines around nested tags do not; elements made for one line
do up to the threshold; elements the author wrote compactly do up to half as
much again; all others do up to half the threshold if their attributes are
simple. -/
def keepInline (o : Options) (ix : SourceIndex) (element : Text) (memo : SourceIndex.Memo) :
    Bool × SourceIndex.Memo :=
  if !o.inlineShort then (false, memo)
  else
    let (spread, memo) := if o.keepMultiline then wasSpread ix element memo else (false, memo)
    if spread then (false, memo)
    else
      let element := element.trim
      let length : Int := element.length
      if inlineEligible (Tag.firstName element) && !hasNestedTags element &&
          length ≤ o.threshold then
        (true, memo)
      else
        let (written, memo) :=
          if 2 * length ≤ 3 * o.threshold then ix.written element memo else (.absent, memo)
        if written = .compact then (true, memo)
        else (2 * length ≤ o.threshold && !hasComplexAttributes element, memo)

/-- An element on one line, and how many tokens behind its start tag it
takes. -/
structure Merged where
  line : Text
  absorbed : Nat
deriving DecidableEq, Repr

/-- The text and interpolations up to the closing tag of the given name, and
that tag; none if another kind of token comes first. -/
def gather (name : Text) (parts : List Token) : List Token → Option (List Token × Token)
  | [] => none
  | tok :: rest =>
    if tok.isClosingTag && tok.name == name then some (parts.reverse, tok)
    else if tok.isContent then gather name (tok :: parts) rest
    else none

/-- The renderings of content side by side, with a space before those that had
one in the source; the first has none. -/
def joinAsWritten : List Token → Text
  | [] => []
  | first :: rest =>
    renderInline first ++ rest.flatMap fun tok =>
      if tok.spaceBefore then .char ' ' :: renderInline tok else renderInline tok

/-- An element from its tags and its content.  Content the author wrote
compactly keeps its word breaks; otherwise single spaces stand between its
parts. -/
def buildElement (ix : SourceIndex) (opening : Text) (parts : List Token) (closing : Text)
    (memo : SourceIndex.Memo) : Text × SourceIndex.Memo :=
  if parts.isEmpty then (opening ++ closing, memo)
  else
    let texts := parts.map renderInline
    let (written, memo) := ix.written (opening ++ texts.flatten ++ closing) memo
    let content :=
      if written = .compact then joinAsWritten parts else Text.join [.char ' '] texts
    (opening ++ content.trim ++ closing, memo)

/-- Tries to put a start tag, the text and interpolations behind it and its
closing tag on one line. -/
def contentMerge (o : Options) (ix : SourceIndex) (tok : Token) (after : List Token)
    (memo : SourceIndex.Memo) : Option Merged × SourceIndex.Memo :=
  match gather tok.name [] (after.take (contentWindow - 1)) with
  | none => (none, memo)
  | some (parts, closing) =>
    let (line, memo) := buildElement ix tok.literal parts closing.literal memo
    let (keep, memo) := keepInline o ix line memo
    (if keep then some { line, absorbed := parts.length + 1 } else none, memo)

/-- The index of the closing tag that matches a start tag of the given name,
where `nest` elements of the name are open inside it and `n` tokens were
passed. -/
def closerIndex? (name : Text) : (nest n : Nat) → List Token → Option Nat
  | _, _, [] => none
  | nest, n, tok :: rest =>
    if !(tok.isTag && tok.name == name) then closerIndex? name nest (n + 1) rest
    else if !tok.isClosingTag then
      closerIndex? name (if tok.isChildless then nest else nest + 1) (n + 1) rest
    else if nest = 0 then some n
    else closerIndex? name (nest - 1) (n + 1) rest

/-- Tries to put a start tag and all up to its matching closing tag on one
line. -/
def tightMerge (o : Options) (ix : SourceIndex) (tok : Token) (after : List Token)
    (memo : SourceIndex.Memo) : Option Merged × SourceIndex.Memo :=
  match closerIndex? tok.name 0 0 (after.take (tightWindow - 1)) with
  | none => (none, memo)
  | some n =>
    let line := flatten (tok :: after.take (n + 1))
    let (keep, memo) := keepInline o ix line memo
    (if keep then some { line, absorbed := n + 1 } else none, memo)

end TemplateFormat.Layout
