import TemplateFormat.Text.Words
import TemplateFormat.Text.Quote

/-!
# Tags: their normal form and their names

`Tag.normalize` writes a tag with single spaces between its parts and none
before a plain `>`; quoted attribute values are copied as they are.
`Tag.nameOf` reads the element name off a tag, and `Tag.firstName` off any
text that holds one.
-/

namespace TemplateFormat.Markup.Tag

/-- Replaces each run of spaces outside quotes by one space.  `prev` is the
glyph before the text and `gap` tells that it ends a run of spaces. -/
def squeeze (prev : Option Glyph) (q : Quote) (gap : Bool) : Text → Text
  | [] => []
  | r :: s =>
    if q.isOutside && r.isSpace then squeeze (some r) q true s
    else if gap then .char ' ' :: r :: squeeze (some r) (q.next prev r) false s
    else r :: squeeze (some r) (q.next prev r) false s

/-- Drops a space that stands right before a final `>`. -/
def closeUp (s : Text) : Text :=
  if s.endsWith (text " >") then s.take (s.length - 2) ++ [.char '>'] else s

/-- The normal form of a tag. -/
def normalize (raw : Text) : Text := closeUp (squeeze none .outside false raw)

/-- The glyphs an element name in a tag runs up to. -/
def endsName (r : Glyph) : Bool := r.isSpace || r = .char '>' || r = .char '/'

/-- The tag without its `<`. -/
def body (literal : Text) : Text :=
  match literal with
  | .char '<' :: s => s
  | s => s

/-- Whether the tag starts with `</`. -/
def isClosing (literal : Text) : Bool := (body literal).startsWith (text "/")

/-- The element name of a tag in lower case. -/
def nameOf (literal : Text) : Text :=
  let s := body literal
  let s := if isClosing literal then s.drop 1 else s
  Text.lower (s.takeWhile (!endsName ·))

/-- The glyphs of an element name after its first letter. -/
def isNamePart (r : Glyph) : Bool :=
  r.isWord || r = .char '-' || r = .char ':' || r = .char '.'

/-- The name of the first start tag in a text, in lower case; empty when
there is none.  A tag starts at `<` and a letter. -/
def firstName : Text → Text
  | [] => []
  | r :: s =>
    match s with
    | a :: rest =>
      if r = .char '<' && a.isLetter then Text.lower (a :: rest.takeWhile isNamePart)
      else firstName s
    | [] => []

/-- The closing tag of an element name. -/
def closing (name : Text) : Text := text "</" ++ name ++ text ">"

end TemplateFormat.Markup.Tag
