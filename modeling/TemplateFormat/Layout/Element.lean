import TemplateFormat.Markup.Block

/-!
# Elements of the source

An element is a start tag together with the closing tag that ends it.  Tags
are paired as an author reads them: a closing tag ends the nearest start tag
of its name that is still open, whatever stands between the two, so even
badly nested markup has elements.

`Element.all` lists the elements in the order of their closing tags.  Each
element remembers the source from its start on, so its text is read off
without searching for it again.
-/

namespace TemplateFormat.Layout

open TemplateFormat.Markup

/-- The token windows within which a merge looks for a closing tag.  They
bound the work of one attempt. -/
def tightWindow : Nat := 8

/-- The window of a merge whose content is text and interpolations only. -/
def contentWindow : Nat := 20

/-- A token of a source, with the source from its start and from its end. -/
structure Placed where
  token : Token
  /-- The index of the token in the token list. -/
  index : Nat
  /-- The source from the start of the token's span. -/
  head : Text
  /-- The source from the end of the token's span. -/
  tail : Text

/-- Places tokens in a source of which the part from byte `offset` on is
left; `index` tokens stand before. -/
def Placed.allFrom (index offset : Nat) (source : Text) : List Token → List Placed
  | [] => []
  | token :: rest =>
    let head := source.dropWidth (token.pos - offset)
    let tail := head.dropWidth (token.stop - token.pos)
    { token, index, head, tail } :: allFrom (index + 1) token.stop tail rest

/-- The tokens of a source in their places. -/
def Placed.all (source : Text) (tokens : List Token) : List Placed := allFrom 0 0 source tokens

/-- A start tag and the closing tag that ends it. -/
structure Element where
  opening : Placed
  closing : Placed

namespace Element

/-- The name of the element. -/
def name (e : Element) : Text := e.opening.token.name

/-- Where the start tag starts. -/
def start (e : Element) : Nat := e.opening.token.pos

/-- Where the start tag ends and the content starts. -/
def innerStart (e : Element) : Nat := e.opening.token.stop

/-- Where the content ends and the closing tag starts. -/
def innerStop (e : Element) : Nat := e.closing.token.pos

/-- Where the closing tag ends. -/
def stop (e : Element) : Nat := e.closing.token.stop

/-- The source of the whole element. -/
def whole (e : Element) : Text := e.opening.head.takeWidth (e.stop - e.start)

/-- The source of the start tag. -/
def openingTag (e : Element) : Text := e.opening.head.takeWidth (e.innerStart - e.start)

/-- The source between the tags. -/
def content (e : Element) : Text := e.opening.tail.takeWidth (e.innerStop - e.innerStart)

/-- Whether the closing tag is near enough to the start tag for a merge to
reach it. -/
def isReachable (e : Element) : Bool :=
  e.closing.index - e.opening.index < max tightWindow contentWindow

/-- Pairs the tags of a token list.  `unclosed` holds the start tags that are
still open, the latest first. -/
def pairFrom (unclosed : List Placed) : List Placed → List Element
  | [] => []
  | p :: rest =>
    if p.token.isStartTag && !p.token.isChildless then pairFrom (p :: unclosed) rest
    else if p.token.isClosingTag then
      match unclosed.find? (·.token.name == p.token.name) with
      | some opening =>
        ⟨opening, p⟩ :: pairFrom (unclosed.eraseP (·.token.name == p.token.name)) rest
      | none => pairFrom unclosed rest
    else pairFrom unclosed rest

/-- The elements of a source, in the order of their closing tags. -/
def all (source : Text) (tokens : List Token) : List Element :=
  pairFrom [] (Placed.all source tokens)

end Element

end TemplateFormat.Layout
