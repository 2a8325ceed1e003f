import TemplateFormat.Markup.Token

/-!
# Blocks: which tokens open and close a nesting level

A start tag of an element with children opens a level and the closing tag
ends it; a control header or any text that ends in `{` opens one, and `}` or
`@}` ends it.  These predicates look at one token only; nothing here checks
that openers and closers match.
-/

namespace TemplateFormat.Markup

/-- The elements that have no closing tag and hold no children. -/
def voidElements : List Text :=
  ["area", "base", "br", "col", "embed", "hr", "img", "input", "link", "meta", "param",
    "source", "track", "wbr"].map text

/-- The elements that may stand on one line with their content. -/
def inlineElements : List Text :=
  ["p", "span", "a", "strong", "em", "b", "i", "small", "label", "button", "li"].map text

/-- Whether elements of this name may stand on one line with their content. -/
def inlineEligible (name : Text) : Bool := inlineElements.contains name.lower

/-- Whether a name is the name of an element: it starts with a letter. -/
def isElementName (name : Text) : Bool := name.head?.any Glyph.isLetter

/-- What follows an optional parenthesised part without a `)` inside; the
text itself when none starts it. -/
def afterParentheses (s : Text) : Text :=
  match s with
  | .char '(' :: rest =>
    match rest.dropWhile (· != .char ')') with
    | [] => s
    | _ :: tail => tail
  | _ => s

/-- Whether a control header stands at the start of the text, which follows
an `@`: a keyword, an optional parenthesised part and `{`, with gaps between
them. -/
def isHeaderAfterMarker (s : Text) : Bool :=
  controlKeywords.any fun word =>
    match Text.after? word s with
    | none => false
    | some rest =>
      ((afterParentheses (rest.dropWhile Glyph.isGap)).dropWhile Glyph.isGap).head? ==
        some (.char '\x7b')

/-- Whether a control header stands somewhere in the text. -/
def holdsHeader : Text → Bool
  | [] => false
  | r :: s => (r = .char '@' && isHeaderAfterMarker s) || holdsHeader s

namespace Token

/-- Whether the token holds both interpolation markers. -/
def holdsInterpolation (tok : Token) : Bool :=
  occursIn interpolationOpen tok.literal && occursIn interpolationClose tok.literal

/-- Whether the token is a tag without children: one written with `/>` or
one of a void element. -/
def isChildless (tok : Token) : Bool :=
  match tok.kind with
  | .tag name _ _ =>
    tok.literal.endsWith (text "/>") || voidElements.contains name
  | _ => false

/-- Whether the token is the start tag of an element, childless ones
included. -/
def isStartTag (tok : Token) : Bool :=
  match tok.kind with
  | .tag name closing _ => !closing && isElementName name
  | _ => false

/-- Whether the token opens a nesting level. -/
def opensBlock (tok : Token) : Bool :=
  match tok.kind with
  | .tag name closing _ => !closing && isElementName name && !tok.isChildless
  | _ =>
    let literal := tok.literal.trim
    !tok.holdsInterpolation &&
      (holdsHeader literal ||
        (literal.endsWith (text "\x7b") && !occursIn blockClose literal))

/-- Whether the token closes a nesting level. -/
def closesBlock (tok : Token) : Bool :=
  match tok.kind with
  | .tag _ closing _ => closing && tok.literal.endsWith (text ">")
  | _ =>
    let literal := tok.literal.trim
    !tok.holdsInterpolation &&
      (literal == blockClose || literal == text "\x7d")

end Token

end TemplateFormat.Markup
