import TemplateFormat.Markup.Lexeme
import TemplateFormat.Markup.Tag
import TemplateFormat.Text.Quoted

/-!
# Tokens: the pieces of a template in normal form

A token is a lexeme in normal form together with its place in the source.
Text and control headers are written with collapsed white space, tags in
the normal form of `Tag.normalize`, and all other pieces as they stand;
text that is nothing but white space makes no token.

`Token.scan` is the token list of a template.  Offsets count bytes.  The
span of a text token leaves out the ASCII spaces at its ends, and
`spaceBefore` tells that an ASCII space stands right before the span.
-/

namespace TemplateFormat.Markup

/-- What a token is, with what is read off it. -/
inductive Token.Kind where
  | text
  /-- A tag or a comment.  The name of a comment is `!--`. -/
  | tag (name : Text) (closing selfClosing : Bool)
  /-- A control header, or `@}` with the word `}`. -/
  | control (word : Text)
  | closeBrace
  | interpolation
deriving DecidableEq, Repr

/-- One classified unit of a template. -/
structure Token where
  kind : Token.Kind
  literal : Text
  /-- An ASCII space stands right before the span. -/
  spaceBefore : Bool
  /-- The byte offset at which the span starts. -/
  pos : Nat
  /-- The byte offset at which the span ends. -/
  stop : Nat
deriving DecidableEq, Repr

namespace Token

/-- The name of a kind of token, as listings show it. -/
def Kind.label : Kind → String
  | .text => "Text"
  | .tag .. => "Tag"
  | .control _ => "ControlBlock"
  | .closeBrace => "CloseBrace"
  | .interpolation => "Interpolation"

/-- The label of the kind with the given number, in the order in which the
kinds are numbered. -/
def labelOfNumber (n : Nat) : String :=
  match n with
  | 0 => Kind.label .text
  | 1 => Kind.label (.tag [] false false)
  | 2 => Kind.label (.control [])
  | 3 => Kind.label .closeBrace
  | 4 => Kind.label .interpolation
  | n => "TokenType(" ++ toString n ++ ")"

/-- The element name of a tag, the word of a control token, or `}`; empty for
text and interpolations. -/
def name (tok : Token) : Text :=
  match tok.kind with
  | .tag name _ _ => name
  | .control word => word
  | .closeBrace => text "\x7d"
  | .text | .interpolation => []

/-- Whether the token is a tag. -/
def isTag (tok : Token) : Bool :=
  match tok.kind with
  | .tag .. => true
  | _ => false

/-- Whether the token is a tag that starts with `</`. -/
def isClosingTag (tok : Token) : Bool :=
  match tok.kind with
  | .tag _ closing _ => closing
  | _ => false

/-- Whether the token is a tag written with `/>` at its end. -/
def isSelfClosed (tok : Token) : Bool :=
  match tok.kind with
  | .tag _ _ selfClosing => selfClosing
  | _ => false

/-- Whether the token is text or an interpolation: content that stands on a
line with other content. -/
def isContent (tok : Token) : Bool :=
  match tok.kind with
  | .text | .interpolation => true
  | _ => false

/-- The token as listings show it: its kind and its quoted literal. -/
def describe (tok : Token) : Text :=
  text (tok.kind.label ++ "(") ++ tok.literal.quoted ++ text ")"

end Token

namespace Lexeme

/-- The token of a marked piece that spans `[pos, stop)`. -/
def place (kind : Token.Kind) (literal : Text) (prev : Option Glyph) (pos stop : Nat) : Token :=
  { kind, literal, pos, stop, spaceBefore := prev.any Glyph.isSpace }

/-- The kind of a tag token, read off the normal form of the tag. -/
def tagKind (literal : Text) : Token.Kind :=
  .tag (Tag.nameOf literal) (Tag.isClosing literal) (literal.endsWith (text "/>"))

/-- The token of a lexeme that starts at byte `pos` behind the glyph `prev`;
none for blank text. -/
def token? (pos : Nat) (prev : Option Glyph) (lexeme : Lexeme) : Option Token :=
  let raw := lexeme.raw
  let stop := pos + raw.width
  match lexeme.kind with
  | .text =>
    let literal := raw.collapse
    if literal.isEmpty then none
    else
      let head := raw.takeWhile Glyph.isSpace
      let tail := raw.reverse.takeWhile Glyph.isSpace
      some (place .text literal (head.getLast?.or prev) (pos + Text.width head)
        (stop - Text.width tail))
  | .interpolation => some (place .interpolation raw prev pos stop)
  | .header word => some (place (.control word) raw.collapse prev pos stop)
  | .blockEnd => some (place (.control (text "\x7d")) raw prev pos stop)
  | .brace => some (place .closeBrace raw prev pos stop)
  | .comment => some (place (.tag (text "!--") false false) raw prev pos stop)
  | .tag =>
    let literal := Tag.normalize raw
    some (place (tagKind literal) literal prev pos stop)

end Lexeme

namespace Token

/-- The tokens of lexemes that start at byte `pos` behind the glyph `prev`. -/
def ofLexemes : (pos : Nat) → (prev : Option Glyph) → List Lexeme → List Token
  | _, _, [] => []
  | pos, prev, lexeme :: rest =>
    let later := ofLexemes (pos + lexeme.raw.width) lexeme.raw.getLast? rest
    match lexeme.token? pos prev with
    | some tok => tok :: later
    | none => later

/-- The tokens of a template. -/
def scan (source : Text) : List Token := ofLexemes 0 none (Lexeme.split source)

end Token

end TemplateFormat.Markup
