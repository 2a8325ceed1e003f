/-!
# Glyphs: the characters of a text that may hold stray bytes

A template file is a sequence of bytes.  Most of it is UTF-8, but nothing
promises that all of it is, so a text is kept as a list of **glyphs**: each
is either a Unicode scalar value or a single byte that takes part in no
well-formed sequence.  Nothing is lost by this view, and every rule of the
formatter that counts, compares or classifies characters is a rule about
glyphs.

Three classes of white space occur and must not be confused:

* `Glyph.isBlank` — the Unicode property White_Space, used where text is
  trimmed or split into words;
* `Glyph.isSpace` — the six ASCII space characters, used by the tag and
  expression readers;
* `Glyph.isGap` — the five of them that a search pattern takes for a gap
  (the vertical tab is missing).
-/

namespace TemplateFormat

/-- One character of a text: a Unicode scalar value, or a byte that belongs
to no well-formed sequence. -/
inductive Glyph where
  | char (c : Char)
  | stray (b : UInt8)
deriving DecidableEq, Repr

instance : Inhabited Glyph := ⟨.char ' '⟩

instance : Coe Char Glyph := ⟨.char⟩

/-- A text is the list of its glyphs. -/
abbrev Text := List Glyph

/-- The text of a string literal. -/
def text (s : String) : Text := s.toList.map .char

namespace Glyph

/-- The glyph a stray byte counts as where only scalar values have a
meaning: the replacement character. -/
def replacement : Glyph := .char '\uFFFD'

/-- The glyph with a stray byte replaced by the replacement character. -/
def shown : Glyph → Glyph
  | .char c => .char c
  | .stray _ => replacement

/-- The scalar value of a glyph; a stray byte counts as U+FFFD. -/
def code : Glyph → Nat
  | .char c => c.toNat
  | .stray _ => 0xFFFD

/-- Unicode White_Space. -/
def isBlank : Glyph → Bool
  | .stray _ => false
  | .char c =>
    let n := c.toNat
    (9 ≤ n && n ≤ 13) || n == 0x20 || n == 0x85 || n == 0xA0 || n == 0x1680 ||
      (0x2000 ≤ n && n ≤ 0x200A) || n == 0x2028 || n == 0x2029 || n == 0x202F ||
      n == 0x205F || n == 0x3000

/-- The six ASCII space characters. -/
def isSpace : Glyph → Bool
  | .stray _ => false
  | .char c => c == ' ' || c == '\t' || c == '\n' || c == '\r' || c == '\x0C' || c == '\x0B'

/-- The ASCII space characters that a pattern counts as a gap: all but the
vertical tab. -/
def isGap : Glyph → Bool
  | .stray _ => false
  | .char c => c == ' ' || c == '\t' || c == '\n' || c == '\r' || c == '\x0C'

/-- An ASCII letter. -/
def isLetter : Glyph → Bool
  | .stray _ => false
  | .char c => c.isAlpha

/-- An ASCII decimal digit. -/
def isDigit : Glyph → Bool
  | .stray _ => false
  | .char c => c.isDigit

/-- An ASCII letter, digit or underscore. -/
def isWord : Glyph → Bool
  | .stray _ => false
  | .char c => c.isAlphanum || c == '_'

/-- The number of bytes the glyph is written with. -/
def width : Glyph → Nat
  | .char c => c.utf8Size
  | .stray _ => 1

/-- The number of UTF-16 code units of the glyph. -/
def units : Glyph → Nat
  | .char c => if c.toNat ≤ 0xFFFF then 1 else 2
  | .stray _ => 1

end Glyph

/-- Whether `needle` stands somewhere in the list, as a contiguous part. -/
def occursIn {α : Type} [BEq α] (needle : List α) : List α → Bool
  | [] => needle.isEmpty
  | a :: s => needle.isPrefixOf (a :: s) || occursIn needle s

namespace Text

/-- The number of bytes of a text. -/
def width (s : Text) : Nat := s.foldl (fun n r => n + r.width) 0

/-- What follows `lead` in a text that starts with it. -/
def after? : (lead s : Text) → Option Text
  | [], s => some s
  | _ :: _, [] => none
  | a :: lead, b :: s => if a = b then after? lead s else none

/-- Whether the text starts with `lead`. -/
def startsWith (s lead : Text) : Bool := lead.isPrefixOf s

/-- Whether the text ends with `tail`. -/
def endsWith (s tail : Text) : Bool := tail.isSuffixOf s

/-- The text without the first `n` bytes; `n` is the width of a leading
part of it. -/
def dropWidth (n : Nat) : Text → Text
  | [] => []
  | r :: s => if n = 0 then r :: s else dropWidth (n - r.width) s

/-- The leading part of a text that is `n` bytes wide, put behind the glyphs
of `seen`, which are in reverse. -/
def takeWidthAfter (seen : Text) (n : Nat) : Text → Text
  | [] => seen.reverse
  | r :: s => if n = 0 then seen.reverse else takeWidthAfter (r :: seen) (n - r.width) s

/-- The leading part of a text that is `n` bytes wide. -/
def takeWidth (n : Nat) (s : Text) : Text := takeWidthAfter [] n s

/-- The texts between the occurrences of a glyph. -/
def splitOn (sep : Glyph) (s : Text) : List Text := List.splitOnP (· == sep) s

/-- The texts joined with `sep` between neighbours. -/
def join (sep : Text) (parts : List Text) : Text := List.intercalate sep parts

/-- The parts before and after the first occurrence of a glyph; the second is
missing when the glyph does not occur. -/
def cut (sep : Glyph) (s : Text) : Text × Option Text :=
  match s.dropWhile (· != sep) with
  | [] => (s, none)
  | _ :: tail => (s.takeWhile (· != sep), some tail)

/-- The part after the last occurrence of a glyph, with the part before it;
`none` when the glyph does not occur. -/
def cutLast? (sep : Glyph) (s : Text) : Option (Text × Text) :=
  match s.reverse.dropWhile (· != sep) with
  | [] => none
  | _ :: head => some (head.reverse, (s.reverse.takeWhile (· != sep)).reverse)

/-- The decimal digits of a whole number, with a sign when it is negative. -/
def ofInt (n : Int) : Text := text (toString n)

/-- The decimal digits of a natural number. -/
def ofNat (n : Nat) : Text := text (toString n)

/-- The string with the same characters; a stray byte becomes U+FFFD. -/
def legible (s : Text) : String :=
  String.ofList (s.map fun
    | .char c => c
    | .stray _ => '\uFFFD')

end Text

end TemplateFormat
