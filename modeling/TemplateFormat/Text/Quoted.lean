import TemplateFormat.Text.Utf8
import TemplateFormat.Text.Printable

/-!
# Quoted text

`Text.quoted` writes a text between double quotes on one line, as messages
and token listings show it.  Printable characters stand for themselves; the
quote and the backslash are escaped; the usual control characters have a
letter escape, a stray byte is written `\xNN`, and any other character by
its scalar value in two, four or eight hexadecimal digits.
-/

namespace TemplateFormat

/-- The lower-case hexadecimal digits of `n`, at least `width` of them. -/
def hexDigits (width n : Nat) : List Char :=
  let digits := Nat.toDigits 16 n
  List.replicate (width - digits.length) '0' ++ digits

/-- How a glyph is written inside quotes. -/
def Glyph.quoted : Glyph → List Char
  | .stray b => ['\\', 'x'] ++ hexDigits 2 b.toNat
  | .char c =>
    let n := c.toNat
    if c = '\x22' || c = '\\' then ['\\', c]
    else if isPrintable n then [c]
    else if n = 7 then ['\\', 'a']
    else if n = 8 then ['\\', 'b']
    else if n = 12 then ['\\', 'f']
    else if n = 10 then ['\\', 'n']
    else if n = 13 then ['\\', 'r']
    else if n = 9 then ['\\', 't']
    else if n = 11 then ['\\', 'v']
    else if n < 0x20 || n = 0x7F then ['\\', 'x'] ++ hexDigits 2 n
    else if n < 0x10000 then ['\\', 'u'] ++ hexDigits 4 n
    else ['\\', 'U'] ++ hexDigits 8 n

/-- The text between double quotes, with everything unprintable escaped. -/
def Text.quoted (s : Text) : Text :=
  .char '\x22' :: s.flatMap (fun r => r.quoted.map Glyph.char) ++ [.char '\x22']

end TemplateFormat
