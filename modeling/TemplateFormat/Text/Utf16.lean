import TemplateFormat.Text.Utf8

/-!
# Texts in units of two bytes

UTF-16 writes a character as one unit of sixteen bits or, beyond U+FFFF, as a
high unit followed by a low one.  `Text.decodeUnits` reads bytes in pairs, in
either byte order.  A half that another unit follows is read as one stray glyph,
and nothing behind it is read; bytes may also end inside a character.
-/

namespace TemplateFormat

/-- The first half of a character that takes two units. -/
def isHighUnit (n : Nat) : Bool := 0xD800 ≤ n && n < 0xDC00

/-- The second half of a character that takes two units. -/
def isLowUnit (n : Nat) : Bool := 0xDC00 ≤ n && n < 0xE000

/-- The character that a high and a low unit write. -/
def joinUnits (high low : Nat) : Char :=
  Char.ofNat (0x10000 + (high - 0xD800) * 0x400 + (low - 0xDC00))

/-- The unit of two bytes; `bigFirst` tells that the first is the high one. -/
def unitOfBytes (bigFirst : Bool) (a b : UInt8) : Nat :=
  if bigFirst then a.toNat * 256 + b.toNat else b.toNat * 256 + a.toNat

/-- The glyphs of a sequence of bytes in units of two, and whether the bytes end
inside a character. -/
def Text.decodeUnits (bigFirst : Bool) : List UInt8 → Text × Bool
  | [] => ([], false)
  | [_] => ([], true)
  | a :: b :: rest =>
    let unit := unitOfBytes bigFirst a b
    if isLowUnit unit then ([.stray a], false)
    else if isHighUnit unit then
      match rest with
      | c :: d :: rest =>
        let low := unitOfBytes bigFirst c d
        if isLowUnit low then
          let (glyphs, isCut) := decodeUnits bigFirst rest
          (.char (joinUnits unit low) :: glyphs, isCut)
        else ([.stray a], false)
      | _ => ([], true)
    else
      let (glyphs, isCut) := decodeUnits bigFirst rest
      (.char (Char.ofNat unit) :: glyphs, isCut)

end TemplateFormat
