import TemplateFormat.Text.Glyph

/-!
# Bytes and glyphs

`Text.decode` reads bytes as glyphs and `Text.encode` writes glyphs as bytes.
A byte at which no well-formed UTF-8 sequence starts is read as one stray
glyph, and reading goes on with the byte after it; so decoding is defined on
all byte sequences and `encode` takes a decoded text back to its bytes.
-/

namespace TemplateFormat

/-- The bytes of a glyph. -/
def Glyph.bytes : Glyph → List UInt8
  | .char c => String.utf8EncodeChar c
  | .stray b => [b]

/-- The number of bytes of the sequence that a first byte announces. -/
def announcedLength? (b : UInt8) : Option Nat :=
  if b < 0x80 then some 1
  else if 0xC0 ≤ b ∧ b < 0xE0 then some 2
  else if 0xE0 ≤ b ∧ b < 0xF0 then some 3
  else if 0xF0 ≤ b ∧ b < 0xF8 then some 4
  else none

namespace Text

/-- The bytes of a text. -/
def encode (s : Text) : List UInt8 := s.flatMap Glyph.bytes

/-- The glyph that starts at byte `i`, which must be a byte of `bytes`. -/
def glyphAt (bytes : ByteArray) (i : Nat) (h : i < bytes.size) : Glyph :=
  match bytes.utf8DecodeChar? i with
  | some c => .char c
  | none => .stray bytes[i]

/-- Every glyph is at least one byte wide. -/
theorem width_pos (r : Glyph) : 0 < r.width := by
  cases r with
  | char c => exact c.utf8Size_pos
  | stray b => exact Nat.one_pos

/-- The glyphs from byte `i` on, put behind the glyphs of `seen`, which are in
reverse. -/
def decodeFrom (bytes : ByteArray) (i : Nat) (seen : Text) : Text :=
  if h : i < bytes.size then
    decodeFrom bytes (i + (glyphAt bytes i h).width) (glyphAt bytes i h :: seen)
  else
    seen.reverse
termination_by bytes.size - i
decreasing_by exact Nat.sub_lt_sub_left h (Nat.lt_add_of_pos_right (width_pos _))

/-- The glyphs of a sequence of bytes. -/
def decode (bytes : ByteArray) : Text := decodeFrom bytes 0 []

/-- A text up to the stray byte, if there is one, that announces more bytes than
follow, and whether there is one. -/
def wholePart : Text → Text × Bool
  | [] => ([], false)
  | .stray b :: s =>
    if width (.stray b :: s) < (announcedLength? b).getD 1 then ([], true)
    else (.stray b :: s, false)
  | .char c :: s =>
    let (whole, isCut) := wholePart s
    (.char c :: whole, isCut)

/-- The bytes of a text as one array. -/
def toBytes (s : Text) : ByteArray := ⟨s.encode.toArray⟩

end Text

end TemplateFormat
