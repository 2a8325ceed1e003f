import TemplateFormat.Text.Utf8

/-!
# Base 64

Four characters write three bytes.  A last group may write one or two bytes, and
is filled up with `=`; line ends are passed over.
-/

namespace TemplateFormat.Base64

/-- The six bits a character writes. -/
def digit? : Glyph → Option Nat
  | .stray _ => none
  | .char c =>
    if c.isUpper then some (c.toNat - 65)
    else if c.isLower then some (c.toNat - 71)
    else if c.isDigit then some (c.toNat + 4)
    else if c = '+' then some 62
    else if c = '/' then some 63
    else none

/-- The byte that stands `shift` bits from the right in a number. -/
def byteAt (n shift : Nat) : UInt8 := UInt8.ofNat (n >>> shift)

/-- The bytes of groups of four characters. -/
def groups? : Text → Option (List UInt8)
  | [] => some []
  | [a, b, .char '=', .char '='] => do
    return [byteAt ((← digit? a) * 64 + (← digit? b)) 4]
  | [a, b, c, .char '='] => do
    let n := ((← digit? a) * 64 + (← digit? b)) * 64 + (← digit? c)
    return [byteAt n 10, byteAt n 2]
  | a :: b :: c :: d :: rest => do
    let n := (((← digit? a) * 64 + (← digit? b)) * 64 + (← digit? c)) * 64 + (← digit? d)
    return byteAt n 16 :: byteAt n 8 :: byteAt n 0 :: (← groups? rest)
  | _ => none

/-- The bytes that a text writes, read as a text. -/
def decode? (s : Text) : Option Text := do
  let bytes ← groups? (s.filter fun r => r != .char '\n' && r != .char '\r')
  return Text.decode ⟨bytes.toArray⟩

end TemplateFormat.Base64
