import TemplateFormat.Text.Quoted

/-!
# SHA-256

The digest under which the cache knows a content.  A message is padded to
whole blocks of sixteen words; each block is stretched to a schedule of
sixty-four words and mixed into the eight words of the state.
-/

namespace TemplateFormat.Digest

/-- The words mixed in by the sixty-four rounds. -/
def roundWords : List UInt32 := [
  0x428a2f98, 0x71374491, 0xb5c0fbcf, 0xe9b5dba5, 0x3956c25b, 0x59f111f1, 0x923f82a4, 0xab1c5ed5,
  0xd807aa98, 0x12835b01, 0x243185be, 0x550c7dc3, 0x72be5d74, 0x80deb1fe, 0x9bdc06a7, 0xc19bf174,
  0xe49b69c1, 0xefbe4786, 0x0fc19dc6, 0x240ca1cc, 0x2de92c6f, 0x4a7484aa, 0x5cb0a9dc, 0x76f988da,
  0x983e5152, 0xa831c66d, 0xb00327c8, 0xbf597fc7, 0xc6e00bf3, 0xd5a79147, 0x06ca6351, 0x14292967,
  0x27b70a85, 0x2e1b2138, 0x4d2c6dfc, 0x53380d13, 0x650a7354, 0x766a0abb, 0x81c2c92e, 0x92722c85,
  0xa2bfe8a1, 0xa81a664b, 0xc24b8b70, 0xc76c51a3, 0xd192e819, 0xd6990624, 0xf40e3585, 0x106aa070,
  0x19a4c116, 0x1e376c08, 0x2748774c, 0x34b0bcb5, 0x391c0cb3, 0x4ed8aa4a, 0x5b9cca4f, 0x682e6ff3,
  0x748f82ee, 0x78a5636f, 0x84c87814, 0x8cc70208, 0x90befffa, 0xa4506ceb, 0xbef9a3f7, 0xc67178f2]

/-- The eight words of the state. -/
structure State where
  a : UInt32
  b : UInt32
  c : UInt32
  d : UInt32
  e : UInt32
  f : UInt32
  g : UInt32
  h : UInt32

namespace State

/-- The state before the first block. -/
def start : State where
  a := 0x6a09e667
  b := 0xbb67ae85
  c := 0x3c6ef372
  d := 0xa54ff53a
  e := 0x510e527f
  f := 0x9b05688c
  g := 0x1f83d9ab
  h := 0x5be0cd19

/-- The words of the state added place by place. -/
def add (s t : State) : State :=
  ⟨s.a + t.a, s.b + t.b, s.c + t.c, s.d + t.d, s.e + t.e, s.f + t.f, s.g + t.g, s.h + t.h⟩

/-- The words of the state in order. -/
def words (s : State) : List UInt32 := [s.a, s.b, s.c, s.d, s.e, s.f, s.g, s.h]

end State

/-- The word turned right by `n` places. -/
def rotate (n x : UInt32) : UInt32 := (x >>> n) ||| (x <<< (32 - n))

/-- One round with a round word and a word of the schedule. -/
def round (s : State) (k w : UInt32) : State :=
  let big1 := rotate 6 s.e ^^^ rotate 11 s.e ^^^ rotate 25 s.e
  let choose := (s.e &&& s.f) ^^^ (~~~ s.e &&& s.g)
  let t1 := s.h + big1 + choose + k + w
  let big0 := rotate 2 s.a ^^^ rotate 13 s.a ^^^ rotate 22 s.a
  let majority := (s.a &&& s.b) ^^^ (s.a &&& s.c) ^^^ (s.b &&& s.c)
  let t2 := big0 + majority
  ⟨t1 + t2, s.a, s.b, s.c, s.d + t1, s.e, s.f, s.g⟩

/-- The word that follows the last sixteen words of a schedule, which are in
reverse. -/
def nextWord (last : List UInt32) : UInt32 :=
  let w2 := last.getD 1 0
  let w7 := last.getD 6 0
  let w15 := last.getD 14 0
  let w16 := last.getD 15 0
  let small0 := rotate 7 w15 ^^^ rotate 18 w15 ^^^ (w15 >>> 3)
  let small1 := rotate 17 w2 ^^^ rotate 19 w2 ^^^ (w2 >>> 10)
  w16 + small0 + w7 + small1

/-- Puts `n` more words before the words of a schedule, which are in reverse. -/
def stretch : (n : Nat) → List UInt32 → List UInt32
  | 0, reversed => reversed
  | n + 1, reversed => stretch n (nextWord reversed :: reversed)

/-- The schedule of a block of sixteen words. -/
def schedule (block : List UInt32) : List UInt32 := (stretch 48 block.reverse).reverse

/-- Mixes a block into the state. -/
def mix (s : State) (block : List UInt32) : State :=
  s.add ((roundWords.zip (schedule block)).foldl (fun t (k, w) => round t k w) s)

/-- The words of a sequence of bytes, the high byte first, put behind `seen`,
which is in reverse. -/
def wordsFrom (seen : List UInt32) : List UInt8 → List UInt32
  | a :: b :: c :: d :: rest =>
    wordsFrom (((a.toUInt32 <<< 24) ||| (b.toUInt32 <<< 16) ||| (c.toUInt32 <<< 8) |||
      d.toUInt32) :: seen) rest
  | _ => seen.reverse

/-- The bytes of a number of up to sixty-four bits, the high byte first. -/
def lengthBytes (n : Nat) : List UInt8 :=
  [56, 48, 40, 32, 24, 16, 8, 0].map fun shift => UInt8.ofNat (n >>> shift)

/-- The message with a one bit, zeros and its length in bits behind it: whole
blocks. -/
def pad (message : List UInt8) : List UInt8 :=
  let zeros := (119 - message.length % 64) % 64
  message ++ 0x80 :: List.replicate zeros 0 ++ lengthBytes (8 * message.length)

/-- Mixes `n` blocks of sixteen words into the state. -/
def mixBlocks : (n : Nat) → State → List UInt32 → State
  | 0, s, _ => s
  | n + 1, s, words => mixBlocks n (mix s (words.take 16)) (words.drop 16)

/-- The digest of a message, as eight words. -/
def sha256 (message : List UInt8) : List UInt32 :=
  let words := wordsFrom [] (pad message)
  (mixBlocks (words.length / 16) .start words).words

/-- The digest of a message in hexadecimal digits. -/
def sha256Hex (message : List UInt8) : Text :=
  (sha256 message).flatMap fun word => (hexDigits 8 word.toNat).map Glyph.char

end TemplateFormat.Digest
