import TemplateFormat.Yaml.Scalar.Quoted

/-!
# Numbers

Whole numbers may be written in base two, eight, ten or sixteen, and count only
if they fit sixty-four bits.  Real numbers are decimal and are kept only as far
as they are used: rounded to the nearest binary fraction of fifty-three bits,
ties to even, and cut to a whole number.
-/

namespace TemplateFormat.Yaml

/-- A real number as far as a whole-number setting can use it. -/
inductive RealValue where
  /-- The number cut to a whole number. -/
  | cut (n : Int)
  | infinite (negative : Bool)
  | notANumber
deriving DecidableEq, Repr

/-- The value of a digit in bases up to sixteen. -/
def digit? (base : Nat) (r : Glyph) : Option Nat := (hexValue? r).filter (· < base)

/-- The number that digits write in a base; none without digits. -/
def digits? (base : Nat) (s : Text) : Option Nat :=
  if s.isEmpty then none
  else s.foldl (fun acc r => do return (← acc) * base + (← digit? base r)) (some 0)

/-- The least number of sixty-four bits with a sign. -/
def leastWord : Int := -0x8000000000000000

/-- The number of words of sixty-four bits. -/
def wordCount : Int := 0x10000000000000000

/-- The sign of a number and the text behind it. -/
def unsigned (s : Text) : Bool × Text :=
  match s with
  | .char '-' :: rest => (true, rest)
  | .char '+' :: rest => (false, rest)
  | s => (false, s)

/-- The base that a leading zero or a letter behind it announces, and the
digits. -/
def baseOf (s : Text) : Nat × Text :=
  match s with
  | .char '0' :: .char c :: rest =>
    if c.toLower = 'x' then (16, rest)
    else if c.toLower = 'o' then (8, rest)
    else if c.toLower = 'b' then (2, rest)
    else (8, .char c :: rest)
  | s => (10, s)

/-- The number with a sign. -/
def signed (negative : Bool) (n : Nat) : Int := if negative then -n else n

/-- A whole number with a sign in the given base, if it fits a signed word. -/
def signedWord? (base : Nat) (s : Text) : Option Int := do
  let (negative, s) := unsigned s
  let n := signed negative (← digits? base s)
  if leastWord ≤ n ∧ n < -leastWord then some n else none

/-- A whole number that fits a word of sixty-four bits, with or without a
sign. -/
def word? (s : Text) : Option Int :=
  let (negative, body) := unsigned s
  let (base, digits) := baseOf body
  match digits? base digits with
  | none => none
  | some n =>
    let n := signed negative n
    if leastWord ≤ n ∧ n < -leastWord then some n
    else if body = s ∧ 0 ≤ n ∧ n < wordCount then some n
    else none

/-- A number behind its base letter and, after it, its sign. -/
def lateSigned? (s : Text) : Option Int :=
  match s with
  | .char '0' :: .char 'b' :: rest => signedWord? 2 rest
  | .char '0' :: .char 'o' :: rest => signedWord? 8 rest
  | _ => none

/-- A decimal number: its digits as one number, and the power of ten they are
multiplied with. -/
structure Decimal where
  digits : Nat
  exponent : Int

/-- The digits at the start of a text and what follows them. -/
def takeDigits (s : Text) : Text × Text := (s.takeWhile Glyph.isDigit, s.dropWhile Glyph.isDigit)

/-- The exponent that ends a decimal number: `e`, an optional sign, digits. -/
def exponent? (s : Text) : Option Int :=
  match s with
  | [] => some 0
  | .char c :: rest =>
    if c = 'e' ∨ c = 'E' then do
      let (negative, digits) := unsigned rest
      return signed negative (← digits? 10 digits)
    else none
  | _ => none

/-- A decimal number without a sign: digits, a point and digits, one of the two
parts missing at most, and an optional exponent. -/
def decimal? (s : Text) : Option Decimal :=
  let (whole, rest) := takeDigits s
  let (fraction, rest, pointed) := match rest with
    | .char '.' :: rest =>
      let (fraction, rest) := takeDigits rest
      (fraction, rest, true)
    | rest => ([], rest, false)
  if whole.isEmpty && (!pointed || fraction.isEmpty) then none
  else do
    let exponent ← exponent? rest
    let digits ← digits? 10 (whole ++ fraction)
    return { digits, exponent := exponent - fraction.length }

/-- The number of bits of a fraction. -/
def precision : Nat := 53

/-- The fraction `n / d` rounded to the nearest number of `precision` bits, ties
to even, and cut to a whole number. -/
def roundCut (n d : Nat) : Nat :=
  let shift : Int := ((n.log2 : Int) - d.log2) - precision
  -- The quotient by `2 ^ shift` has the bits of the precision, or one more.
  let (n, d) := if 0 ≤ shift then (n, d * Nat.pow 2 shift.toNat)
    else (n * Nat.pow 2 (-shift).toNat, d)
  let extra := (n / d).log2 + 1 - precision
  let d := d * Nat.pow 2 extra
  let shift := shift + extra
  let q := n / d
  let twice := 2 * (n % d)
  let q := if twice > d ∨ (twice = d ∧ q % 2 = 1) then q + 1 else q
  if 0 ≤ shift then q * Nat.pow 2 shift.toNat else q / Nat.pow 2 (-shift).toNat

/-- The largest power of ten that a real number can reach. -/
def largestPower : Int := 309

/-- A decimal number as a real number; none if it is too large. -/
def Decimal.real? (x : Decimal) (negative : Bool) : Option RealValue :=
  let length : Int := (toString x.digits).length
  if x.digits = 0 ∨ length + x.exponent < -1 then some (.cut 0)
  else if largestPower < length + x.exponent then none
  else
    let n := if 0 ≤ x.exponent then roundCut (x.digits * Nat.pow 10 x.exponent.toNat) 1
      else roundCut x.digits (Nat.pow 10 (-x.exponent).toNat)
    if n < Nat.pow 2 1024 then some (.cut (signed negative n)) else none

/-- A decimal number with an optional sign as a real number. -/
def real? (s : Text) : Option RealValue := do
  let (negative, body) := unsigned s
  (← decimal? body).real? negative

/-- Whether every underscore of a text stands between two digits; `prev` is the
glyph before it. -/
def separatorsFit (prev : Option Glyph) : Text → Bool
  | [] => true
  | r :: s =>
    (r != .char '_' || (prev.any Glyph.isDigit && s.head?.any Glyph.isDigit)) &&
      separatorsFit (some r) s

/-- A decimal number with an optional sign and with underscores, each of which
must stand between two digits. -/
def separatedReal? (s : Text) : Option RealValue :=
  if separatorsFit none s then real? (s.filter (· != .char '_')) else none

/-- A whole number as a real number. -/
def RealValue.ofInt (n : Int) : RealValue := .cut (signed (n < 0) (roundCut n.natAbs 1))

end TemplateFormat.Yaml
