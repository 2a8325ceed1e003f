import TemplateFormat.Text.Quoted
import TemplateFormat.Text.Utf16

/-!
# JSON values

Messages between an editor and the server are JSON texts.  A value keeps what
a reader of messages may need: the members of an object stay in their order,
with repeated names, and a number stays the literal it is written as, so that
`1` and `1.0` can be told apart.

`Json.read?` reads a text that is one value with spaces around it, and
`Json.toText` writes one.
-/

namespace TemplateFormat.Editor

/-- A JSON value. -/
inductive Json where
  | null
  | bool (b : Bool)
  | number (literal : Text)
  | string (s : Text)
  | array (items : List Json)
  | object (members : List (Text × Json))

instance : Inhabited Json := ⟨.null⟩

namespace Json

/-- The value of a whole number. -/
def ofInt (n : Int) : Json := .number (Text.ofInt n)

/-- The spaces between tokens. -/
def isPadding (r : Glyph) : Bool :=
  r = .char ' ' || r = .char '\t' || r = .char '\n' || r = .char '\r'

/-- The text without leading spaces. -/
def skipPadding (s : Text) : Text := s.dropWhile isPadding

/-- The value of a hexadecimal digit. -/
def hexValue? : Glyph → Option Nat
  | .stray _ => none
  | .char c =>
    if c.isDigit then some (c.toNat - 48)
    else if 'a' ≤ c ∧ c ≤ 'f' then some (c.toNat - 87)
    else if 'A' ≤ c ∧ c ≤ 'F' then some (c.toNat - 55)
    else none

/-- What an escape in a string stands for: a glyph, or one unit of UTF-16. -/
inductive Piece where
  | glyph (r : Glyph)
  | unit (n : Nat)

/-- The glyph of an escape that is a single letter. -/
def letterEscape? : Glyph → Option Glyph
  | .stray _ => none
  | .char c =>
    if c = '\x22' || c = '\\' || c = '/' then some (.char c)
    else if c = 'b' then some (.char '\x08')
    else if c = 'f' then some (.char '\x0C')
    else if c = 'n' then some (.char '\n')
    else if c = 'r' then some (.char '\r')
    else if c = 't' then some (.char '\t')
    else none

/-- The pieces of a string between its quotes; none if an escape is
malformed. -/
def pieces? : Text → Option (List Piece)
  | [] => some []
  | .char '\\' :: .char 'u' :: a :: b :: c :: d :: rest => do
    let high := (← hexValue? a) * 16 + (← hexValue? b)
    let low := (← hexValue? c) * 16 + (← hexValue? d)
    return .unit (high * 256 + low) :: (← pieces? rest)
  | .char '\\' :: e :: rest => do
    return .glyph (← letterEscape? e) :: (← pieces? rest)
  | r :: rest => do
    if r = .char '\\' then none
    return .glyph r.shown :: (← pieces? rest)

/-- The glyphs of pieces: two units that belong together are one character, and
a half without the other is shown as the replacement character. -/
def joinPieces : List Piece → Text
  | [] => []
  | .glyph r :: rest => r :: joinPieces rest
  | [.unit n] => if isHighUnit n || isLowUnit n then [.replacement] else [.char (Char.ofNat n)]
  | .unit n :: .glyph r :: rest =>
    (if isHighUnit n || isLowUnit n then .replacement else .char (Char.ofNat n)) ::
      r :: joinPieces rest
  | .unit n :: .unit m :: rest =>
    if isHighUnit n && isLowUnit m then
      .char (joinUnits n m) :: joinPieces rest
    else
      (if isHighUnit n || isLowUnit n then .replacement else .char (Char.ofNat n)) ::
        joinPieces (.unit m :: rest)

/-- What stands before the closing quote of a string, behind the glyphs of
`seen`, which are in reverse, and what follows the quote. -/
def untilQuote? (seen : Text) : Text → Option (Text × Text)
  | [] => none
  | .char '\\' :: r :: rest => untilQuote? (r :: .char '\\' :: seen) rest
  | r :: rest =>
    if r = .char '\x22' then some (seen.reverse, rest)
    else if r.code < 0x20 then none
    else untilQuote? (r :: seen) rest

/-- Reads a string behind its opening quote. -/
def readString? (s : Text) : Option (Text × Text) := do
  let (raw, rest) ← untilQuote? [] s
  return (joinPieces (← pieces? raw), rest)

/-- Reads at least one digit. -/
def readDigits? (s : Text) : Option (Text × Text) :=
  if s.head?.any Glyph.isDigit then some (s.takeWhile Glyph.isDigit, s.dropWhile Glyph.isDigit)
  else none

/-- Reads the whole part of a number: digits, with no zero in front. -/
def readWhole? (s : Text) : Option (Text × Text) :=
  match s with
  | .char '0' :: rest => some ([.char '0'], rest)
  | _ => readDigits? s

/-- Reads what follows the point of a number, if there is one. -/
def readFraction? (s : Text) : Option (Text × Text) :=
  match s with
  | .char '.' :: rest => (readDigits? rest).map fun (digits, rest) => (.char '.' :: digits, rest)
  | _ => some ([], s)

/-- Reads the exponent of a number, if there is one. -/
def readExponent? (s : Text) : Option (Text × Text) :=
  match s with
  | mark :: rest =>
    if mark = .char 'e' || mark = .char 'E' then
      let sign := (rest.take 1).filter fun r => r = .char '+' || r = .char '-'
      (readDigits? (rest.drop sign.length)).map fun (digits, rest) =>
        (mark :: sign ++ digits, rest)
    else some ([], s)
  | [] => some ([], [])

/-- Reads a number. -/
def readNumber? (s : Text) : Option (Text × Text) := do
  let sign := (s.take 1).filter (· = .char '-')
  let (whole, s) ← readWhole? (s.drop sign.length)
  let (fraction, s) ← readFraction? s
  let (exponent, s) ← readExponent? s
  return (sign ++ whole ++ fraction ++ exponent, s)

/-- Reads one of the words that are values. -/
def readWord? (s : Text) : Option (Json × Text) :=
  match Text.after? (text "null") s, Text.after? (text "true") s, Text.after? (text "false") s with
  | some rest, _, _ => some (.null, rest)
  | _, some rest, _ => some (.bool true, rest)
  | _, _, some rest => some (.bool false, rest)
  | none, none, none => none

mutual

/-- Reads a value that starts at the text, and returns what follows it.  Every
unit of `fuel` stands for a glyph that was read. -/
def readValue? : (fuel : Nat) → Text → Option (Json × Text)
  | 0, _ => none
  | fuel + 1, s =>
    match s with
    | .char '\x22' :: rest => (readString? rest).map fun (v, rest) => (.string v, rest)
    | .char '[' :: rest =>
      match skipPadding rest with
      | .char ']' :: rest => some (.array [], rest)
      | rest => (readItems? fuel rest).map fun (items, rest) => (.array items, rest)
    | .char '\x7b' :: rest =>
      match skipPadding rest with
      | .char '\x7d' :: rest => some (.object [], rest)
      | rest => (readMembers? fuel rest).map fun (members, rest) => (.object members, rest)
    | _ =>
      match readWord? s with
      | some found => some found
      | none => (readNumber? s).map fun (literal, rest) => (.number literal, rest)

/-- Reads the items of an array up to its closing bracket. -/
def readItems? : (fuel : Nat) → Text → Option (List Json × Text)
  | 0, _ => none
  | fuel + 1, s => do
    let (item, s) ← readValue? fuel s
    match skipPadding s with
    | .char ',' :: s =>
      let (items, s) ← readItems? fuel (skipPadding s)
      return (item :: items, s)
    | .char ']' :: s => return ([item], s)
    | _ => none

/-- Reads the members of an object up to its closing brace. -/
def readMembers? : (fuel : Nat) → Text → Option (List (Text × Json) × Text)
  | 0, _ => none
  | fuel + 1, s => do
    let .char '\x22' :: s := s | none
    let (name, s) ← readString? s
    let .char ':' :: s := skipPadding s | none
    let (value, s) ← readValue? fuel (skipPadding s)
    match skipPadding s with
    | .char ',' :: s =>
      let (members, s) ← readMembers? fuel (skipPadding s)
      return ((name, value) :: members, s)
    | .char '\x7d' :: s => return ([(name, value)], s)
    | _ => none

end

/-- The value a text is written as. -/
def read? (s : Text) : Option Json :=
  match readValue? (s.length + 1) (skipPadding s) with
  | some (value, rest) => if (skipPadding rest).isEmpty then some value else none
  | none => none

/-- A glyph inside the quotes of a string. -/
def escaped (r : Glyph) : Text :=
  if r = .char '\x22' || r = .char '\\' then [.char '\\', r]
  else if r.code < 0x20 then text "\\u" ++ (hexDigits 4 r.code).map Glyph.char
  else [r]

/-- A string between quotes. -/
def stringText (s : Text) : Text := .char '\x22' :: s.flatMap escaped ++ [.char '\x22']

mutual

/-- The text of a value. -/
def toText : Json → Text
  | .null => text "null"
  | .bool b => text (if b then "true" else "false")
  | .number literal => literal
  | .string s => stringText s
  | .array items => .char '[' :: itemsText true items ++ [.char ']']
  | .object members => .char '\x7b' :: membersText true members ++ [.char '\x7d']

/-- The items of an array, with a comma before each but the first one of it. -/
def itemsText (isFirst : Bool) : List Json → Text
  | [] => []
  | item :: rest => (if isFirst then [] else text ",") ++ item.toText ++ itemsText false rest

/-- The members of an object, with a comma before each but the first one of
it. -/
def membersText (isFirst : Bool) : List (Text × Json) → Text
  | [] => []
  | (name, value) :: rest =>
    (if isFirst then [] else text ",") ++ stringText name ++ text ":" ++ value.toText ++
      membersText false rest

end

end Json

end TemplateFormat.Editor
