import TemplateFormat.Text.Utf8
import TemplateFormat.Text.Words

/-!
# The path of a file URI

An editor names documents by URIs.  `Uri.filePath?` is the path of one with
the scheme `file`, with its percent escapes resolved; there is none if the URI
is malformed, in its authority or its fragment too.  A URI such as `file:x`,
with no slash behind the scheme, has the empty path.
-/

namespace TemplateFormat.Editor.Uri

/-- A control character of ASCII. -/
def isControl : Glyph → Bool
  | .stray _ => false
  | .char c => c.toNat < 0x20 || c.toNat == 0x7F

/-- The glyphs of a scheme behind its first letter. -/
def isSchemePart (r : Glyph) : Bool :=
  r.isLetter || r.isDigit || r = .char '+' || r = .char '-' || r = .char '.'

/-- The scheme of a URI in lower case, and what follows its colon; none if the
URI has no scheme. -/
def scheme? (uri : Text) : Option (Text × Text) :=
  let name := uri.takeWhile isSchemePart
  match uri.drop name.length with
  | .char ':' :: rest =>
    if name.head?.any Glyph.isLetter then some (Text.lower name, rest) else none
  | _ => none

/-- The value of a hexadecimal digit. -/
def hexDigit? : Glyph → Option UInt8
  | .stray _ => none
  | .char c =>
    if c.isDigit then some (c.toNat - 48).toUInt8
    else if 'a' ≤ c ∧ c ≤ 'f' then some (c.toNat - 87).toUInt8
    else if 'A' ≤ c ∧ c ≤ 'F' then some (c.toNat - 55).toUInt8
    else none

/-- Resolves percent escapes, which write bytes; none if one is malformed or is
refused by `admits`. -/
def unescapeBytes? (admits : UInt8 → Bool) : Text → Option (List UInt8)
  | .char '%' :: a :: b :: rest => do
    let byte := (← hexDigit? a) * 16 + (← hexDigit? b)
    if admits byte then return byte :: (← unescapeBytes? admits rest) else none
  | r :: rest => do
    if r = .char '%' then none
    return r.bytes ++ (← unescapeBytes? admits rest)
  | [] => some []

/-- The text with its percent escapes resolved. -/
def unescape? (s : Text) : Option Text :=
  (unescapeBytes? (fun _ => true) s).map fun bytes => Text.decode ⟨bytes.toArray⟩

/-- The glyphs that a host may hold as they are. -/
def isHostGlyph : Glyph → Bool
  | .stray _ => true
  | .char c =>
    c.toNat ≥ 0x80 || c.isAlphanum ||
      (text "!$&\x27()*+,;=:[]<>\x22-_.~").contains (.char c)

/-- Whether a host is well formed: its escapes write bytes beyond ASCII or a
percent sign, and all else may stand in a host. -/
def isHost (s : Text) : Bool :=
  (s.filter (· != .char '%')).all isHostGlyph &&
    (unescapeBytes? (fun byte => byte ≥ 0x80 || byte == 0x25) s).isSome

/-- Whether the zone of an address is well formed: its escapes write what may
stand in a host, a percent sign or a space. -/
def isZone (s : Text) : Bool :=
  (s.filter (· != .char '%')).all isHostGlyph &&
    (unescapeBytes? (fun byte => byte == 0x20 || byte == 0x25 ||
      (byte < 0x80 && isHostGlyph (.char (Char.ofNat byte.toNat)))) s).isSome

/-- Whether a text is a colon with digits behind it, or empty. -/
def isColonNumber (s : Text) : Bool :=
  match s with
  | [] => true
  | .char ':' :: digits => digits.all Glyph.isDigit
  | _ => false

/-- The part of a text before the first occurrence of `sep`, and the part that
starts with it; none if it does not occur. -/
def splitBefore? (sep : Text) : Text → Option (Text × Text)
  | [] => none
  | r :: s =>
    if sep.isPrefixOf (r :: s) then some ([], r :: s)
    else (splitBefore? sep s).map fun (head, tail) => (r :: head, tail)

/-- Whether a host with an optional number behind a colon is well formed; one in
brackets is an address, which may have a zone. -/
def isHostPlace (s : Text) : Bool :=
  if s.startsWith (text "[") then
    match s.cutLast? (.char ']') with
    | none => false
    | some (address, number) =>
      isColonNumber number &&
        match splitBefore? (text "%25") address with
        | some (head, zone) => isHost head && isZone zone && isHost (.char ']' :: number)
        | none => isHost s
  else
    match s.cutLast? (.char ':') with
    | none => isHost s
    | some (_, number) => isColonNumber (.char ':' :: number) && isHost s

/-- The glyphs of user information. -/
def isUserGlyph : Glyph → Bool
  | .stray _ => false
  | .char c => c.isAlphanum || (text "-._:~!$&\x27()*+,;=%@").contains (.char c)

/-- Whether the authority of a URI is well formed. -/
def isAuthority (s : Text) : Bool :=
  match s.cutLast? (.char '@') with
  | none => isHostPlace s
  | some (user, host) => isHostPlace host && user.all isUserGlyph && (unescape? user).isSome

/-- The path behind an authority, which starts behind `//`. -/
def afterAuthority? (s : Text) : Option Text :=
  if isAuthority (s.takeWhile (· != .char '/')) then some (s.dropWhile (· != .char '/')) else none

/-- The path of a URI, given what follows its scheme. -/
def path? (rest : Text) : Option Text :=
  let rest := (rest.cut (.char '?')).1
  if rest.startsWith (text "/") then
    match Text.after? (text "//") rest with
    | some authority => (afterAuthority? authority).bind unescape?
    | none => unescape? rest
  else some []

/-- The path of a file URI. -/
def filePath? (uri : Text) : Option Text :=
  let (body, fragment) := uri.cut (.char '#')
  if body.any isControl then none
  else
    match scheme? body with
    | none => none
    | some (scheme, rest) =>
      if scheme = text "file" then do
        let path ← path? rest
        let _ ← unescape? (fragment.getD [])
        return path
      else none

end TemplateFormat.Editor.Uri
