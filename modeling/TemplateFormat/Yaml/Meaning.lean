import TemplateFormat.Yaml.Date
import TemplateFormat.Yaml.Tag
import TemplateFormat.Text.Base64

/-!
# What a scalar means

A plain scalar without a tag is a null, a truth value, a whole number, a real
number, a date or, failing these, a text; a quoted one is a text.  A tag of one
of these types asks for that type, and is refused if the scalar has another
one; any other tag makes a text.
-/

namespace TemplateFormat.Yaml

/-- The meaning of a scalar. -/
inductive Meaning where
  | null
  | truth (b : Bool)
  | whole (n : Int)
  | real (x : RealValue)
  | date
  | text (content : Text)
deriving DecidableEq, Repr

namespace Tag

/-- The tag of no value. -/
def null : Text := text "!!null"

/-- The tag of truth values. -/
def truth : Text := text "!!bool"

/-- The tag of whole numbers. -/
def whole : Text := text "!!int"

/-- The tag of real numbers. -/
def real : Text := text "!!float"

/-- The tag of dates. -/
def date : Text := text "!!timestamp"

/-- The tag of texts. -/
def string : Text := text "!!str"

/-- The tag of bytes that are written in base 64. -/
def binary : Text := text "!!binary"

/-- The tag of the key under which other mappings are merged in. -/
def merge : Text := text "!!merge"

/-- The tag of sequences. -/
def sequence : Text := text "!!seq"

/-- The tag of mappings. -/
def mapping : Text := text "!!map"

end Tag

namespace Meaning

/-- The tag of a meaning. -/
def tag : Meaning → Text
  | .null => Tag.null
  | .truth _ => Tag.truth
  | .whole _ => Tag.whole
  | .real _ => Tag.real
  | .date => Tag.date
  | .text _ => Tag.string

/-- The words for real numbers that are not written with digits. -/
def realWord? (s : Text) : Option RealValue :=
  if [".nan", ".NaN", ".NAN"].any (TemplateFormat.text · = s) then some .notANumber
  else if [".inf", ".Inf", ".INF", "+.inf", "+.Inf", "+.INF"].any (TemplateFormat.text · = s) then
    some (.infinite false)
  else if ["-.inf", "-.Inf", "-.INF"].any (TemplateFormat.text · = s) then some (.infinite true)
  else none

/-- The meaning of a word that stands for a value. -/
def ofWord? (s : Text) : Option Meaning :=
  if ["", "~", "null", "Null", "NULL"].any (TemplateFormat.text · = s) then some .null
  else if ["true", "True", "TRUE"].any (TemplateFormat.text · = s) then some (.truth true)
  else if ["false", "False", "FALSE"].any (TemplateFormat.text · = s) then some (.truth false)
  else (realWord? s).map .real

/-- The meaning of a number, which may hold underscores. -/
def ofNumber (s : Text) : Meaning :=
  let plain := s.filter (· != .char '_')
  match word? plain with
  | some n => .whole n
  | none =>
    match real? plain with
    | some x => .real x
    | none =>
      match lateSigned? plain with
      | some n => .whole n
      | none => .text s

/-- The meaning of a plain scalar; it is read as a date only if `dates` is
set. -/
def ofPlain (dates : Bool) (s : Text) : Meaning :=
  match ofWord? s with
  | some m => m
  | none =>
    match s with
    | r :: _ =>
      if r = .char '.' then
        match separatedReal? s with
        | some x => .real x
        | none => .text s
      else if r.isDigit || r = .char '+' || r = .char '-' then
        if dates && isDate s then .date else ofNumber s
      else .text s
    | [] => .null

/-- The types that a tag can ask for and a scalar can fail to have. -/
def checkedTags : List Text := [Tag.null, Tag.truth, Tag.whole, Tag.real, Tag.date]

/-- The meaning of a scalar with a tag; none if it does not fit the tag.  A whole
number with a sign fits where a real number is asked for. -/
def ofTagged? (tag s : Text) : Option Meaning :=
  if tag = Tag.binary then (Base64.decode? s).map .text
  else if checkedTags.contains tag then
    let m := ofPlain (tag = Tag.date) s
    match m with
    | .whole n =>
      if tag = Tag.whole then some m
      else if tag = Tag.real ∧ n < -leastWord then some (.real (.ofInt n))
      else none
    | _ => if m.tag = tag then some m else none
  else some (.text s)

end Meaning

/-- The tag of a scalar without one: a quoted scalar is a text, and two opening
angle brackets are the key of a merge. -/
def impliedTag (plain : Bool) (s : Text) : Text :=
  if !plain then Tag.string
  else if s = text "<<" then Tag.merge
  else (Meaning.ofPlain true s).tag

end TemplateFormat.Yaml
