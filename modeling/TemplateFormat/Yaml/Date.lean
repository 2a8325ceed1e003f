import TemplateFormat.Yaml.Number

/-!
# Dates

A date is a year of four digits, a month and a day, with an optional time of
day: behind the letter T with a zone, or behind spaces without one.
-/

namespace TemplateFormat.Yaml

/-- The number of days of a month. -/
def daysIn (year month : Nat) : Nat :=
  if month = 2 then
    if year % 4 = 0 ∧ (year % 100 ≠ 0 ∨ year % 400 = 0) then 29 else 28
  else if month = 4 ∨ month = 6 ∨ month = 9 ∨ month = 11 then 30
  else 31

/-- A number of one or two digits and what follows it. -/
def shortNumber? (s : Text) : Option (Nat × Text) :=
  let digits := (s.take 2).takeWhile Glyph.isDigit
  (digits? 10 digits).map (·, s.drop digits.length)

/-- The text behind a given glyph. -/
def afterGlyph? (r : Glyph) (s : Text) : Option Text := Text.after? [r] s

/-- Whether a time zone fills a text: `Z`, or a sign and hours and minutes, of
which twenty-four and sixty are admitted. -/
def isZone (s : Text) : Bool :=
  match s with
  | [.char 'Z'] => true
  | [sign, a, b, .char ':', c, d] =>
    (sign = .char '+' || sign = .char '-') && [a, b, c, d].all Glyph.isDigit &&
      ((digits? 10 [a, b]).any (· ≤ 24)) && ((digits? 10 [c, d]).any (· ≤ 60))
  | _ => false

/-- Whether a time of day fills a text, with a zone behind it if `zoned` is
set. -/
def isTime (zoned : Bool) (s : Text) : Bool :=
  let result : Option Bool := do
    let (hour, s) ← shortNumber? s
    let (minute, s) ← shortNumber? (← afterGlyph? (.char ':') s)
    let (second, s) ← shortNumber? (← afterGlyph? (.char ':') s)
    let s := match s with
      | .char c :: r :: rest =>
        if (c = '.' ∨ c = ',') ∧ r.isDigit then rest.dropWhile Glyph.isDigit else s
      | s => s
    return hour < 24 && minute < 60 && second < 60 && (if zoned then isZone s else s.isEmpty)
  result.getD false

/-- Whether a text is a date, with or without a time of day. -/
def isDate (s : Text) : Bool :=
  let (digits, rest) := takeDigits s
  let result : Option Bool := do
    let year ← digits? 10 digits
    let (month, rest) ← shortNumber? (← afterGlyph? (.char '-') rest)
    let (day, rest) ← shortNumber? (← afterGlyph? (.char '-') rest)
    let valid := 1 ≤ month && month ≤ 12 && 1 ≤ day && day ≤ daysIn year month
    return digits.length == 4 && valid &&
      match rest with
      | [] => true
      | .char c :: rest =>
        ((c = 'T' ∨ c = 't') && isTime true rest) ||
          (c = ' ' && isTime false (rest.dropWhile (· = .char ' ')))
      | _ => false
  result.getD false

end TemplateFormat.Yaml
