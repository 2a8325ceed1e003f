import TemplateFormat.Text.Glyph

/-!
# Quotes in tags and expressions

Attribute values and string literals are written between single or double
quotes.  A scan over such a text carries the kind of quotes it is inside of:
a quote character opens or closes a quoted part unless the scan is inside
the other kind, or the glyph before it is a backslash.
-/

namespace TemplateFormat

/-- What kind of quotes a scan is inside of. -/
inductive Quote where
  | outside
  | single
  | double
deriving DecidableEq, Repr

namespace Quote

/-- The state after reading `r`; `prev` is the glyph before it. -/
def next (q : Quote) (prev : Option Glyph) (r : Glyph) : Quote :=
  if prev = some (.char '\\') then q
  else match q, r with
    | .outside, .char '\x27' => .single
    | .outside, .char '\x22' => .double
    | .single, .char '\x27' => .outside
    | .double, .char '\x22' => .outside
    | q, _ => q

/-- Whether the scan stands outside all quotes. -/
def isOutside (q : Quote) : Bool := q = .outside

end Quote

end TemplateFormat
