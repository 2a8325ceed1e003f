import TemplateFormat.Text.Lowercase

/-!
# Words: trimming, collapsing and squashing white space

The formatter compares and changes texts up to white space.  Here are the
views it does that with:

* `trim` — the text without blank ends;
* `words` — the maximal parts without blanks, and `collapse`, which joins
  them with single spaces;
* `lead n` — the first `n` glyphs of the collapsed text, read off without
  collapsing more of the text than needed;
* `squash` — the text in lower case without any blanks, the key under which
  two spellings of one element meet;
* `strip` — the glyphs that are not blank.
-/

namespace TemplateFormat.Text

/-- The text without the glyphs of `cut` at its start. -/
def trimStart (cut : Glyph → Bool) (s : Text) : Text := s.dropWhile cut

/-- The text without the glyphs of `cut` at its end. -/
def trimEnd (cut : Glyph → Bool) (s : Text) : Text := (s.reverse.dropWhile cut).reverse

/-- The text without blanks at either end. -/
def trim (s : Text) : Text := trimEnd Glyph.isBlank (trimStart Glyph.isBlank s)

/-- Whether the text holds nothing but blanks. -/
def isBlank (s : Text) : Bool := s.all Glyph.isBlank

/-- The maximal parts of a text that hold no blank. -/
def words (s : Text) : List Text := (s.splitOnP Glyph.isBlank).filter (!·.isEmpty)

/-- The words of a text with one space between neighbours. -/
def collapse (s : Text) : Text := join [.char ' '] (words s)

/-- The glyphs that are not blank. -/
def strip (s : Text) : Text := s.filter (!·.isBlank)

/-- The text in lower case with all blanks left out. -/
def squash (s : Text) : Text := s.filterMap fun r => if r.isBlank then none else some r.lower

/-- The next glyphs of the collapsed text, at most `n` of them.  `started`
tells that a glyph was written before, `gap` that blanks were passed since. -/
def leadFrom (started gap : Bool) : (n : Nat) → Text → Text
  | 0, _ => []
  | _ + 1, [] => []
  | n + 1, r :: s =>
    if r.isBlank then leadFrom started started (n + 1) s
    else if gap then
      .char ' ' :: (match n with
        | 0 => []
        | m + 1 => r.shown :: leadFrom true false m s)
    else r.shown :: leadFrom true false n s

/-- The first `n` glyphs of the collapsed text, stray bytes shown as the
replacement character. -/
def lead (n : Nat) (s : Text) : Text := leadFrom false false n s

end TemplateFormat.Text
