import TemplateFormat.Markup.Token
import TemplateFormat.Proofs.Blanks
import TemplateFormat.Proofs.Cutting

/-!
# What is read off a source

A token is what is read off a piece, its kind and its literal, together with
its place in the source.  Most laws do not speak of places: for them a source
is its **outline**, the list of what is read off its pieces.

* `reading` — what is read off one piece; blank text gives nothing;
* `outline_scan` — the outline of a source is read off its pieces one by one;
* `ink_scan` — the literals of a source hold its glyphs, blanks aside.
-/

namespace TemplateFormat.Markup

open Text

namespace Lexeme

/-- What is read off a piece: the kind and the literal of its token. -/
def reading (lexeme : Lexeme) : Option (Token.Kind × Text) :=
  match lexeme.kind with
  | .text =>
    if lexeme.raw.collapse.isEmpty then none else some (.text, lexeme.raw.collapse)
  | .interpolation => some (.interpolation, lexeme.raw)
  | .header word => some (.control word, lexeme.raw.collapse)
  | .blockEnd => some (.control (text "\x7d"), lexeme.raw)
  | .brace => some (.closeBrace, lexeme.raw)
  | .comment => some (.tag (text "!--") false false, lexeme.raw)
  | .tag => some (tagKind (Tag.normalize lexeme.raw), Tag.normalize lexeme.raw)

/-- The token of a piece is its reading, wherever it stands. -/
theorem token?_reading (pos : Nat) (prev : Option Glyph) (lexeme : Lexeme) :
    (lexeme.token? pos prev).map (fun tok => (tok.kind, tok.literal)) = lexeme.reading := by
  rcases lexeme with ⟨kind, raw⟩
  cases kind with
  | text =>
      simp only [token?, reading]
      split <;> rfl
  | _ => rfl

end Lexeme

namespace Token

/-- The kinds and the literals of tokens. -/
def outline (tokens : List Token) : List (Kind × Text) :=
  tokens.map fun tok => (tok.kind, tok.literal)

theorem outline_ofLexemes (pos : Nat) (prev : Option Glyph)
    (lexemes : List Lexeme) :
    outline (ofLexemes pos prev lexemes) = lexemes.filterMap Lexeme.reading := by
  induction lexemes generalizing pos prev with
  | nil => rfl
  | cons lexeme rest ih =>
      have hread := Lexeme.token?_reading pos prev lexeme
      rw [ofLexemes]
      cases htok : lexeme.token? pos prev with
      | none =>
          rw [htok] at hread
          rw [List.filterMap_cons_none hread.symm]
          exact ih _ _
      | some tok =>
          rw [htok] at hread
          rw [List.filterMap_cons_some hread.symm]
          exact congrArg _ (ih _ _)

/-- **The outline of a source** is read off its pieces one by one. -/
theorem outline_scan (source : Text) :
    outline (scan source) = (Lexeme.split source).filterMap Lexeme.reading :=
  outline_ofLexemes 0 none _

end Token

/-! ## The glyphs of literals -/

/-- Squeezing a tag changes nothing but blanks. -/
theorem Tag.strip_squeeze (prev : Option Glyph) (q : Quote) (gap : Bool)
    (s : Text) :
    strip (Tag.squeeze prev q gap s) = strip s := by
  induction s generalizing prev q gap with
  | nil => rfl
  | cons r s ih =>
      rw [Tag.squeeze]
      split
      · next h =>
          have hr := Glyph.isBlank_of_isSpace (Bool.and_eq_true_iff.mp h).2
          rw [ih, strip_cons_of_blank s hr]
      · cases hr : r.isBlank <;> split <;> simp [strip_cons_of_blank,
          strip_cons_of_ink, hr, ih]

/-- A tag that ends in ` >` loses that space. -/
theorem Tag.closeUp_spaced (body : Text) :
    Tag.closeUp (body ++ [.char ' ', .char '>']) = body ++ [.char '>'] := by
  have hend : endsWith (body ++ [.char ' ', .char '>']) (text " >") = true :=
    List.isSuffixOf_iff_suffix.mpr ⟨body, rfl⟩
  rw [Tag.closeUp, if_pos hend]
  simp

/-- Closing up the end of a tag drops at most a space. -/
theorem Tag.strip_closeUp (s : Text) : strip (Tag.closeUp s) = strip s := by
  by_cases h : s.endsWith (text " >") = true
  · obtain ⟨body, rfl⟩ := List.isSuffixOf_iff_suffix.mp h
    have hend : text " >" = [.char ' ', .char '>'] := rfl
    rw [hend, Tag.closeUp_spaced, strip_append, strip_append, strip_space_cons]
  · rw [Tag.closeUp, if_neg h]

/-- The normal form of a tag differs from the tag in blanks only. -/
@[simp] theorem Tag.strip_normalize (raw : Text) : strip (Tag.normalize raw) = strip raw := by
  rw [Tag.normalize, Tag.strip_closeUp, Tag.strip_squeeze]

/-- What is read off a piece has the glyphs of the piece; a piece that gives
nothing is blank. -/
theorem Lexeme.strip_reading (lexeme : Lexeme) :
    strip ((lexeme.reading.map Prod.snd).getD []) = strip lexeme.raw := by
  rcases lexeme with ⟨kind, raw⟩
  cases kind with
  | text =>
      simp only [reading]
      split
      · next hempty =>
          rw [← strip_collapse raw, List.isEmpty_iff.mp hempty]
          rfl
      · exact strip_collapse raw
  | header word => exact strip_collapse raw
  | tag => exact Tag.strip_normalize raw
  | _ => rfl

/-- The glyphs of the literals of tokens, side by side. -/
def Token.ink (tokens : List Token) : Text := strip (tokens.flatMap Token.literal)

@[simp] theorem Token.ink_nil : Token.ink [] = [] := rfl

@[simp] theorem Token.ink_cons (tok : Token) (tokens : List Token) :
    Token.ink (tok :: tokens) = strip tok.literal ++ Token.ink tokens := by
  simp [Token.ink]

@[simp] theorem Token.ink_append (a b : List Token) :
    Token.ink (a ++ b) = Token.ink a ++ Token.ink b := by
  simp [Token.ink]

/-- The glyphs of tokens are those of their outline. -/
theorem Token.ink_eq_outline (tokens : List Token) :
    Token.ink tokens = strip ((Token.outline tokens).flatMap Prod.snd) := by
  rw [Token.ink, Token.outline, List.flatMap_map]

theorem Lexeme.strip_readings (lexemes : List Lexeme) :
    strip ((lexemes.filterMap Lexeme.reading).flatMap Prod.snd) =
      strip (lexemes.flatMap Lexeme.raw) := by
  induction lexemes with
  | nil => rfl
  | cons lexeme rest ih =>
      have hstrip := lexeme.strip_reading
      rw [List.flatMap_cons, strip_append, ← hstrip]
      cases hread : lexeme.reading with
      | none => simpa [List.filterMap_cons_none hread] using ih
      | some read => simpa [List.filterMap_cons_some hread] using ih

/-- The tokens of a source hold the glyphs of the source. -/
theorem Token.ink_scan (source : Text) : Token.ink (Token.scan source) = strip source := by
  rw [Token.ink_eq_outline, Token.outline_scan, Lexeme.strip_readings,
    Lexeme.split_raws]

end TemplateFormat.Markup
