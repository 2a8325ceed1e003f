import TemplateFormat.Text.Words
import TemplateFormat.Text.Quote

/-!
# Lexemes: a template cut into raw pieces

A template mixes plain text with four kinds of marked pieces: tags
(`<div …>`, comments included), control headers (`@if (x) {`), the ends of
control blocks (`}` and `@}`), and interpolations (`{{ expr }}`).
`Lexeme.split` cuts the source into these pieces without losing a glyph: the
raw texts of the pieces, put side by side, are the source.

At each place the kinds are tried in a fixed order; the first whose marker
stands there takes the piece, and its length is read off the text that
follows (`interpolationLength`, `headerLength`, `commentLength`,
`tagLength`).  A piece whose terminator is missing runs to the end of the
source, so cutting never fails.
-/

namespace TemplateFormat.Markup

/-- The words that open a control block after `@`. -/
def controlKeywords : List Text :=
  ["if", "else", "for", "switch", "case", "default", "defer", "loading", "error",
    "placeholder"].map text

/-- The marker that opens an interpolation. -/
def interpolationOpen : Text := text "\x7b\x7b"

/-- The marker that closes an interpolation. -/
def interpolationClose : Text := text "\x7d\x7d"

/-- The explicit end of a control block. -/
def blockClose : Text := text "@\x7d"

/-- The marker that opens a comment. -/
def commentOpen : Text := text "<!--"

/-- The marker that closes a comment. -/
def commentClose : Text := text "-->"

/-- The kinds of pieces a template is cut into. -/
inductive Lexeme.Kind where
  /-- Plain text up to the next marker. -/
  | text
  /-- `{{ … }}`, inner markers included. -/
  | interpolation
  /-- `@keyword … {`. -/
  | header (keyword : Text)
  /-- `@}`. -/
  | blockEnd
  /-- A single `}`. -/
  | brace
  /-- `<!-- … -->`. -/
  | comment
  /-- Any other tag. -/
  | tag
deriving DecidableEq, Repr

/-- A piece of a template: its kind and the text it was cut from. -/
structure Lexeme where
  kind : Lexeme.Kind
  raw : Text
deriving DecidableEq, Repr

namespace Lexeme

/-- The place where the count of open markers, `depth` on entry, first
returns to zero, or the end of the text; `n` glyphs were passed before. -/
def interpolationLength (depth n : Nat) : Text → Nat
  | [] => n
  | [_] => n + 1
  | a :: b :: s =>
    if a = .char '\x7b' ∧ b = .char '\x7b' then interpolationLength (depth + 1) (n + 2) s
    else if a = .char '\x7d' ∧ b = .char '\x7d' then
      if depth ≤ 1 then n + 2 else interpolationLength (depth - 1) (n + 2) s
    else interpolationLength depth (n + 1) (b :: s)

/-- The length of a control header: up to and including its first `{`. -/
def headerLength (n : Nat) : Text → Nat
  | [] => n
  | r :: s => if r = .char '\x7b' then n + 1 else headerLength (n + 1) s

/-- The place behind the first `-->`, or the end of the text. -/
def commentLength (n : Nat) : Text → Nat
  | [] => n
  | r :: s =>
    if commentClose.isPrefixOf (r :: s) then n + commentClose.length
    else commentLength (n + 1) s

/-- The place behind the first `>` outside quotes, or the end of the text.
`prev` is the glyph before the text. -/
def tagLength (prev : Glyph) (q : Quote) (n : Nat) : Text → Nat
  | [] => n
  | r :: s =>
    if r = .char '>' ∧ q = .outside then n + 1
    else tagLength r (q.next (some prev) r) (n + 1) s

/-- The keyword a control header starts with: the text follows an `@`. -/
def keyword? (s : Text) : Option Text := controlKeywords.find? (·.isPrefixOf s)

/-- The kind and the length of the marked piece that starts with `r` and goes
on in `s`, if one does.  `prev` is the glyph before it: a `}` right after `@`
is no piece of its own. -/
def marked? (prev : Option Glyph) (r : Glyph) (s : Text) : Option (Kind × Nat) :=
  if interpolationOpen.isPrefixOf (r :: s) then
    some (.interpolation, interpolationLength 0 0 (r :: s))
  else if r = .char '@' then
    if blockClose.isPrefixOf (r :: s) then some (.blockEnd, blockClose.length)
    else (keyword? s).map fun word => (.header word, headerLength 0 (r :: s))
  else if r = .char '\x7d' then
    if prev = some (.char '@') then none else some (.brace, 1)
  else if r = .char '<' then
    if commentOpen.isPrefixOf (r :: s) then
      some (.comment, commentLength commentOpen.length (s.drop (commentOpen.length - 1)))
    else some (.tag, tagLength r .outside 1 s)
  else none

/-- The lexeme of the text collected so far, which is in reverse; none if
nothing was collected. -/
def ofPending (pending : Text) : List Lexeme :=
  if pending.isEmpty then [] else [⟨.text, pending.reverse⟩]

/-- Cuts the text behind `prev` into pieces.  `skip` glyphs belong to a piece
already cut; `pending` holds, in reverse, the plain text collected since. -/
def splitFrom : (skip : Nat) → (prev : Option Glyph) → (pending : Text) → Text → List Lexeme
  | _, _, pending, [] => ofPending pending
  | skip + 1, _, pending, r :: s => splitFrom skip (some r) pending s
  | 0, prev, pending, r :: s =>
    match marked? prev r s with
    | some (kind, n) =>
      ofPending pending ++ ⟨kind, (r :: s).take n⟩ :: splitFrom (n - 1) (some r) [] s
    | none => splitFrom 0 (some r) (r :: pending) s

/-- The pieces of a template, in order. -/
def split (source : Text) : List Lexeme := splitFrom 0 none [] source

end Lexeme

end TemplateFormat.Markup
