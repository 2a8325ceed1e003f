import TemplateFormat.Proofs.Forms
import TemplateFormat.Proofs.Offsets

/-!
# The spans of tokens

A token remembers where it stands: `pos` and `stop` are the byte offsets of the
text that it was read off.  This file says that these **spans** partition the
source: they are not empty, they follow one another, and nothing but white space
stands between them.

`Spans pos s tokens` is that partition as a relation: the text `s`, which starts at
byte `pos`, is a gap, a span, a gap, a span, and so on.  Every fact about offsets
is an induction over it.

* `spans_scan` — the tokens of a source have spans in it;
* `Spans.exists_span`, `Spans.separated`, `Spans.blank_outside`,
  `Spans.not_texts` — what follows for single tokens, for pairs of tokens, for the
  bytes between them and for neighbours;
* `Spans.split` — a partition falls apart where its tokens do;
* `scan_partition` — all of it for the bytes of a file.
-/

namespace TemplateFormat.Markup

open Text

namespace Token

/-- The literal that is read off a span: text and headers are collapsed, tags are
put in normal form, and comments, the ends of blocks and interpolations stay as they
are. -/
def Kind.literalOf (kind : Kind) (span : Text) : Text :=
  match kind with
  | .text => span.collapse
  | .control word => if word = TemplateFormat.text "\x7d" then span else span.collapse
  | .tag .. => if commentOpen.isPrefixOf span then span else Tag.normalize span
  | .closeBrace | .interpolation => span

/-- What is read off a span has the glyphs of the span. -/
@[simp] theorem Kind.strip_literalOf (kind : Kind) (span : Text) :
    strip (kind.literalOf span) = strip span := by
  unfold literalOf
  split
  · exact strip_collapse span
  · split
    · rfl
    · exact strip_collapse span
  · split
    · rfl
    · exact Tag.strip_normalize span
  · rfl
  · rfl

/-- The tokens of a text that starts at byte `pos`, each in its place: spans with
blanks between them. -/
inductive Spans : (pos : Nat) → Text → List Token → Prop
  | stop {pos : Nat} {gap : Text} (hgap : ∀ r ∈ gap, r.isBlank = true) : Spans pos gap []
  | token {pos : Nat} {gap span rest : Text} {tok : Token} {tokens : List Token}
      (hgap : ∀ r ∈ gap, r.isBlank = true) (hspan : strip span ≠ [])
      (hpos : tok.pos = pos + gap.width) (hstop : tok.stop = tok.pos + span.width)
      (hliteral : tok.literal = tok.kind.literalOf span)
      (hnext : tok.kind = .text → ∀ next ∈ tokens.head?, next.kind ≠ .text)
      (tail : Spans tok.stop rest tokens) :
      Spans pos (gap ++ span ++ rest) (tok :: tokens)

/-- Blanks before a text widen its first gap. -/
theorem Spans.blanks {pos : Nat} {w s : Text} {tokens : List Token}
    (hw : ∀ r ∈ w, r.isBlank = true) (h : Spans (pos + w.width) s tokens) :
    Spans pos (w ++ s) tokens := by
  have hall : ∀ gap : Text, (∀ r ∈ gap, r.isBlank = true) →
      ∀ r ∈ w ++ gap, r.isBlank = true := by
    intro gap hgap r hr
    rcases List.mem_append.mp hr with hr | hr
    · exact hw r hr
    · exact hgap r hr
  cases h with
  | stop hgap => exact .stop (hall _ hgap)
  | @token _ gap span rest tok tokens hgap hspan hpos hstop hliteral hnext tail =>
      have hwider : tok.pos = pos + (w ++ gap).width := by
        rw [hpos, width_append]
        omega
      have hwhole : w ++ (gap ++ span ++ rest) = (w ++ gap) ++ span ++ rest := by
        simp only [List.append_assoc]
      rw [hwhole]
      exact .token (hall gap hgap) hspan hwider hstop hliteral hnext tail

end Token

/-! ## The spans of a source -/

namespace Lexeme

open Token

/-- The token of a marked piece spans the whole piece. -/
theorem token?_of_marked {kind : Kind} {raw : Text}
    (h : Closed kind raw ∨ Running kind raw) (pos : Nat) (prev : Option Glyph) :
    ∃ tok, token? pos prev ⟨kind, raw⟩ = some tok ∧ tok.kind ≠ .text ∧ tok.pos = pos ∧
      tok.stop = tok.pos + raw.width ∧ tok.literal = tok.kind.literalOf raw := by
  have hheader : ∀ {word s : Text}, keyword? s = some word →
      Token.Kind.literalOf (.control word) raw = raw.collapse := by
    intro word s hword
    simp [Token.Kind.literalOf, keyword?_ne_brace hword]
  have htag : ∀ {s : Text}, raw = .char '<' :: s → ¬text "!--" <+: s →
      (tagKind (Tag.normalize raw)).literalOf raw = Tag.normalize raw := by
    rintro s rfl hopen
    simp [Token.Kind.literalOf, tagKind, not_isPrefixOf_tag hopen]
  rcases h with h | h
  · cases h with
    | interpolation => exact ⟨_, rfl, by simp [place], rfl, rfl, rfl⟩
    | header hword => exact ⟨_, rfl, by simp [place], rfl, rfl, (hheader hword).symm⟩
    | blockEnd => exact ⟨_, rfl, by simp [place], rfl, rfl, rfl⟩
    | brace => exact ⟨_, rfl, by simp [place], rfl, rfl, rfl⟩
    | comment => exact ⟨_, rfl, by simp [place], rfl, rfl, by simp [place, Token.Kind.literalOf]⟩
    | tag hopen => exact ⟨_, rfl, by simp [place, tagKind], rfl, rfl, (htag rfl hopen).symm⟩
  · cases h with
    | interpolation => exact ⟨_, rfl, by simp [place], rfl, rfl, rfl⟩
    | header hword => exact ⟨_, rfl, by simp [place], rfl, rfl, (hheader hword).symm⟩
    | comment => exact ⟨_, rfl, by simp [place], rfl, rfl, by simp [place, Token.Kind.literalOf]⟩
    | tag hopen => exact ⟨_, rfl, by simp [place, tagKind], rfl, rfl, (htag rfl hopen).symm⟩

/-- A marked piece starts with a glyph that is not blank. -/
theorem strip_marked {kind : Kind} {raw : Text} (h : Closed kind raw ∨ Running kind raw) :
    strip raw ≠ [] := by
  have hhead : ∀ r ∈ raw.head?, r.isBlank = false := h.elim (·.trimmed.head) Running.head
  have hne : raw ≠ [] := by
    rcases h with h | h
    · exact h.ne_nil
    · cases h <;> simp [commentOpen, text]
  obtain ⟨r, rest, rfl⟩ := List.exists_cons_of_ne_nil hne
  rw [strip_cons_of_ink rest (hhead r rfl)]
  simp

/-- A text that gives a token does not consist of spaces. -/
theorem exists_not_space {s : Text} (h : ¬s.collapse.isEmpty = true) :
    ∃ r ∈ s, r.isSpace = false := by
  cases hall : s.all Glyph.isSpace with
  | false => simpa using hall
  | true =>
      refine absurd (List.isEmpty_iff.mpr ?_) h
      simpa [collapse] using collapse_append_blank [] fun r hr =>
        Glyph.isBlank_of_isSpace (List.all_eq_true.mp hall r hr)

/-- A text that does not consist of spaces has a core between those at its ends. -/
theorem exists_core {s : Text} (h : ∃ r ∈ s, r.isSpace = false) :
    ∃ front core back : Text, s = front ++ core ++ back ∧
      (∀ r ∈ front, r.isBlank = true) ∧ (∀ r ∈ back, r.isBlank = true) ∧
      s.takeWhile Glyph.isSpace = front ∧ s.reverse.takeWhile Glyph.isSpace = back.reverse := by
  have hspaces : ∀ {u : Text} {r : Glyph}, r ∈ u.takeWhile Glyph.isSpace → r.isSpace = true :=
    fun hr => List.all_eq_true.mp List.all_takeWhile _ hr
  obtain ⟨a, ha, hspace⟩ := h
  let rest := s.dropWhile Glyph.isSpace
  have hsplit : s.takeWhile Glyph.isSpace ++ rest = s := List.takeWhile_append_dropWhile
  have hrest : a ∈ rest.reverse := by
    rw [List.mem_reverse]
    rw [← hsplit] at ha
    rcases List.mem_append.mp ha with ha | ha
    · simp [hspaces ha] at hspace
    · exact ha
  have hback := List.takeWhile_append_dropWhile (p := Glyph.isSpace) (l := rest.reverse)
  -- the spaces at the end of the whole are those at the end of the rest
  have hend : s.reverse.takeWhile Glyph.isSpace = rest.reverse.takeWhile Glyph.isSpace := by
    conv => lhs; rw [← hsplit, List.reverse_append, List.takeWhile_append]
    rw [if_neg]
    intro hlen
    have hall := (List.takeWhile_prefix Glyph.isSpace (l := rest.reverse)).eq_of_length hlen
    rw [← hall] at hrest
    simp [hspaces hrest] at hspace
  refine ⟨s.takeWhile Glyph.isSpace, (rest.reverse.dropWhile Glyph.isSpace).reverse,
    (rest.reverse.takeWhile Glyph.isSpace).reverse, ?_, ?_, ?_, rfl, ?_⟩
  · rw [List.append_assoc, ← List.reverse_append, hback, List.reverse_reverse, hsplit]
  · intro r hr
    exact Glyph.isBlank_of_isSpace (hspaces hr)
  · intro r hr
    exact Glyph.isBlank_of_isSpace (hspaces (List.mem_reverse.mp hr))
  · rw [hend, List.reverse_reverse]

/-- Where no text comes first, no text token does. -/
theorem head_ofLexemes {lexemes : List Lexeme} (pos : Nat) (prev : Option Glyph)
    (h : ∀ lexeme ∈ lexemes.head?, lexeme.kind ≠ .text) (hsound : Sound lexemes) :
    ∀ tok ∈ (ofLexemes pos prev lexemes).head?, tok.kind ≠ .text := by
  intro tok htok
  cases hsound with
  | nil => cases htok
  | text => exact absurd rfl (h _ rfl)
  | closed hclosed tail =>
      obtain ⟨found, hfound, hkind, -⟩ := token?_of_marked (.inl hclosed) pos prev
      rw [ofLexemes, hfound] at htok
      obtain rfl : found = tok := by simpa using htok
      exact hkind
  | running hrunning =>
      obtain ⟨found, hfound, hkind, -⟩ := token?_of_marked (.inr hrunning) pos prev
      rw [ofLexemes, hfound] at htok
      obtain rfl : found = tok := by simpa using htok
      exact hkind

/-- A marked piece spans all of itself. -/
theorem spans_marked {kind : Kind} {raw rest : Text} {lexemes : List Lexeme} {pos : Nat}
    {prev : Option Glyph} (h : Closed kind raw ∨ Running kind raw)
    (tail : Spans (pos + raw.width) rest (ofLexemes (pos + raw.width) raw.getLast? lexemes)) :
    Spans pos (raw ++ rest) (ofLexemes pos prev (⟨kind, raw⟩ :: lexemes)) := by
  obtain ⟨tok, htok, hkind, hpos, hstop, hliteral⟩ := token?_of_marked h pos prev
  rw [ofLexemes, htok]
  have htail : Spans tok.stop rest (ofLexemes (pos + raw.width) raw.getLast? lexemes) := by
    rw [hstop, hpos]
    exact tail
  have hspan : Spans pos ([] ++ raw ++ rest) (tok :: ofLexemes (pos + raw.width) raw.getLast?
      lexemes) :=
    .token (by simp) (strip_marked h) (by simpa using hpos) hstop hliteral
      (fun htext => absurd htext hkind) htail
  exact hspan

/-- Blank text adds to a gap; other text spans all but the spaces at its ends. -/
theorem spans_text {s rest : Text} {lexemes : List Lexeme} {pos : Nat} {prev : Option Glyph}
    (hnext : ∀ tok ∈ (ofLexemes (pos + s.width) s.getLast? lexemes).head?, tok.kind ≠ .text)
    (tail : Spans (pos + s.width) rest (ofLexemes (pos + s.width) s.getLast? lexemes)) :
    Spans pos (s ++ rest) (ofLexemes pos prev (⟨.text, s⟩ :: lexemes)) := by
  by_cases hempty : s.collapse.isEmpty = true
  · have hblank : ∀ r ∈ s, r.isBlank = true := by
      rw [← strip_eq_nil_iff, ← strip_collapse, List.isEmpty_iff.mp hempty]
      rfl
    simp only [ofLexemes, token?, hempty, if_true]
    exact .blanks hblank tail
  · simp only [ofLexemes, token?, if_neg hempty]
    have hink : strip s ≠ [] := by
      intro hnil
      have hcollapse : s.collapse = [] := by
        simpa [collapse] using collapse_append_blank [] (strip_eq_nil_iff.mp hnil)
      simp [hcollapse] at hempty
    obtain ⟨front, core, back, rfl, hfront, hback, hhead, hend⟩ :=
      exists_core (exists_not_space hempty)
    have hcore : strip core ≠ [] := by
      simpa [strip_eq_nil_of_blank hfront, strip_eq_nil_of_blank hback] using hink
    have hcollapse : collapse (front ++ core ++ back) = core.collapse := by
      rw [collapse_append_blank _ hback, collapse_append_of_blank hfront]
    have hsource : front ++ core ++ back ++ rest = front ++ core ++ (back ++ rest) := by
      simp only [List.append_assoc]
    have hstop : pos + width (front ++ core ++ back) - width back =
        pos + front.width + core.width := by
      simp only [width_append]
      omega
    rw [hhead, hend, width_reverse, hstop, hsource]
    refine .token hfront hcore rfl rfl hcollapse (fun _ => hnext) (.blanks hback ?_)
    simpa [place, width_append, Nat.add_assoc] using tail

/-- **The tokens of sound pieces** have spans in the text of the pieces. -/
theorem spans_ofLexemes {lexemes : List Lexeme} (h : Sound lexemes) (pos : Nat)
    (prev : Option Glyph) :
    Spans pos (lexemes.flatMap raw) (ofLexemes pos prev lexemes) := by
  induction h generalizing pos prev with
  | nil => exact .stop (by simp)
  | @text s rest hs hnext tail ih =>
      rw [List.flatMap_cons]
      exact spans_text (head_ofLexemes _ _ hnext tail) (ih _ _)
  | @closed kind raw rest hclosed tail ih =>
      rw [List.flatMap_cons]
      exact spans_marked (.inl hclosed) (ih _ _)
  | @running kind raw hrunning =>
      rw [List.flatMap_cons]
      exact spans_marked (.inr hrunning) (.stop (by simp))

end Lexeme

namespace Token

/-- **The tokens of a source** have spans in it. -/
theorem spans_scan (source : Text) : Spans 0 source (scan source) := by
  have h := Lexeme.spans_ofLexemes (Lexeme.sound_split source) 0 none
  rwa [Lexeme.split_raws] at h

/-! ## What the spans say -/

/-- A token stands where its offsets say, and its literal is read off there. -/
theorem Spans.exists_span {pos : Nat} {s : Text} {tokens : List Token} (h : Spans pos s tokens)
    {tok : Token} (htok : tok ∈ tokens) :
    ∃ before span after : Text, s = before ++ span ++ after ∧ strip span ≠ [] ∧
      tok.pos = pos + before.width ∧ tok.stop = tok.pos + span.width ∧
      tok.literal = tok.kind.literalOf span := by
  induction h with
  | stop => cases htok
  | @token pos gap span rest first tokens hgap hspan hpos hstop hliteral hnext tail ih =>
      rcases List.mem_cons.mp htok with rfl | htok
      · exact ⟨gap, span, rest, rfl, hspan, hpos, hstop, hliteral⟩
      · obtain ⟨before, inner, after, rfl, hinner, hpos', hstop', hliteral'⟩ := ih htok
        refine ⟨gap ++ span ++ before, inner, after, ?_, hinner, ?_, hstop', hliteral'⟩
        · simp only [List.append_assoc]
        · simp only [width_append]
          omega

/-- Every token has a glyph that is not blank. -/
theorem Spans.strip_literal {pos : Nat} {s : Text} {tokens : List Token} (h : Spans pos s tokens)
    {tok : Token} (htok : tok ∈ tokens) : strip tok.literal ≠ [] := by
  obtain ⟨before, span, after, -, hspan, -, -, hliteral⟩ := h.exists_span htok
  rw [hliteral, Kind.strip_literalOf]
  exact hspan

/-- No token starts before the text does. -/
theorem Spans.le_pos {pos : Nat} {s : Text} {tokens : List Token} (h : Spans pos s tokens)
    {tok : Token} (htok : tok ∈ tokens) : pos ≤ tok.pos := by
  obtain ⟨before, span, after, -, -, hpos, -⟩ := h.exists_span htok
  omega

/-- Each token ends before the next ones start. -/
theorem Spans.separated {pos : Nat} {s : Text} {tokens : List Token} (h : Spans pos s tokens) :
    tokens.Pairwise fun a b => a.stop ≤ b.pos := by
  induction h with
  | stop => exact .nil
  | token _ _ _ _ _ _ tail ih => exact .cons (fun tok htok => tail.le_pos htok) ih

/-- A byte outside all spans belongs to a blank. -/
theorem Spans.blank_outside {pos : Nat} {s : Text} {tokens : List Token} (h : Spans pos s tokens)
    {k : Nat} (hk : k < s.width)
    (hout : ∀ tok ∈ tokens, ¬(tok.pos ≤ pos + k ∧ pos + k < tok.stop)) :
    ∃ r, holder? k s = some r ∧ r.isBlank = true := by
  induction h generalizing k with
  | @stop pos gap hgap =>
      obtain ⟨r, hr, hholder⟩ := holder?_of_lt hk []
      exact ⟨r, by simpa using hholder, hgap r hr⟩
  | @token pos gap span rest tok tokens hgap hspan hpos hstop hliteral hnext tail ih =>
      by_cases hfirst : k < gap.width
      · obtain ⟨r, hr, hholder⟩ := holder?_of_lt hfirst (span ++ rest)
        exact ⟨r, by simpa using hholder, hgap r hr⟩
      · -- the byte is not in the first span, so it stands behind it
        have hbehind : ¬(tok.pos ≤ pos + k ∧ pos + k < tok.stop) := hout tok List.mem_cons_self
        obtain ⟨later, hlater⟩ : ∃ later, k = (gap ++ span).width + later := by
          refine ⟨k - (gap ++ span).width, ?_⟩
          rw [width_append]
          omega
        simp only [width_append] at hlater hk
        have hrest := ih (k := later) (by omega) fun next hmem hin => by
          refine hout next (List.mem_cons_of_mem tok hmem) ?_
          omega
        have hplace : k = (gap ++ span).width + later := by rw [width_append]; exact hlater
        rw [hplace, holder?_append]
        exact hrest

/-- **A partition falls apart where its tokens do**: right behind the last token of the
first part. -/
theorem Spans.split {pos : Nat} {s : Text} {a b : List Token} (h : Spans pos s (a ++ b)) :
    ∃ x y : Text, s = x ++ y ∧ Spans pos x a ∧ Spans (pos + x.width) y b ∧
      pos + x.width = (a.getLast?.map Token.stop).getD pos := by
  induction a generalizing pos s with
  | nil => exact ⟨[], s, rfl, .stop (by simp), h, rfl⟩
  | cons tok a ih =>
      rw [List.cons_append] at h
      generalize hall : a ++ b = tokens at h
      cases h with
      | @token _ gap span rest _ _ hgap hspan hpos hstop hliteral hnext tail =>
          obtain ⟨x, y, rfl, hx, hy, hlast⟩ := ih (hall ▸ tail)
          have hwidth : pos + (gap ++ span ++ x).width = tok.stop + x.width := by
            simp only [width_append]
            omega
          refine ⟨gap ++ span ++ x, y, by simp only [List.append_assoc], ?_, ?_, ?_⟩
          · refine .token hgap hspan hpos hstop hliteral (fun htext next hmem => ?_) hx
            exact hnext htext next (by rw [← hall, List.head?_append, hmem]; rfl)
          · rw [hwidth]
            exact hy
          · rw [hwidth, hlast, List.getLast?_cons]
            cases a.getLast? <;> rfl

/-- No two neighbours are texts. -/
theorem Spans.not_texts {pos : Nat} {s : Text} {before after : List Token} {a b : Token}
    (h : Spans pos s (before ++ a :: b :: after)) : ¬(a.kind = .text ∧ b.kind = .text) := by
  obtain ⟨x, y, -, -, hrest, -⟩ := h.split
  cases hrest with
  | token _ _ _ _ _ hnext => exact fun hboth => hnext hboth.1 b rfl hboth.2

/-- The glyphs of a text are those of its tokens. -/
theorem Spans.strip_eq {pos : Nat} {s : Text} {tokens : List Token} (h : Spans pos s tokens) :
    strip s = ink tokens := by
  induction h with
  | stop hgap => exact strip_eq_nil_of_blank hgap
  | token hgap hspan hpos hstop hliteral hnext tail ih =>
      rw [strip_append, strip_append, strip_eq_nil_of_blank hgap, ih, ink_cons, hliteral,
        Kind.strip_literalOf, List.nil_append]

/-- A token has a span. -/
theorem pos_lt_stop {source : Text} {tok : Token} (htok : tok ∈ scan source) :
    tok.pos < tok.stop := by
  obtain ⟨before, span, after, -, hspan, hpos, hstop, -⟩ := (spans_scan source).exists_span htok
  have hne : span ≠ [] := by
    rintro rfl
    exact hspan rfl
  have hwidth := width_pos_of_ne_nil hne
  omega

/-- **The tokens of a file partition its bytes.**  Every span holds at least one byte and
lies inside the file, each ends before the next starts, and a byte outside all of them
belongs to a White_Space character.  No two texts stand side by side.  Each literal is
read off the bytes of its span by the kind of the token, and so the literals hold the
characters of the file, white space aside. -/
theorem scan_partition (bytes : ByteArray) :
    let source := decode bytes
    let tokens := scan source
    (∀ tok ∈ tokens, tok.pos < tok.stop ∧ tok.stop ≤ bytes.size) ∧
    tokens.Pairwise (fun a b => a.pos < b.pos ∧ a.stop ≤ b.pos) ∧
    (∀ k < bytes.size, (∀ tok ∈ tokens, ¬(tok.pos ≤ k ∧ k < tok.stop)) →
      ∃ r, holder? k source = some r ∧ r.isBlank = true) ∧
    (∀ before a b after, tokens = before ++ a :: b :: after →
      ¬(a.kind = .text ∧ b.kind = .text)) ∧
    (∀ tok ∈ tokens,
      encode (slice tok.pos tok.stop source) = (bytes.extract tok.pos tok.stop).data.toList ∧
      tok.literal = tok.kind.literalOf (slice tok.pos tok.stop source)) ∧
    strip (tokens.flatMap literal) = strip source := by
  intro source tokens
  have hspans : Spans 0 source tokens := spans_scan source
  have hsize : source.width = bytes.size := width_decode bytes
  have hinside : ∀ tok ∈ tokens, tok.pos < tok.stop ∧ tok.stop ≤ bytes.size := by
    intro tok htok
    obtain ⟨before, span, after, hsource, hspan, hpos, hstop, -⟩ := hspans.exists_span htok
    have hne : span ≠ [] := by
      rintro rfl
      exact hspan rfl
    have hwidth := width_pos_of_ne_nil hne
    rw [← hsize, hsource, width_append, width_append]
    omega
  refine ⟨hinside, ?_, ?_, ?_, ?_, ink_scan source⟩
  · refine hspans.separated.imp_of_mem fun {a b} ha _ hab => ⟨?_, hab⟩
    have := (hinside a ha).1
    omega
  · intro k hk hout
    exact hspans.blank_outside (by omega) (by simpa using hout)
  · intro before a b after htokens
    rw [htokens] at hspans
    exact hspans.not_texts
  · intro tok htok
    obtain ⟨before, span, after, hsource, -, hpos, hstop, hliteral⟩ := hspans.exists_span htok
    rw [Nat.zero_add] at hpos
    have hslice : slice tok.pos tok.stop source = span := by
      rw [hstop, hpos, hsource, slice_append]
    rw [hslice]
    refine ⟨?_, hliteral⟩
    rw [hstop, hpos]
    exact encode_of_decode_eq hsource

end Token

end TemplateFormat.Markup
