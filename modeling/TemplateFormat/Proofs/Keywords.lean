import TemplateFormat.Proofs.SpanShapes

/-!
# Keywords and words that begin with one

A control header starts with `@` and a keyword.  The grammar of headers has white space, a
parenthesis or the brace behind the keyword; the scanner does not look there, so an `@` and
any word that merely begins with a keyword (`me@iffy.org`) start a header, too, which runs on
over tags to the next `{`.

* `Mention` — a word of the source that merely begins with a keyword;
* `header_of_keyword` — a token that starts with `@` and a keyword is a header;
* `eq_of_overlap` — a byte belongs to one token at most;
* `keywordEnds_iff` — headers start at keywords only exactly if every mention stands inside
  another token.
-/

namespace TemplateFormat.Markup

open Text

/-- Whether a keyword ends before the text, as the grammar of headers asks: at a gap, a
parenthesis, a brace or the end of the source. -/
def endsKeyword (s : Text) : Bool :=
  s.head?.all fun r => r.isGap || r = .char '(' || r = .char '\x7b'

/-- A word behind an `@` that begins with a keyword and goes on: the source before the `@`,
the keyword, and what follows the keyword. -/
structure Mention (source before word rest : Text) : Prop where
  source_eq : source = before ++ .char '@' :: (word ++ rest)
  keyword : word ∈ controlKeywords
  goes_on : endsKeyword rest = false

/-- No keyword begins with another. -/
theorem keyword_unique {a b s : Text} (ha : a ∈ controlKeywords) (hb : b ∈ controlKeywords)
    (has : a <+: s) (hbs : b <+: s) : a = b := by
  have hstarts : ∀ a ∈ controlKeywords, ∀ b ∈ controlKeywords, a.isPrefixOf b = true → a = b := by
    decide
  rcases List.prefix_or_prefix_of_prefix has hbs with h | h
  · exact hstarts a ha b hb (List.isPrefixOf_iff_prefix.mpr h)
  · exact (hstarts b hb a ha (List.isPrefixOf_iff_prefix.mpr h)).symm

/-- Two leading parts of a text that are equally wide are the same. -/
theorem eq_of_width {a b c d : Text} (h : a ++ b = c ++ d) (hwidth : a.width = c.width) :
    a = c ∧ b = d := by
  have hnil : ∀ {u : Text}, u.width = 0 → u = [] := by
    intro u hu
    cases u with
    | nil => rfl
    | cons r u =>
        have := width_pos_of_ne_nil (List.cons_ne_nil r u)
        omega
  rcases List.append_eq_append_iff.mp h with ⟨u, rfl, rfl⟩ | ⟨u, rfl, rfl⟩
  · obtain rfl : u = [] := hnil (by rw [width_append] at hwidth; omega)
    simp
  · obtain rfl : u = [] := hnil (by rw [width_append] at hwidth; omega)
    simp

namespace Token

/-- A byte belongs to one token at most. -/
theorem eq_of_overlap {source : Text} {a b : Token} (ha : a ∈ scan source) (hb : b ∈ scan source)
    (hab : a.pos < b.stop) (hba : b.pos < a.stop) : a = b := by
  obtain ⟨front, back, hscan⟩ := List.append_of_mem ha
  have hseparated := (spans_scan source).separated
  rw [hscan, List.pairwise_append] at hseparated
  rw [hscan] at hb
  rcases List.mem_append.mp hb with hb | hb
  · have hbefore := hseparated.2.2 b hb a List.mem_cons_self
    omega
  · rcases List.mem_cons.mp hb with rfl | hb
    · rfl
    · have hbehind := (List.pairwise_cons.mp hseparated.2.1).1 b hb
      omega

/-- **A token that starts with `@` and a keyword** is a header of that keyword.  It cannot be
text: the keyword would stand in it as a whole. -/
theorem header_of_keyword {source before span after word rest : Text} {tok : Token}
    (hcut : tok.Cut source before span after) (hne : span ≠ [])
    (hword : word ∈ controlKeywords)
    (h : span ++ after = .char '@' :: (word ++ rest)) : tok.kind = .control word := by
  obtain ⟨a, body, rfl⟩ := List.exists_cons_of_ne_nil hne
  obtain ⟨rfl, hbody⟩ := List.cons.inj h
  have hlead : word <+: body ++ after := ⟨rest, hbody.symm⟩
  have hletters := Lexeme.controlKeywords_letters word hword
  have hshape := hcut.shaped
  cases hkind : tok.kind with
  | text =>
      obtain ⟨-, hplain, -, hafter⟩ := hcut.piece.resolve_right fun h => h.1 hkind
      have hall : word <+: body := by
        refine Lexeme.prefix_of_prefix_append (fun r hr hmem => ?_) hlead
        have hletter := hletters r hmem
        rw [hafter r hr] at hletter
        cases hletter
      have hmarker : .char '@' :: word ∈ Lexeme.markers :=
        List.mem_append_right _ (List.mem_map_of_mem hword)
      exact absurd (List.cons_prefix_cons.mpr ⟨rfl, hall⟩).isInfix (hplain _ hmarker)
  | interpolation =>
      simp only [Shaped, hkind] at hshape
      exact absurd (List.cons_prefix_cons.mp hshape.1).1 (by decide)
  | tag =>
      have hangle : [.char '<'] <+: .char '@' :: body := by
        simp only [Shaped, hkind] at hshape
        split at hshape
        · next hopen =>
            exact (List.prefix_append _ (TemplateFormat.text "!--")).trans
              (List.isPrefixOf_iff_prefix.mp hopen)
        · exact hshape.1
      exact absurd (List.cons_prefix_cons.mp hangle).1 (by decide)
  | closeBrace =>
      simp only [Shaped, hkind] at hshape
      exact absurd (List.cons.inj hshape).1 (by decide)
  | control found =>
      simp only [Shaped, hkind] at hshape
      split at hshape
      · -- the keyword would start with the brace
        obtain ⟨r, word, rfl⟩ :=
          List.exists_cons_of_ne_nil (Lexeme.controlKeywords_ne_nil word hword)
        obtain rfl : body = [.char '\x7d'] := (List.cons.inj hshape).2
        have hbrace := hletters r List.mem_cons_self
        rw [(List.cons_prefix_cons.mp hlead).1] at hbrace
        exact absurd hbrace (by decide)
      · obtain ⟨hfound, hstart, -⟩ := hshape
        have hbehind := (List.cons_prefix_cons.mp hstart).2.trans (List.prefix_append body after)
        rw [keyword_unique hfound hword hbehind hlead]

/-- Whether the keyword of a token, if it is a control header, ends where the grammar of
headers asks for it. -/
def KeywordEnds (source : Text) (tok : Token) : Prop :=
  ∀ word, tok.kind = .control word → word ≠ TemplateFormat.text "\x7d" →
    endsKeyword (source.dropWidth (tok.pos + width (.char '@' :: word))) = true

/-- The source behind a keyword. -/
theorem dropWidth_keyword {source before word rest : Text}
    (h : source = before ++ .char '@' :: (word ++ rest)) :
    source.dropWidth (before.width + width (.char '@' :: word)) = rest := by
  have hsource : source = (before ++ .char '@' :: word) ++ rest := by
    rw [h]
    simp
  rw [hsource, ← width_append, dropWidth_width]

/-- The keyword of a header ends unless a mention stands where the header starts. -/
theorem keywordEnds_of_not_mention {source : Text} {tok : Token} (htok : tok ∈ scan source)
    (h : ∀ before word rest, Mention source before word rest → before.width ≠ tok.pos) :
    tok.KeywordEnds source := by
  intro word hkind hbrace
  obtain ⟨before, span, after, hcut⟩ := cut_of_mem htok
  have hshape := hcut.shaped
  simp only [Shaped, hkind, if_neg hbrace] at hshape
  obtain ⟨hword, ⟨rest, rfl⟩, -⟩ := hshape
  have hsource : source = before ++ .char '@' :: (word ++ (rest ++ after)) := by
    rw [hcut.source_eq]
    simp
  rw [hcut.pos_eq, dropWidth_keyword hsource]
  cases hends : endsKeyword (rest ++ after) with
  | true => rfl
  | false =>
      exact absurd hcut.pos_eq.symm (h before word (rest ++ after) ⟨hsource, hword, hends⟩)

/-- **A mention belongs to a token**: to the header that starts there, or to another token
around it. -/
theorem token_of_mention {source before word rest : Text} (h : Mention source before word rest) :
    ∃ tok ∈ scan source, tok.pos ≤ before.width ∧ before.width < tok.stop ∧
      (tok.pos = before.width → tok.kind = .control word ∧ ¬tok.KeywordEnds source) := by
  have hholder : holder? before.width source = some (.char '@') := by
    have hplace := holder?_append (k := 0) before (.char '@' :: (word ++ rest))
    rwa [Nat.add_zero, ← h.source_eq] at hplace
  by_cases hinside : ∃ tok ∈ scan source, tok.pos ≤ before.width ∧ before.width < tok.stop
  · obtain ⟨tok, htok, hle, hlt⟩ := hinside
    refine ⟨tok, htok, hle, hlt, fun hstart => ?_⟩
    obtain ⟨front, span, after, hcut⟩ := cut_of_mem htok
    have hne : span ≠ [] := by
      rintro rfl
      have hstop := hcut.stop_eq
      have hpos := hcut.pos_eq
      rw [width_nil] at hstop
      omega
    have hsame : front ++ (span ++ after) = before ++ .char '@' :: (word ++ rest) := by
      rw [← List.append_assoc, ← hcut.source_eq, h.source_eq]
    obtain ⟨rfl, hspan⟩ := eq_of_width hsame (hcut.pos_eq.symm.trans hstart)
    have hkind := header_of_keyword hcut hne h.keyword hspan
    refine ⟨hkind, fun hends => ?_⟩
    have hbrace : word ≠ TemplateFormat.text "\x7d" := by
      rintro rfl
      exact absurd h.keyword (by decide)
    have htrue := hends word hkind hbrace
    rw [hstart, dropWidth_keyword h.source_eq, h.goes_on] at htrue
    cases htrue
  · -- an `@` in no token would be white space
    have hwidth : source.width = before.width + width (.char '@' :: (word ++ rest)) := by
      rw [h.source_eq, width_append]
    have hpos := width_pos_of_ne_nil (List.cons_ne_nil (.char '@') (word ++ rest))
    obtain ⟨r, hr, hblank⟩ := (spans_scan source).blank_outside (k := before.width) (by omega)
      fun tok htok hin => hinside ⟨tok, htok, by omega⟩
    rw [hholder] at hr
    cases hr
    exact absurd hblank (by decide)

/-- **Where only keywords start headers.**  Every header has its keyword followed by white
space, a parenthesis, a brace or the end of the source, and every word that merely begins
with a keyword stays in a text or inside another token, exactly if each such word stands
inside another token.  No text keeps such a word. -/
theorem keywordEnds_iff (source : Text) :
    ((∀ tok ∈ scan source, tok.KeywordEnds source) ∧
      ∀ before word rest, Mention source before word rest →
        ∃ tok ∈ scan source, tok.pos ≤ before.width ∧ before.width < tok.stop ∧
          (tok.kind = .text ∨ tok.pos < before.width)) ↔
    ∀ before word rest, Mention source before word rest →
      ∃ tok ∈ scan source, tok.pos < before.width ∧ before.width < tok.stop := by
  constructor
  · rintro ⟨hends, -⟩ before word rest hmention
    obtain ⟨tok, htok, hle, hlt, hstart⟩ := token_of_mention hmention
    refine ⟨tok, htok, ?_, hlt⟩
    by_cases heq : tok.pos = before.width
    · exact absurd (hends tok htok) (hstart heq).2
    · omega
  · intro hinside
    constructor
    · refine fun tok htok => keywordEnds_of_not_mention htok fun before word rest hmention hat => ?_
      -- the header would start inside another token
      obtain ⟨other, hother, hlt, hstop⟩ := hinside before word rest hmention
      have hspan := pos_lt_stop htok
      obtain rfl := eq_of_overlap hother htok (by omega) (by omega)
      omega
    · intro before word rest hmention
      obtain ⟨tok, htok, hlt, hstop⟩ := hinside before word rest hmention
      exact ⟨tok, htok, by omega, hstop, .inr hlt⟩

/-- An address whose host begins with a keyword starts a header, which takes the rest of the
file, tags included. -/
theorem keywordEnds_address :
    let source := TemplateFormat.text "<p>me@iffy.org</p><b>x</b>"
    (scan source).map (fun tok => (tok.kind, tok.literal)) =
      [(.tag (TemplateFormat.text "p") false false, TemplateFormat.text "<p>"),
        (.text, TemplateFormat.text "me"),
        (.control (TemplateFormat.text "if"), TemplateFormat.text "@iffy.org</p><b>x</b>")] ∧
    ¬∀ tok ∈ scan source, tok.KeywordEnds source := by
  intro source
  refine ⟨by decide +kernel, fun h => ?_⟩
  have htok : ∃ tok ∈ scan source, tok.pos = 5 ∧ tok.kind = .control (TemplateFormat.text "if") := by
    decide +kernel
  obtain ⟨tok, hmem, hpos, hkind⟩ := htok
  have hends := h tok hmem _ hkind (by decide)
  rw [hpos] at hends
  exact absurd hends (by decide +kernel)

end Token

end TemplateFormat.Markup
