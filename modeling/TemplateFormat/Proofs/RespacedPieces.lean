import TemplateFormat.Proofs.Respacing
import TemplateFormat.Proofs.Soundness

/-!
# Pieces under other white space

A respacing changes the blanks of a text and nothing else, and it leaves out a
blank only where a marker or a quote cannot notice.  So a piece stays the piece
it is:

* `Respaced.prefix_iff`, `Respaced.infix_of_infix` — texts without blanks are
  found at the same places;
* `Nesting.run_respaced`, `endsTag_respaced`, `endsComment_respaced` — the scans
  for the end of a piece come to the same end;
* `Closed.respaced`, `Plain.respaced` — closed pieces stay closed and plain text
  stays plain.
-/

namespace TemplateFormat

namespace Text.Respaced

/-- A glyph that is not blank stands where it stood; only before a `<` could a
blank have been left out. -/
theorem eq_cons_of_ink {s t : Text} {a : Glyph} (h : Respaced false s (a :: t))
    (ha : a.isBlank = false) (hopen : a ≠ .char '<') :
    ∃ s', s = a :: s' ∧ Respaced (a == .char '>') s' t := by
  generalize hb : false = behind at h
  generalize ht : a :: t = t' at h
  induction h with
  | nil => cases ht
  | ink hr tail =>
      cases ht
      exact ⟨_, rfl, tail⟩
  | keep hw hw' tail =>
      cases ht
      simp [ha] at hw'
  | drop hw hplace tail ih =>
      subst hb
      obtain ⟨s', rfl, -⟩ := ih rfl ht
      simp [ha, hopen] at hplace

/-- A text without blanks at the start stays there. -/
theorem append_of_ink {behind : Bool} {m s t : Text}
    (h : Respaced behind (m ++ s) t) (hne : m ≠ [])
    (hm : ∀ r ∈ m, r.isBlank = false ∧ r ≠ .char '>') :
    ∃ t', t = m ++ t' ∧ Respaced false s t' := by
  induction m generalizing behind t with
  | nil => exact absurd rfl hne
  | cons a m ih =>
      obtain ⟨ha, hgt⟩ := hm a List.mem_cons_self
      obtain ⟨t', rfl, htail⟩ := cons_of_ink h ha
      by_cases hnil : m = []
      · subst hnil
        rw [beq_eq_false_iff_ne.mpr hgt] at htail
        exact ⟨t', rfl, htail⟩
      · obtain ⟨t'', rfl, hrest⟩ :=
          ih htail hnil fun r hr => hm r (List.mem_cons_of_mem a hr)
        exact ⟨t'', rfl, hrest⟩

/-- A text without blanks found at the start of the respaced text stood there
before. -/
theorem prefix_of_respaced {m s t : Text} (h : Respaced false s t)
    (hm : ∀ r ∈ m, r.isBlank = false ∧ r ≠ .char '<')
    (hlast : .char '>' ∉ m.dropLast)
    (hlead : m <+: t) : m <+: s := by
  induction m generalizing s t with
  | nil => exact List.nil_prefix
  | cons a m ih =>
      obtain ⟨ha, hopen⟩ := hm a List.mem_cons_self
      obtain ⟨u, rfl⟩ := hlead
      obtain ⟨s', rfl, htail⟩ := eq_cons_of_ink h ha hopen
      refine List.cons_prefix_cons.mpr ⟨rfl, ?_⟩
      cases m with
      | nil => exact List.nil_prefix
      | cons b m =>
          simp only [List.dropLast_cons_cons, List.mem_cons, not_or] at hlast
          rw [beq_eq_false_iff_ne.mpr (Ne.symm hlast.1)] at htail
          exact ih htail (fun r hr => hm r (List.mem_cons_of_mem a hr)) hlast.2
            (List.prefix_append _ u)

/-- Texts without blanks and without `<` and `>` stand at the start of both or
of neither. -/
theorem prefix_iff {m s t : Text} (h : Respaced false s t)
    (hm : ∀ r ∈ m, r.isBlank = false ∧ r ≠ .char '<' ∧ r ≠ .char '>') : m <+: t ↔ m <+: s := by
  refine ⟨prefix_of_respaced h (fun r hr => ⟨(hm r hr).1, (hm r hr).2.1⟩)
    fun hmem => ?_, ?_⟩
  · exact (hm _ (List.dropLast_subset m hmem)).2.2 rfl
  · rintro ⟨u, rfl⟩
    by_cases hnil : m = []
    · rw [hnil]
      exact List.nil_prefix
    · obtain ⟨t', rfl, -⟩ :=
        append_of_ink h hnil fun r hr => ⟨(hm r hr).1, (hm r hr).2.2⟩
      exact List.prefix_append m t'

/-- Such a text that occurs in the respaced text occurred before. -/
theorem infix_of_infix {behind : Bool} {m s t : Text} (h : Respaced behind s t)
    (hm : ∀ r ∈ m, r.isBlank = false ∧ r ≠ .char '<' ∧ r ≠ .char '>')
    (hocc : m <:+: t) :
    m <:+: s := by
  cases m with
  | nil => exact List.nil_infix
  | cons a m =>
      have ha := hm a List.mem_cons_self
      induction h with
      | nil => exact hocc
      | @ink behind r s t hr tail ih =>
          rcases List.infix_cons_iff.mp hocc with hlead | hlater
          · obtain ⟨rfl, hrest⟩ := List.cons_prefix_cons.mp hlead
            rw [beq_eq_false_iff_ne.mpr ha.2.2] at tail
            have hsame :=
              (prefix_iff tail fun r hr => hm r
                (List.mem_cons_of_mem a hr)).mp hrest
            exact (List.cons_prefix_cons.mpr ⟨rfl, hsame⟩).isInfix
          · exact (ih hlater).trans (List.suffix_cons r s).isInfix
      | @keep behind w w' s t hw hw' tail ih =>
          rcases List.infix_cons_iff.mp hocc with hlead | hlater
          · obtain ⟨rfl, -⟩ := List.cons_prefix_cons.mp hlead
            simp [ha.1] at hw'
          · exact (ih hlater).trans (List.suffix_cons w s).isInfix
      | @drop behind w s t hw hplace tail ih =>
          exact (ih hocc).trans (List.suffix_cons w s).isInfix

/-- A glyph that is not blank occurs in both texts or in neither. -/
theorem mem_iff {behind : Bool} {s t : Text} {a : Glyph} (h : Respaced behind s t)
    (ha : a.isBlank = false) : a ∈ t ↔ a ∈ s := by
  have hmem : ∀ u : Text, a ∈ u ↔ a ∈ strip u := fun u => by simp [strip, ha]
  rw [hmem t, hmem s, h.strip_eq]

end Text.Respaced

namespace Markup

open Text

/-- The count of open markers does not notice a respacing. -/
theorem Nesting.run_respaced {behind : Bool} {s t : Text}
    (h : Respaced behind s t) {n : Nesting}
    (hn : behind = true → n.reset = n) : n.run s = n.run t := by
  induction h generalizing n with
  | nil => rfl
  | @ink behind r s t hr tail ih =>
      refine ih fun hgt => ?_
      rw [beq_iff_eq.mp hgt, next_of_not_brace n (by decide) (by decide),
        reset_reset]
  | keep hw hw' tail ih =>
      rw [run_cons, run_cons, next_of_blank n hw, next_of_blank n hw']
      exact ih (by simp)
  | @drop behind w s t hw hplace tail ih =>
      rw [← ih hn, run_cons, next_of_blank n hw]
      rcases hplace with hbehind | hblank | hopen
      · rw [hn hbehind]
      · cases s with
        | nil => simp at hblank
        | cons a s =>
            rw [run_cons, run_cons, next_of_blank _ (by simpa using hblank),
            next_of_blank _ (by simpa using hblank), reset_reset]
      · cases s with
        | nil => simp at hopen
        | cons a s =>
            obtain rfl : a = .char '<' := by simpa using hopen
            rw [run_cons, run_cons, next_of_not_brace _ (by decide) (by decide),
              next_of_not_brace _ (by decide) (by decide), reset_reset]

namespace Lexeme

/-- Only quotes open and close quoted parts. -/
theorem next_of_not_quote (q : Quote) (prev : Option Glyph) {r : Glyph}
    (hsingle : r ≠ .char '\x27')
    (hdouble : r ≠ .char '\x22') : q.next prev r = q := by
  unfold Quote.next
  split
  · rfl
  · split <;> first | contradiction | rfl

/-- A blank is no quote. -/
theorem next_of_blank (q : Quote) (prev : Option Glyph) {w : Glyph}
    (hw : w.isBlank = true) :
    q.next prev w = q := by
  apply next_of_not_quote <;> rintro rfl <;> exact absurd hw (by decide)

/-- What matters of the glyph before a quote is whether it is a backslash. -/
theorem next_congr (q : Quote) {prev prev' : Glyph} (r : Glyph)
    (h : prev = .char '\\' ↔ prev' = .char '\\') :
    q.next (some prev) r = q.next (some prev') r := by
  simp [Quote.next, h]

/-- The end of a tag is found again after a respacing.  The two glyphs before
the texts may differ where a blank was left out behind a backslash; the next
glyph is then no quote. -/
theorem endsTag_respaced {behind : Bool} {s t : Text} (h : Respaced behind s t)
    {prev prev' : Glyph}
    {q : Quote} (hprev : prev = .char '\\' → prev' = .char '\\')
    (hprev' : prev' = .char '\\' →
      prev = .char '\\' ∨ s.head?.any Glyph.isBlank = true ∨
      s.head? = some (.char '<'))
    (hbehind : behind = true → prev' ≠ .char '\\')
    (hend : endsTag prev q s = true) :
    endsTag prev' q t = true := by
  have hback : ∀ {w : Glyph}, w.isBlank = true → w ≠ .char '\\' ∧ w ≠ .char '>' := by
    rintro w hw
    constructor <;> rintro rfl <;> exact absurd hw (by decide)
  induction h generalizing prev prev' q with
  | nil => cases hend
  | @ink behind r s t hr tail ih =>
      rw [endsTag] at hend ⊢
      split at hend
      · next hclose =>
          rw [if_pos hclose]
          rw [List.isEmpty_iff.mp hend] at tail
          rw [tail.eq_nil]
          rfl
      · next hopen =>
          have hnext : q.next (some prev) r = q.next (some prev') r := by
            by_cases hback' : prev' = .char '\\'
            · rcases hprev' hback' with hback | hblank | hlt
              · exact next_congr q r (by simp [hback, hback'])
              · simp [hr] at hblank
              · obtain rfl : r = .char '<' := by simpa using hlt
                rw [next_of_not_quote _ _ (by decide) (by decide),
                  next_of_not_quote _ _ (by decide) (by decide)]
            · exact next_congr q r ⟨hprev, fun h => absurd h hback'⟩
          rw [if_neg hopen, ← hnext]
          refine ih id .inl (fun hgt => ?_) hend
          rw [beq_iff_eq.mp hgt]
          decide
  | @keep behind w w' s t hw hw' tail ih =>
      rw [endsTag, if_neg fun h => (hback hw).2 h.1, next_of_blank q _ hw] at hend
      rw [endsTag, if_neg fun h => (hback hw').2 h.1, next_of_blank q _ hw']
      exact ih (fun h => absurd h (hback hw).1) (fun h => absurd h (hback hw').1)
        (by simp) hend
  | @drop behind w s t hw hplace tail ih =>
      rw [endsTag, if_neg fun h => (hback hw).2 h.1, next_of_blank q _ hw] at hend
      refine ih (fun h => absurd h (hback hw).1) (fun h => ?_) hbehind hend
      rcases hplace with hb | hplace
      · exact absurd h (hbehind hb)
      · exact .inr hplace

/-- The end of a comment is found again after a respacing. -/
theorem endsComment_respaced {behind : Bool} {s t : Text}
    (h : Respaced behind s t)
    (hend : endsComment s = true) : endsComment t = true := by
  have hblank : ∀ {w : Glyph} (u : Text), w.isBlank = true →
      ¬commentClose.isPrefixOf (w :: u) = true := by
    intro w u hw hlead
    obtain rfl : .char '-' = w :=
      (List.cons_prefix_cons.mp (List.isPrefixOf_iff_prefix.mp hlead)).1
    exact absurd hw (by decide)
  induction h with
  | nil => cases hend
  | @ink behind r s t hr tail ih =>
      rw [endsComment] at hend
      split at hend
      · next hclose =>
          have hlen : s.length = 2 := by simpa using hend
          have hpiece : commentClose = r :: s :=
            (List.isPrefixOf_iff_prefix.mp hclose).eq_of_length
              (by rw [List.length_cons, hlen]; rfl)
          obtain ⟨rfl, rfl⟩ : .char '-' = r ∧ [.char '-', .char '>'] = s := by
            simpa [commentClose, text] using hpiece
          obtain ⟨t', rfl, htail⟩ := tail.cons_of_ink rfl
          obtain ⟨t'', rfl, hnil⟩ := htail.cons_of_ink rfl
          rw [hnil.eq_nil]
          rfl
      · next hopen =>
          have hopen' : ¬commentClose.isPrefixOf (r :: t) = true := by
            intro hclose
            rw [List.isPrefixOf_iff_prefix] at hopen hclose
            obtain ⟨rfl, hlead⟩ : .char '-' = r ∧ text "->" <+: t := by
              simpa [commentClose, text] using hclose
            have := tail.prefix_of_respaced (m := text "->") (by decide)
              (by decide) hlead
            exact hopen (List.cons_prefix_cons.mpr ⟨rfl, this⟩)
          rw [endsComment, if_neg hopen']
          exact ih hend
  | @keep behind w w' s t hw hw' tail ih =>
      rw [endsComment, if_neg (hblank s hw)] at hend
      rw [endsComment, if_neg (hblank t hw')]
      exact ih hend
  | @drop behind w s t hw hplace tail ih =>
      rw [endsComment, if_neg (hblank s hw)] at hend
      exact ih hend

/-- The keyword of a header is found again after a respacing. -/
theorem keyword?_respaced {s t : Text} (h : Respaced false s t) : keyword? t = keyword? s := by
  have hclean : ∀ word ∈ controlKeywords, ∀ r ∈ word,
      r.isBlank = false ∧ r ≠ .char '<' ∧ r ≠ .char '>' := by decide
  have hsame : ∀ word ∈ controlKeywords, word.isPrefixOf t = word.isPrefixOf s := by
    intro word hword
    rw [Bool.eq_iff_iff, List.isPrefixOf_iff_prefix, List.isPrefixOf_iff_prefix]
    exact h.prefix_iff (hclean word hword)
  rw [keyword?, keyword?, ← List.head?_filter, ← List.head?_filter,
    List.filter_congr hsame]

/-- **A closed piece stays closed** when its white space changes. -/
theorem Closed.respaced {kind : Kind} {raw raw' : Text} (h : Closed kind raw)
    {behind : Bool}
    (hspace : Respaced behind raw raw') : Closed kind raw' := by
  cases h with
  | @interpolation s h =>
      obtain ⟨t, rfl, htail⟩ :=
        hspace.append_of_ink (m := [.char '\x7b', .char '\x7b'])
        (by decide) (by decide)
      exact .interpolation
        ((Nesting.run_respaced htail (fun _ => rfl)).symm.trans h)
  | @header word s hword hs =>
      obtain ⟨t, rfl, htail⟩ := hspace.append_of_ink (m := [.char '@'])
        (s := s ++ [.char '\x7b']) (by decide) (by decide)
      obtain ⟨s', rest, rfl, hbody, hrest⟩ := htail.split (by decide)
      rw [hrest.eq_nil] at htail ⊢
      have hmem : .char '\x7b' ∉ s' := by
        have hstrip : strip s' = strip s := by simpa using hbody.strip_eq
        intro hmem
        have hink : .char '\x7b' ∈ strip s' := List.mem_filter.mpr ⟨hmem, rfl⟩
        rw [hstrip] at hink
        exact hs (List.mem_filter.mp hink).1
      have hkey := keyword?_respaced htail
      rw [keyword?_append (by simp [Glyph.isLetter]),
        keyword?_append (by simp [Glyph.isLetter]),
        hword] at hkey
      exact .header hkey hmem
  | blockEnd =>
      obtain ⟨t, rfl, htail⟩ :=
        hspace.append_of_ink (m := [.char '@', .char '\x7d']) (s := [])
        (by decide) (by decide)
      rw [htail.eq_nil]
      exact .blockEnd
  | brace =>
      obtain ⟨t, rfl, htail⟩ :=
        hspace.append_of_ink (m := [.char '\x7d']) (s := [])
        (by decide) (by decide)
      rw [htail.eq_nil]
      exact .brace
  | @comment s h =>
      obtain ⟨t, rfl, htail⟩ :=
        hspace.append_of_ink (m := commentOpen) (by decide) (by decide)
      exact .comment (endsComment_respaced htail h)
  | @tag s hopen h =>
      obtain ⟨t, rfl, htail⟩ :=
        hspace.append_of_ink (m := [.char '<']) (by decide) (by decide)
      refine .tag (fun hlead => hopen ?_)
        (endsTag_respaced htail id .inl (by simp) h)
      exact (htail.prefix_iff (m := text "!--") (by decide)).mp hlead

/-- **Plain text stays plain** when its white space changes. -/
theorem Plain.respaced {behind : Bool} {s t : Text} (hs : Plain s)
    (h : Respaced behind s t) :
    Plain t := by
  have hclean : ∀ m ∈ markers, m = text "<" ∨ ∀ r ∈ m,
      r.isBlank = false ∧ r ≠ .char '<' ∧ r ≠ .char '>' := by decide
  intro m hm hocc
  rcases hclean m hm with rfl | hclean
  · have hmem : .char '<' ∈ t := hocc.subset (by decide)
    obtain ⟨a, b, rfl⟩ := List.append_of_mem ((h.mem_iff rfl).mp hmem)
    exact hs _ hm ⟨a, b, by simp [text]⟩
  · exact hs m hm (h.infix_of_infix hclean hocc)

end Lexeme

end Markup

end TemplateFormat
