import Mathlib.Data.List.Induction
import TemplateFormat.Proofs.Quoting
import TemplateFormat.Proofs.SpanShapes
import TemplateFormat.Proofs.TagForm

/-!
# Quotes in the normal form of a tag

The normal form of a tag must leave quoted values alone.  Two readers keep
track of quotes: the one that looks for the end of a tag, and the one that
squeezes its spaces.  The second changes only spaces outside quotes, so that
every glyph that stays stands in the same quotes as before (`standing`).  What
is done after it, dropping the space before a final `>`, does not look at
quotes: a tag that ends inside a quoted value, which is then the last piece of
the source, loses a space of that value.

* `standing_squeeze` — squeezing keeps the glyphs in their quotes;
* `suffix_squeeze_iff` — what stands at the end of an open value stays there;
* `standing_normalize_iff`, `normalize_twice_iff` — when the normal form
  keeps the glyphs in their quotes, and when it is its own normal form;
* `quotes_normalize` — the tags of every source.
-/

namespace TemplateFormat

open Text Markup Lexeme

/-! ## Glyphs in their quotes -/

/-- The glyphs of a text, each with the quotes it stands in; the spaces outside
quotes are left out. -/
def Quote.standing (q : Quote) (prev : Option Glyph) : Text → List (Quote × Glyph)
  | [] => []
  | r :: s =>
    let rest := (q.next prev r).standing (some r) s
    if q.isOutside && r.isSpace then rest else (q, r) :: rest

/-- The glyphs of a tag, each with the quotes it stands in. -/
def Text.standing (s : Text) : List (Quote × Glyph) := Quote.outside.standing none s

/-- The glyphs of a tag that stand inside quotes, in order. -/
def Text.quotedGlyphs (s : Text) : Text :=
  ((standing s).filter (!·.1.isOutside)).map Prod.snd

/-- Whether a tag ends inside a quoted value. -/
def Text.EndsQuoted (s : Text) : Prop := Quote.outside.after none s ≠ .outside

instance (s : Text) : Decidable s.EndsQuoted :=
  inferInstanceAs (Decidable (Quote.outside.after none s ≠ .outside))

theorem Quote.standing_append (q : Quote) (prev : Option Glyph) (s t : Text) :
    q.standing prev (s ++ t) =
      q.standing prev s ++ (q.after prev s).standing (s.getLast?.or prev) t := by
  induction s generalizing q prev with
  | nil => rfl
  | cons r s ih =>
      rw [List.cons_append, standing, standing, ih, after, getLast?_cons_or]
      split <;> rfl

namespace Markup.Tag

/-- **Squeezing keeps the glyphs in their quotes.**  The glyphs before the two
texts must escape a quote alike. -/
theorem standing_squeeze {prev prev' : Option Glyph} {q : Quote} {gap : Bool} (s : Text)
    (hopen : gap = true → q = .outside ∧ ¬Escapes prev)
    (hprev : gap = false → (Escapes prev ↔ Escapes prev')) :
    q.standing prev' (squeeze prev q gap s) = q.standing prev s := by
  induction s generalizing prev prev' q gap with
  | nil => rfl
  | cons r s ih =>
      rw [squeeze, Quote.standing]
      split
      · next hspace =>
          obtain ⟨hq, hr⟩ := Bool.and_eq_true_iff.mp hspace
          rw [next_of_space q prev hr]
          refine ih (fun _ => ⟨of_decide_eq_true hq, ?_⟩) (by simp)
          exact not_escapes_of_isBlank (Glyph.isBlank_of_isSpace hr)
      · next hspace =>
          have hrest : (q.next prev r).standing (some r)
              (squeeze (some r) (q.next prev r) false s) = (q.next prev r).standing (some r) s :=
            ih (by simp) (fun _ => Iff.rfl)
          split
          · next hgap =>
              -- the run of spaces is written as one, which is left out again
              obtain ⟨rfl, hescapes⟩ := hopen hgap
              have hspaced : ¬Escapes (some (.char ' ')) := not_escapes_of_isBlank rfl
              have hnext : Quote.next .outside (some (.char ' ')) r = Quote.next .outside prev r :=
                Quote.next_congr (by simp [hescapes, hspaced]) _ r
              have hout : (Quote.outside.isOutside && Glyph.isSpace (.char ' ')) = true := rfl
              rw [Quote.standing, if_pos hout, next_of_space _ _ rfl, Quote.standing,
                if_neg hspace, hnext, hrest]
          · next hgap =>
              have hnext : q.next prev' r = q.next prev r :=
                Quote.next_congr (hprev (by simpa using hgap)).symm q r
              rw [Quote.standing, if_neg hspace, hnext, hrest]

/-! ## The end of an open value -/

/-- The place before a tag. -/
def Place.start : Place := ⟨none, .outside, false⟩

/-- A tag with its runs of spaces squeezed. -/
def squeezed (raw : Text) : Text := squeeze none .outside false raw

theorem normalize_eq (raw : Text) : normalize raw = closeUp (squeezed raw) := rfl

theorem squeezed_append (s t : Text) :
    squeezed (s ++ t) = squeezed s ++ squeeze (Place.start.after s).prev
      (Place.start.after s).quote (Place.start.after s).gap t :=
  squeeze_append Place.start s t

theorem standing_squeezed (raw : Text) : standing (squeezed raw) = standing raw :=
  standing_squeeze raw (by simp) (fun _ => Iff.rfl)

/-- Squeezing keeps the quotes at the end of a tag. -/
theorem after_squeeze (raw : Text) :
    Quote.outside.after none (squeezed raw) = Quote.outside.after none raw :=
  (reblanked_squeeze raw (by simp) (fun _ => Iff.rfl)).after_eq

/-- The place behind one more glyph that is no space outside quotes. -/
theorem Place.gap_next (at_ : Place) (r : Glyph) (h : (at_.next r).quote ≠ .outside) :
    (at_.next r).gap = false ∧ ¬(at_.quote.isOutside && r.isSpace) = true := by
  rw [Place.next] at h ⊢
  split
  · next hspace =>
      rw [if_pos hspace] at h
      exact absurd (of_decide_eq_true (Bool.and_eq_true_iff.mp hspace).1) h
  · next hspace => exact ⟨rfl, hspace⟩

/-- A gap is open only outside quotes. -/
theorem gap_of_quoted {s : Text}
    (h : (Place.start.after s).quote ≠ .outside) :
    (Place.start.after s).gap = false := by
  rcases List.eq_nil_or_concat s with rfl | ⟨front, r, rfl⟩
  · rfl
  · rw [List.concat_eq_append, Place.after, List.foldl_append] at h ⊢
    exact (Place.gap_next _ r h).1

/-- The quotes that squeezing carries along are those of the text. -/
theorem quote_after_eq (at_ : Place) (s : Text) :
    (at_.after s).quote = at_.quote.after at_.prev s := by
  induction s generalizing at_ with
  | nil => rfl
  | cons r s ih =>
      rw [Place.after, List.foldl_cons, ← Place.after, ih, Quote.after, Place.next]
      split
      · next hspace => rw [next_of_space _ _ (Bool.and_eq_true_iff.mp hspace).2]
      · rfl

/-- A tag with one more glyph that is no quote ends in the same quotes. -/
theorem endsQuoted_append {front : Text} {b : Glyph} (hb : b.isQuote = false) :
    EndsQuoted (front ++ [b]) ↔ EndsQuoted front := by
  rw [EndsQuoted, EndsQuoted, Quote.after_append, Quote.after, Quote.next_of_isQuote hb]
  rfl

/-- One more glyph that is no space outside quotes is copied behind what was
squeezed; a gap that is open before it is written as a space. -/
theorem squeeze_concat {front : Text} {b : Glyph}
    (hspace : ¬((Place.start.after front).quote.isOutside && b.isSpace) = true) :
    squeezed (front ++ [b]) =
      squeezed front ++
        (if (Place.start.after front).gap then [.char ' '] else []) ++ [b] := by
  rw [squeezed_append, squeeze, if_neg hspace, List.append_assoc]
  split <;> rfl

/-- **What stands at the end of an open value**, without a quote, stands there
after squeezing exactly if it stood there before. -/
theorem suffix_squeeze_iff {e raw : Text} (he : ∀ r ∈ e, r.isQuote = false)
    (hopen : EndsQuoted raw) :
    e <:+ squeezed raw ↔ e <:+ raw := by
  induction raw using List.reverseRecOn generalizing e with
  | nil => exact absurd rfl hopen
  | append_singleton front b ih =>
      rcases List.eq_nil_or_concat e with rfl | ⟨e, c, rfl⟩
      · simp
      · rw [List.concat_eq_append] at he ⊢
        have hlast : ∀ s : Text, e ++ [c] <:+ s ++ [b] ↔ c = b ∧ e <:+ s := by
          intro s
          rw [List.suffix_concat_iff]
          simp
        have hplace : ((Place.start.after front).next b).quote ≠
            .outside := by
          have hquote := quote_after_eq Place.start (front ++ [b])
          rw [Place.after, List.foldl_append] at hquote
          exact fun h => hopen (hquote.symm.trans h)
        rw [squeeze_concat (Place.gap_next _ b hplace).2, hlast, hlast]
        refine and_congr_right ?_
        rintro rfl
        have hb : c.isQuote = false := he c (by simp)
        have hfront : EndsQuoted front := (endsQuoted_append hb).mp hopen
        have hgap : (Place.start.after front).gap = false := by
          refine gap_of_quoted ?_
          rw [quote_after_eq]
          exact hfront
        rw [hgap]
        simpa using ih (fun r hr => he r (List.mem_append_left _ hr)) hfront

/-! ## Closing up -/

/-- Squeezing writes no more glyphs than there are, and one for a gap that is
open. -/
theorem length_squeeze_le (prev : Option Glyph) (q : Quote) (gap : Bool) (s : Text) :
    (squeeze prev q gap s).length ≤ s.length + if gap then 1 else 0 := by
  induction s generalizing prev q gap with
  | nil => simp [squeeze]
  | cons r s ih =>
      rw [squeeze]
      split
      · have hlater := ih (some r) q true
        simp only [if_true] at hlater
        simp only [List.length_cons]
        omega
      · have hlater := ih (some r) (q.next prev r) false
        simp only [Bool.false_eq_true, if_false] at hlater
        split <;> simp only [List.length_cons] <;> omega

/-- A text that squeezing does not change leaves no gap open. -/
theorem gap_of_squeeze_eq {s : Text} (h : squeezed s = s) :
    (Place.start.after s).gap = false := by
  rcases List.eq_nil_or_concat s with rfl | ⟨front, w, rfl⟩
  · rfl
  · rw [List.concat_eq_append] at h ⊢
    rw [Place.after, List.foldl_append, List.foldl_cons, List.foldl_nil, ← Place.after, Place.next]
    split
    · next hspace =>
        -- a space outside quotes at the end is dropped, so the text gets shorter
        rw [squeezed_append, squeeze, if_pos hspace, squeeze, List.append_nil] at h
        have hlength := length_squeeze_le none .outside false front
        rw [← squeezed, h] at hlength
        exact absurd hlength (by simp)
    · rfl

/-- A space and a `>` behind a text stay when it is squeezed. -/
theorem squeeze_spaced (body : Text) :
    squeezed (body ++ [.char ' ', .char '>']) =
      squeezed body ++ [.char ' ', .char '>'] := by
  rw [squeezed_append]
  congr 1
  have hspace : ∀ (q : Quote) (prev : Option Glyph), q.next prev (.char ' ') = q :=
    fun q prev => next_of_space q prev rfl
  by_cases hquote : (Place.start.after body).quote = .outside
  · rw [hquote]
    rfl
  · rw [gap_of_quoted hquote]
    simp [squeeze, Quote.isOutside, hquote, hspace]

/-- **The two forms of a tag**: squeezed, and without the space that stands before
a final `>` then. -/
theorem normalize_cases (raw : Text) :
    (¬text " >" <:+ squeezed raw ∧
        normalize raw = squeezed raw) ∨
      ∃ body, squeezed raw = body ++ [.char ' ', .char '>'] ∧
        normalize raw = body ++ [.char '>'] := by
  rw [normalize_eq]
  by_cases hend : text " >" <:+ squeezed raw
  · obtain ⟨body, hbody⟩ := hend
    refine .inr ⟨body, hbody.symm, ?_⟩
    rw [← hbody]
    exact closeUp_spaced body
  · refine .inl ⟨hend, ?_⟩
    rw [closeUp, if_neg]
    exact fun h => hend (List.isSuffixOf_iff_suffix.mp h)

/-- Closing up changes a tag exactly if it ends in a space and a `>`. -/
theorem closeUp_eq_iff (s : Text) : closeUp s = s ↔ ¬text " >" <:+ s := by
  constructor
  · rintro h ⟨body, rfl⟩
    have hspaced : closeUp (body ++ text " >") = body ++ [.char '>'] := closeUp_spaced body
    rw [hspaced] at h
    simpa [text] using congrArg List.length h
  · intro h
    rw [closeUp, if_neg]
    exact fun hend => h (List.isSuffixOf_iff_suffix.mp hend)

/-- The quotes at the end of a tag that is squeezed. -/
theorem endsQuoted_squeeze (raw : Text) :
    EndsQuoted (squeezed raw) ↔ EndsQuoted raw := by
  rw [EndsQuoted, EndsQuoted, after_squeeze]

/-- The quotes at the end of a tag, seen before its last two glyphs. -/
theorem endsQuoted_spaced (body : Text) :
    EndsQuoted (body ++ [.char ' ', .char '>']) ↔ EndsQuoted body := by
  have hsplit : body ++ [.char ' ', .char '>'] = body ++ [.char ' '] ++ [.char '>'] := by simp
  rw [hsplit, endsQuoted_append rfl, endsQuoted_append rfl]

/-- The glyphs in their quotes, with a `>` at the end. -/
theorem standing_closed (body : Text) :
    standing (body ++ [.char '>']) =
      standing body ++ [(Quote.outside.after none body, .char '>')] := by
  rw [standing, Quote.standing_append, Quote.standing]
  simp [standing, Glyph.isSpace, Quote.standing]

/-- The glyphs in their quotes, with a space and a `>` at the end: the space
counts if it stands inside quotes. -/
theorem standing_spaced (body : Text) :
    standing (body ++ [.char ' ', .char '>']) =
      standing body ++ (if EndsQuoted body then [(Quote.outside.after none body, .char ' ')] else []) ++
        [(Quote.outside.after none body, .char '>')] := by
  have hspace : (Quote.outside.after none body).next (body.getLast?.or none) (.char ' ') =
      Quote.outside.after none body := next_of_space _ _ rfl
  rw [standing, Quote.standing_append, Quote.standing, Quote.standing, hspace]
  by_cases hopen : EndsQuoted body
  · have hinside : (Quote.outside.after none body).isOutside = false := decide_eq_false hopen
    simp [standing, Quote.standing, hopen, hinside]
  · have houtside : Quote.outside.after none body = .outside := not_not.mp hopen
    simp [standing, Quote.standing, hopen, houtside, Quote.isOutside, Glyph.isSpace]

/-! ## The normal form of a tag -/

/-- **The space that is lost**: a tag that ends inside a quoted value, in a space and
a `>`, loses the space and nothing else. -/
theorem standing_of_open {raw : Text} (hopen : EndsQuoted raw) (hend : text " >" <:+ raw) :
    ∃ before : List (Quote × Glyph), ∃ q ≠ Quote.outside,
      standing raw = before ++ [(q, .char ' '), (q, .char '>')] ∧
        standing (normalize raw) = before ++ [(q, .char '>')] := by
  rcases normalize_cases raw with ⟨hsqueezed, -⟩ | ⟨body, hsqueezed, hnormal⟩
  · exact absurd ((suffix_squeeze_iff (by decide) hopen).mpr hend) hsqueezed
  · have hbody : EndsQuoted body := by
      rwa [← endsQuoted_spaced, ← hsqueezed, endsQuoted_squeeze]
    refine ⟨standing body, Quote.outside.after none body, hbody, ?_, ?_⟩
    · rw [← standing_squeezed, hsqueezed, standing_spaced, if_pos hbody]
      simp
    · rw [hnormal, standing_closed]

/-- **The glyphs of the normal form stand in the quotes they stood in**, unless the
tag ends inside a quoted value, in a space and a `>`. -/
theorem standing_normalize {raw : Text} (h : ¬(EndsQuoted raw ∧ text " >" <:+ raw)) :
    standing (normalize raw) = standing raw := by
  rcases normalize_cases raw with ⟨-, hnormal⟩ | ⟨body, hsqueezed, hnormal⟩
  · rw [hnormal, standing_squeezed]
  · have hbody : ¬EndsQuoted body := by
      intro hbody
      have hopen : EndsQuoted raw := by
        rwa [← endsQuoted_squeeze, hsqueezed, endsQuoted_spaced]
      exact h ⟨hopen, (suffix_squeeze_iff (by decide) hopen).mp ⟨body, hsqueezed.symm⟩⟩
    rw [hnormal, standing_closed, ← standing_squeezed raw, hsqueezed, standing_spaced,
      if_neg hbody, List.append_nil]

theorem standing_normalize_iff (raw : Text) :
    standing (normalize raw) = standing raw ↔ ¬(EndsQuoted raw ∧ text " >" <:+ raw) := by
  refine ⟨?_, standing_normalize⟩
  rintro h ⟨hopen, hend⟩
  obtain ⟨before, q, -, hraw, hnormal⟩ := standing_of_open hopen hend
  rw [hraw, hnormal] at h
  simpa using congrArg List.length h

/-- The glyphs inside quotes are copied as they are, with the same exception. -/
theorem quotedGlyphs_normalize_iff (raw : Text) :
    quotedGlyphs (normalize raw) = quotedGlyphs raw ↔
      ¬(EndsQuoted raw ∧ text " >" <:+ raw) := by
  constructor
  · rintro h ⟨hopen, hend⟩
    obtain ⟨before, q, hq, hraw, hnormal⟩ := standing_of_open hopen hend
    have hinside : q.isOutside = false := decide_eq_false hq
    rw [quotedGlyphs, quotedGlyphs, hraw, hnormal] at h
    simpa [hinside] using congrArg List.length h
  · intro h
    rw [quotedGlyphs, quotedGlyphs, standing_normalize h]

/-- The quotes at the end of a tag are those at the end of its normal form. -/
theorem after_normalize (raw : Text) :
    Quote.outside.after none (normalize raw) = Quote.outside.after none raw := by
  rw [← after_squeeze raw]
  rcases normalize_cases raw with ⟨-, hnormal⟩ | ⟨body, hsqueezed, hnormal⟩
  · rw [hnormal]
  · have hlast : ∀ (w : Text), (∀ r ∈ w, r.isQuote = false) →
        Quote.outside.after none (body ++ w) = Quote.outside.after none body := by
      intro w hw
      rw [Quote.after_append, Quote.after_of_isQuote hw]
    rw [hnormal, hsqueezed, hlast _ (by decide), hlast _ (by decide)]

/-- **The normal form of a tag is its own normal form**, unless the tag ends inside a
quoted value, in two spaces and a `>`: then it loses one space with each pass. -/
theorem normalize_twice_iff (raw : Text) :
    normalize (normalize raw) = normalize raw ↔ ¬(EndsQuoted raw ∧ text "  >" <:+ raw) := by
  have htwice : squeezed (squeezed raw) = squeezed raw :=
    squeeze_squeeze raw (by simp) (fun _ => rfl)
  rcases normalize_cases raw with ⟨hsqueezed, hnormal⟩ | ⟨body, hsqueezed, hnormal⟩
  · have hfixed : normalize (normalize raw) = normalize raw := by
      rw [hnormal, normalize_eq, htwice, closeUp_eq_iff]
      exact hsqueezed
    refine iff_of_true hfixed ?_
    rintro ⟨hopen, hend⟩
    have hmore : text "  >" <:+ squeezed raw := (suffix_squeeze_iff (by decide) hopen).mpr hend
    exact hsqueezed (List.IsSuffix.trans ⟨[.char ' '], rfl⟩ hmore)
  · -- what was squeezed before the space and the `>` is not changed again
    have hbody : squeezed body = body := by
      rw [hsqueezed, squeeze_spaced] at htwice
      exact List.append_cancel_right htwice
    have hgap := gap_of_squeeze_eq hbody
    have hagain : squeezed (body ++ [.char '>']) = body ++ [.char '>'] := by
      rw [squeeze_concat (by simp [Glyph.isSpace]), hbody, hgap]
      simp
    have hends : text " >" <:+ body ++ [.char '>'] ↔ text "  >" <:+ squeezed raw := by
      have hone : text " >" = [.char ' '] ++ [.char '>'] := rfl
      have htwo : text "  >" = [.char ' '] ++ [.char ' ', .char '>'] := rfl
      rw [hsqueezed, hone, htwo, List.suffix_append_self_iff, List.suffix_append_self_iff]
    rw [hnormal, normalize_eq, hagain, closeUp_eq_iff, hends, not_iff_not]
    constructor
    · intro hend
      have hopen : EndsQuoted raw := by
        by_contra houtside
        have hquote : (Place.start.after body).quote = .outside := by
          rw [← endsQuoted_squeeze, hsqueezed, endsQuoted_spaced] at houtside
          rw [quote_after_eq]
          exact not_not.mp houtside
        obtain ⟨front, hfront⟩ := hend
        have hsplit : front ++ text "  >" = front ++ [.char ' '] ++ [.char ' ', .char '>'] := by
          simp [text]
        rw [hsplit, hsqueezed] at hfront
        have hlast : squeezed body = front ++ [.char ' '] :=
          hbody.trans (List.append_cancel_right hfront).symm
        exact last_squeeze hgap hquote front hlast
      exact ⟨hopen, (suffix_squeeze_iff (by decide) hopen).mp hend⟩
    · rintro ⟨hopen, hend⟩
      exact (suffix_squeeze_iff (by decide) hopen).mpr hend

/-! ## Reading the normal form again -/

/-- Squeezing keeps a text without the end of a tag before its last glyph. -/
theorem tagLength_squeeze {prev prev' : Glyph} {q : Quote} {gap : Bool} {n : Nat} (m : Nat)
    {s : Text} (hgap : gap = true → q = .outside ∧ prev ≠ .char '\\')
    (hprev : gap = false → prev' = prev) (h : tagLength prev q n s = n + s.length) :
    tagLength prev' q m (squeeze (some prev) q gap s) =
      m + (squeeze (some prev) q gap s).length := by
  induction s generalizing prev prev' q gap n m with
  | nil => rfl
  | cons r s ih =>
      rw [tagLength] at h
      rw [squeeze]
      split at h
      · next hend =>
          obtain ⟨rfl, rfl⟩ := hend
          obtain rfl : s = [] := by
            refine List.eq_nil_of_length_eq_zero ?_
            rw [List.length_cons] at h
            omega
          cases gap <;> simp [squeeze, tagLength, Glyph.isSpace, next_of_space]
      · next hopen =>
          have hlater : tagLength r (q.next (some prev) r) (n + 1) s = n + 1 + s.length := by
            rw [List.length_cons] at h
            omega
          split
          · next hspace =>
              obtain ⟨hq, hr⟩ := Bool.and_eq_true_iff.mp hspace
              rw [next_of_space _ _ hr] at hlater
              refine ih m (fun _ => ⟨of_decide_eq_true hq, ?_⟩) (by simp) hlater
              rintro rfl
              exact absurd hr (by decide)
          · have hrest : ∀ m, tagLength r (q.next (some prev) r) m
                (squeeze (some r) (q.next (some prev) r) false s) =
                m + (squeeze (some r) (q.next (some prev) r) false s).length :=
              fun m => ih m (by simp) (fun _ => rfl) hlater
            split
            · next hg =>
                obtain ⟨rfl, hback⟩ := hgap hg
                have hnext : Quote.next .outside (some (.char ' ')) r =
                    Quote.next .outside (some prev) r :=
                  next_congr _ r (by simp [hback])
                rw [tagLength, if_neg (by simp), next_of_space _ _ rfl, tagLength, if_neg hopen,
                  hnext, hrest]
                simp only [List.length_cons]
                omega
            · next hg =>
                rw [hprev (by simpa using hg), tagLength, if_neg hopen, hrest]
                simp only [List.length_cons]
                omega

/-- Closing up keeps a text without the end of a tag before its last glyph. -/
theorem tagLength_closed {prev : Glyph} {q : Quote} {n : Nat} {body : Text}
    (h : tagLength prev q n (body ++ [.char ' ', .char '>']) = n + (body.length + 2)) :
    tagLength prev q n (body ++ [.char '>']) = n + (body.length + 1) := by
  induction body generalizing prev q n with
  | nil =>
      rw [List.nil_append, tagLength]
      split <;> rfl
  | cons r body ih =>
      rw [List.cons_append, tagLength] at h ⊢
      split at h
      · simp only [List.length_cons] at h
        omega
      · next hopen =>
          rw [List.length_cons] at h
          rw [if_neg hopen, List.length_cons, ih (by omega)]
          omega

/-- **The normal form of a tag is read as one tag**, also where the tag lacks its
end. -/
theorem split_normalize {s : Text} (hopen : ¬text "!--" <+: s)
    (h : tagLength (.char '<') .outside 1 s = 1 + s.length) :
    split (normalize (.char '<' :: s)) = [⟨.tag, normalize (.char '<' :: s)⟩] := by
  have hsqueezed : squeezed (.char '<' :: s) =
      .char '<' :: squeeze (some (.char '<')) .outside false s := rfl
  have hlength : tagLength (.char '<') .outside 1
      (squeeze (some (.char '<')) .outside false s) =
        1 + (squeeze (some (.char '<')) .outside false s).length :=
    tagLength_squeeze 1 (by simp) (fun _ => rfl) h
  obtain ⟨u, hu, hwhole⟩ : ∃ u, normalize (.char '<' :: s) = .char '<' :: u ∧
      tagLength (.char '<') .outside 1 u = 1 + u.length := by
    rcases normalize_cases (.char '<' :: s) with ⟨-, hnormal⟩ | ⟨body, hend, hnormal⟩
    · exact ⟨_, hnormal.trans hsqueezed, hlength⟩
    · rw [hsqueezed] at hend
      cases body with
      | nil => simp at hend
      | cons a body =>
          obtain ⟨rfl, hbody⟩ := List.cons.inj hend
          refine ⟨body ++ [.char '>'], hnormal.trans List.cons_append, ?_⟩
          rw [hbody] at hlength
          simpa using tagLength_closed (by simpa using hlength)
  have hcomment : ¬text "!--" <+: u := by
    intro hlead
    have hstart : text "<!--" <+: normalize (.char '<' :: s) := by
      rw [hu]
      exact List.cons_prefix_cons.mpr ⟨rfl, hlead⟩
    rw [normalize_eq, hsqueezed] at hstart
    have hraw := prefix_of_prefix_closeUp (by decide) hstart
    exact hopen (prefix_of_prefix_squeeze (by decide) (List.cons_prefix_cons.mp hraw).2)
  have hmarked : marked? none (.char '<') (u ++ []) = some (.tag, u.length + 1) := by
    rw [List.append_nil, marked?_tag none hcomment, hwhole, Nat.add_comm]
  have hpiece := splitFrom_of_marked [] hmarked
  rw [List.append_nil] at hpiece
  rw [hu, split, hpiece]
  rfl

/-! ## The tags of a source -/

/-- A tag that has its `>` ends outside quotes. -/
theorem not_endsQuoted_of_closed {raw : Text} (h : Closed .tag raw) : ¬EndsQuoted raw := by
  cases h with
  | @tag s hopen hend =>
      obtain ⟨body, rfl, hquote⟩ := outside_of_endsTag hend
      rw [← List.cons_append, endsQuoted_append rfl]
      exact fun h => h hquote

/-- A marked piece of a source is closed or runs to its end. -/
theorem closed_or_running_of_mem {lexemes : List Lexeme} (hsound : Sound lexemes)
    {lexeme : Lexeme} (hmem : lexeme ∈ lexemes) (hkind : lexeme.kind ≠ .text) :
    Closed lexeme.kind lexeme.raw ∨ Running lexeme.kind lexeme.raw := by
  induction hsound with
  | nil => cases hmem
  | text hs hnext tail ih =>
      rcases List.mem_cons.mp hmem with rfl | hmem
      · exact absurd rfl hkind
      · exact ih hmem
  | closed hclosed tail ih =>
      rcases List.mem_cons.mp hmem with rfl | hmem
      · exact .inl hclosed
      · exact ih hmem
  | running hrunning =>
      obtain rfl := List.mem_singleton.mp hmem
      exact .inr hrunning

/-- A tag of a source has no `>` outside quotes before its last glyph. -/
theorem exists_of_mem_split {source : Text} {lexeme : Lexeme} (hmem : lexeme ∈ split source)
    (hkind : lexeme.kind = .tag) :
    ∃ s, lexeme.raw = .char '<' :: s ∧ ¬text "!--" <+: s ∧
      tagLength (.char '<') .outside 1 s = 1 + s.length := by
  have hpiece := closed_or_running_of_mem (sound_split source) hmem (by simp [hkind])
  rw [hkind] at hpiece
  generalize lexeme.raw = raw at hpiece
  rcases hpiece with hclosed | hrunning
  · cases hclosed with
    | @tag s hopen hend =>
        have hlength := tagLength_of_ends 1 [] hend
        rw [List.append_nil] at hlength
        exact ⟨s, rfl, hopen, hlength⟩
  · cases hrunning with
    | @tag s hopen hlength => exact ⟨s, rfl, hopen, hlength⟩

/-- **Quotes in the normal form of a tag.**  Take any tag of a source, with or without its
end, and its normal form.  The glyphs inside quotes are the same, and so are the quotes that
every glyph but a space outside quotes stands in, exactly if the tag does not end inside a
quoted value in ` >`; and the normal form is its own normal form exactly if the tag does not
end inside a quoted value in two spaces and a `>`.  In every case the normal form is read as
one tag, which ends in the same quotes; and a tag that has its end does not end inside
quotes. -/
theorem quotes_normalize (source : Text) (lexeme : Lexeme) (hmem : lexeme ∈ split source)
    (hkind : lexeme.kind = .tag) :
    let raw := lexeme.raw
    let tag := normalize raw
    (quotedGlyphs tag = quotedGlyphs raw ↔ ¬(EndsQuoted raw ∧ text " >" <:+ raw)) ∧
      (standing tag = standing raw ↔ ¬(EndsQuoted raw ∧ text " >" <:+ raw)) ∧
      (normalize tag = tag ↔ ¬(EndsQuoted raw ∧ text "  >" <:+ raw)) ∧
      split tag = [⟨.tag, tag⟩] ∧
      Quote.outside.after none tag = Quote.outside.after none raw ∧
      (Closed .tag raw → ¬EndsQuoted raw) := by
  intro raw tag
  have hsplit : split tag = [⟨.tag, tag⟩] := by
    obtain ⟨s, hs, hopen, hlength⟩ := exists_of_mem_split hmem hkind
    have hraw : raw = .char '<' :: s := hs
    simp only [tag, hraw]
    exact split_normalize hopen hlength
  exact ⟨quotedGlyphs_normalize_iff raw, standing_normalize_iff raw, normalize_twice_iff raw,
    hsplit, after_normalize raw, not_endsQuoted_of_closed⟩

/-- A tag without its end, inside an open value that ends in a space; an escaped quote and
spaces on both sides of quotes come before. -/
theorem quotes_normalize_open :
    let raw := text "<a  b = 'c  > \\' d'  e=\"f  "
    let tag := text "<a b = 'c  > \\' d' e=\"f  "
    ⟨.tag, raw⟩ ∈ split raw ∧ normalize raw = tag ∧ quotedGlyphs tag = quotedGlyphs raw ∧
      standing tag = standing raw ∧ normalize tag = tag ∧ split tag = [⟨.tag, tag⟩] := by
  intro raw tag
  have hmem : ⟨.tag, raw⟩ ∈ split raw := by decide +kernel
  obtain ⟨hquoted, hstanding, hagain, hsplit, -⟩ := quotes_normalize raw ⟨.tag, raw⟩ hmem rfl
  have hnormal : normalize raw = tag := by decide +kernel
  simp only [hnormal] at hquoted hstanding hagain hsplit
  have hkept : ¬(EndsQuoted raw ∧ text " >" <:+ raw) := by decide +kernel
  exact ⟨hmem, hnormal, hquoted.mpr hkept, hstanding.mpr hkept, hagain.mpr (by decide), hsplit⟩

/-- **A value that is left open loses a space**: the tag ends in ` >`, inside quotes.  Of
two spaces the second pass takes the other. -/
theorem quotes_normalize_lost :
    let one := text "<a title=\"x >"
    let two := text "<a title=\"x  >"
    ⟨.tag, one⟩ ∈ split one ∧ normalize one = text "<a title=\"x>" ∧
      quotedGlyphs one = text "x >" ∧ quotedGlyphs (normalize one) = text "x>" ∧
      ⟨.tag, two⟩ ∈ split two ∧ normalize two = one ∧ normalize (normalize two) ≠ one := by
  decide +kernel

end Markup.Tag

end TemplateFormat
