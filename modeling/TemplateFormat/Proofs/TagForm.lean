import TemplateFormat.Proofs.Reading
import TemplateFormat.Proofs.RespacedPieces

/-!
# The normal form of a tag

`Tag.normalize` squeezes the spaces of a tag that stand outside quotes and
closes up the space before its `>`.  For a tag that ends this is one thing: the
tag without its `>` is squeezed, which also drops the spaces at its end, and the
`>` is put back.

* `normalize_of_ends` — that description of the normal form;
* `closed_normalize` — the normal form of a tag that ends is a tag that ends;
* `normalize_normalize` — it is its own normal form.
-/

namespace TemplateFormat.Markup.Tag

open Lexeme

/-- What `squeeze` carries along: the glyph before, the kind of quotes, and
whether a gap is open. -/
structure Place where
  prev : Option Glyph
  quote : Quote
  gap : Bool

/-- The place behind one more glyph. -/
def Place.next (at_ : Place) (r : Glyph) : Place :=
  if at_.quote.isOutside && r.isSpace then ⟨some r, at_.quote, true⟩
  else ⟨some r, at_.quote.next at_.prev r, false⟩

/-- The place behind a text. -/
def Place.after (at_ : Place) (s : Text) : Place := s.foldl Place.next at_

/-- Squeezing goes through a text from the front. -/
theorem squeeze_append (at_ : Place) (s t : Text) :
    squeeze at_.prev at_.quote at_.gap (s ++ t) =
      squeeze at_.prev at_.quote at_.gap s ++
        squeeze (at_.after s).prev (at_.after s).quote (at_.after s).gap t := by
  induction s generalizing at_ with
  | nil => rfl
  | cons r s ih =>
      have hnext := ih (at_.next r)
      rw [List.cons_append, squeeze, squeeze]
      cases h : (at_.quote.isOutside && r.isSpace) with
      | true => simpa [Place.after, Place.next, h] using hnext
      | false =>
          cases hgap : at_.gap <;> simpa [Place.after, Place.next, h,
            hgap] using hnext

/-- A space is no quote. -/
theorem next_of_space (q : Quote) (prev : Option Glyph) {r : Glyph}
    (hr : r.isSpace = true) :
    q.next prev r = q :=
  next_of_blank q prev (Glyph.isBlank_of_isSpace hr)

/-- The quotes of a tag are seen alike by the search for its end and by
squeezing. -/
theorem endsTag_append {prev : Glyph} {q : Quote} (gap : Bool) {s t : Text}
    (ht : t ≠ [])
    (h : endsTag prev q (s ++ t) = true) :
    ∃ prev', (Place.after ⟨some prev, q, gap⟩ s).prev = some prev' ∧
      endsTag prev' (Place.after ⟨some prev, q, gap⟩ s).quote t = true := by
  induction s generalizing prev q gap with
  | nil => exact ⟨prev, rfl, h⟩
  | cons r s ih =>
      rw [List.cons_append, endsTag] at h
      split at h
      · simp [ht] at h
      · have hnext : Place.next ⟨some prev, q, gap⟩ r =
            ⟨some r, q.next (some prev) r, q.isOutside && r.isSpace⟩ := by
          rw [Place.next]
          split
          · next hspace =>
              rw [next_of_space _ _ (Bool.and_eq_true_iff.mp hspace).2, hspace]
          · next hspace => simp [hspace]
        rw [Place.after, List.foldl_cons, hnext]
        exact ih _ h

/-- The place behind a tag without its `>` stands outside quotes. -/
theorem quote_after {prev : Glyph} {q : Quote} (gap : Bool) {body : Text}
    (h : endsTag prev q (body ++ [.char '>']) = true) :
    (Place.after ⟨some prev, q, gap⟩ body).quote = .outside := by
  obtain ⟨prev', -, hend⟩ := endsTag_append gap (by simp) h
  by_cases hq : (Place.after ⟨some prev, q, gap⟩ body).quote = .outside
  · exact hq
  · simp [endsTag, hq] at hend

/-- Squeezing ends in a space only inside quotes. -/
theorem last_squeeze {at_ : Place} {s : Text} (hgap : (at_.after s).gap = false)
    (hquote : (at_.after s).quote = .outside) :
    ∀ t, squeeze at_.prev at_.quote at_.gap s ≠ t ++ [.char ' '] := by
  intro t ht
  rcases List.eq_nil_or_concat s with rfl | ⟨front, r, rfl⟩
  · simp [squeeze] at ht
  · rw [List.concat_eq_append] at ht hgap hquote
    rw [squeeze_append] at ht
    have hafter : at_.after (front ++ [r]) = (at_.after front).next r := by
      rw [Place.after, List.foldl_append]
      rfl
    rw [hafter, Place.next] at hgap hquote
    split at hgap
    · cases hgap
    · next hspace =>
        rw [if_neg hspace] at hquote
        -- the last glyph written is `r`, which is then a space inside quotes
        have hr : r = .char ' ' := by
          have hlast := congrArg List.getLast? ht
          rw [squeeze, if_neg hspace] at hlast
          split at hlast <;> simpa [squeeze] using hlast
        rw [hr, next_of_space _ _ rfl] at hquote
        rw [hr, hquote] at hspace
        exact hspace rfl

/-- **The normal form of a tag that ends**: squeezed up to its `>`. -/
theorem normalize_of_ends {body : Text}
    (h : endsTag (.char '<') .outside (body ++ [.char '>']) = true) :
    normalize (.char '<' :: (body ++ [.char '>'])) =
      .char '<' :: (squeeze (some (.char '<')) .outside false body ++ [.char '>']) := by
  have hopen : ∀ s, squeeze none .outside false (.char '<' :: s) =
      .char '<' :: squeeze (some (.char '<')) .outside false s := fun s => rfl
  have hquote := quote_after false h
  rw [normalize, hopen, squeeze_append ⟨some (.char '<'), .outside, false⟩
    body [.char '>'], hquote]
  cases hgap : (Place.after ⟨some (.char '<'), .outside, false⟩ body).gap with
  | true =>
      have hend : ∀ prev, squeeze prev .outside true [.char '>'] = [.char ' ',
        .char '>'] :=
        fun prev => rfl
      rw [hend, ← List.cons_append, closeUp_spaced, List.cons_append]
  | false =>
      have hend : ∀ prev, squeeze prev .outside false [.char '>'] = [.char '>'] :=
        fun prev => rfl
      rw [hend, closeUp, if_neg]
      intro hspace
      obtain ⟨t, ht⟩ := List.isSuffixOf_iff_suffix.mp hspace
      have hsplit : t ++ text " >" = (t ++ [.char ' ']) ++ [.char '>'] := by
        simp [text]
      rw [hsplit, ← List.cons_append] at ht
      have ht := List.append_cancel_right ht
      cases t with
      | nil => cases ht
      | cons a t =>
          rw [List.cons_append] at ht
          exact last_squeeze hgap hquote t (List.cons.inj ht).2.symm

/-- Squeezing keeps the end of a tag. -/
theorem endsTag_squeeze {prev prev' : Glyph} {q : Quote} {gap : Bool}
    {body : Text}
    (hgap : gap = true → q = .outside ∧ prev ≠ .char '\\')
    (hprev : gap = false → prev' = prev)
    (h : endsTag prev q (body ++ [.char '>']) = true) :
    endsTag prev' q (squeeze (some prev) q gap body ++ [.char '>']) = true := by
  induction body generalizing prev prev' q gap with
  | nil =>
      have hq : q = .outside := by
        by_cases hq : q = .outside
        · exact hq
        · simp [endsTag, hq] at h
      simp [squeeze, endsTag, hq]
  | cons r body ih =>
      have hopen : ¬(r = .char '>' ∧ q = .outside) := by
        rintro ⟨rfl, rfl⟩
        simp [endsTag] at h
      rw [List.cons_append, endsTag, if_neg hopen] at h
      rw [squeeze]
      split
      · next hspace =>
          obtain ⟨hq, hr⟩ := Bool.and_eq_true_iff.mp hspace
          rw [next_of_space _ _ hr] at h
          refine ih (fun _ => ⟨by simpa [Quote.isOutside] using hq, ?_⟩) (by simp) h
          rintro rfl
          exact absurd hr (by decide)
      · have hrest : endsTag r (q.next (some prev) r)
            (squeeze (some r) (q.next (some prev) r) false body ++
              [.char '>']) = true :=
          ih (by simp) (fun _ => rfl) h
        split
        · next hg =>
            obtain ⟨rfl, hback⟩ := hgap hg
            have hnext : Quote.next .outside (some (.char ' ')) r =
              Quote.next .outside (some prev) r :=
              next_congr _ r (by simp [hback])
            rw [List.cons_append, endsTag, if_neg (by simp),
              next_of_space _ _ rfl, List.cons_append,
              endsTag, if_neg hopen, hnext]
            exact hrest
        · next hg =>
            rw [hprev (by simpa using hg), List.cons_append, endsTag,
              if_neg hopen]
            exact hrest

/-- Squeezing twice is squeezing once. -/
theorem squeeze_squeeze {prev prev' : Option Glyph} {q : Quote} {gap : Bool} (s : Text)
    (hgap : gap = true → q = .outside ∧ prev ≠ some (.char '\\'))
    (hprev : gap = false → prev' = prev) :
    squeeze prev' q false (squeeze prev q gap s) = squeeze prev q gap s := by
  induction s generalizing prev prev' q gap with
  | nil => rfl
  | cons r s ih =>
      rw [squeeze]
      split
      · next hspace =>
          obtain ⟨hq, hr⟩ := Bool.and_eq_true_iff.mp hspace
          refine ih (fun _ => ⟨by simpa [Quote.isOutside] using hq, ?_⟩) (by simp)
          rintro h
          cases h
          exact absurd hr (by decide)
      · next hspace =>
          have hrest : squeeze (some r) (q.next prev r) false
              (squeeze (some r) (q.next prev r) false s) =
              squeeze (some r) (q.next prev r) false s :=
            ih (by simp) (fun _ => rfl)
          split
          · next hg =>
              obtain ⟨rfl, hback⟩ := hgap hg
              have hnext : Quote.next .outside (some (.char ' ')) r =
                Quote.next .outside prev r := by
                simp [Quote.next, hback]
              have hgap : Quote.isOutside .outside && Glyph.isSpace (.char ' ') := rfl
              rw [squeeze, if_pos hgap, squeeze, if_neg hspace, if_pos rfl, hnext, hrest]
          · next hg =>
              rw [hprev (by simpa using hg), squeeze, if_neg hspace,
                if_neg (by simp), hrest]

/-- A text without spaces found at the start of a squeezed text stood there
before. -/
theorem prefix_of_prefix_squeeze {m s : Text} {prev : Option Glyph} {q : Quote}
    (hm : ∀ r ∈ m, r ≠ .char ' ') (h : m <+: squeeze prev q false s) : m <+: s := by
  induction m generalizing s prev q with
  | nil => exact List.nil_prefix
  | cons a m ih =>
      cases s with
      | nil => simp [squeeze] at h
      | cons r s =>
          rw [squeeze] at h
          split at h
          · -- a gap is written as a space
            exfalso
            have hgap : ∀ (s : Text) prev q, ¬a :: m <+: squeeze prev q true s := by
              intro s
              induction s with
              | nil => simp [squeeze]
              | cons b s ihs =>
                  intro prev q hlead
                  rw [squeeze] at hlead
                  split at hlead
                  · exact ihs _ _ hlead
                  · exact hm a List.mem_cons_self
                      (List.cons_prefix_cons.mp hlead).1
            exact hgap _ _ _ h
          · obtain ⟨rfl, hlead⟩ := List.cons_prefix_cons.mp h
            exact List.cons_prefix_cons.mpr
              ⟨rfl, ih (fun r hr => hm r (List.mem_cons_of_mem a hr)) hlead⟩

/-- What stands at the start of a tag, without a `>`, is not touched by closing
up its end. -/
theorem prefix_of_prefix_closeUp {m s : Text} (hm : .char '>' ∉ m) (h : m <+: closeUp s) :
    m <+: s := by
  by_cases hend : s.endsWith (text " >") = true
  · obtain ⟨body, rfl⟩ := List.isSuffixOf_iff_suffix.mp hend
    have hspaced : text " >" = [.char ' ', .char '>'] := rfl
    rw [hspaced, closeUp_spaced] at h
    have hbody : m <+: body :=
      prefix_of_prefix_append (c := [.char '>']) (by simpa using hm) h
    exact hbody.trans (List.prefix_append body _)
  · rwa [closeUp, if_neg hend] at h

/-- **The normal form of a tag that ends** is a tag that ends. -/
theorem closed_normalize {raw : Text} (h : Closed .tag raw) : Closed .tag (normalize raw) := by
  cases h with
  | tag hopen h =>
      obtain ⟨body, rfl⟩ := last_of_endsTag h
      rw [normalize_of_ends h]
      refine .tag (fun hlead => hopen ?_)
        (endsTag_squeeze (by simp) (fun _ => rfl) h)
      have hbody := prefix_of_prefix_append (c := [.char '>']) (by decide) hlead
      exact (prefix_of_prefix_squeeze (by decide) hbody).trans
        (List.prefix_append body _)

/-- The normal form of a tag that ends is its own normal form. -/
theorem normalize_normalize {raw : Text} (h : Closed .tag raw) :
    normalize (normalize raw) = normalize raw := by
  cases h with
  | tag hopen h =>
      obtain ⟨body, rfl⟩ := last_of_endsTag h
      rw [normalize_of_ends h,
        normalize_of_ends (endsTag_squeeze (by simp) (fun _ => rfl) h),
        squeeze_squeeze body (by simp) (fun _ => rfl)]

end TemplateFormat.Markup.Tag
