import TemplateFormat.Proofs.Blanks
import TemplateFormat.Layout.Flatten

/-!
# Respacing: where flattening may touch a text

Flattening changes the joined text of an element in four passes, none of which
knows about quotes, comments or expressions.  What they have in common is
where they change it.  `Respaced` says it once: every glyph that is not blank
stays; a blank stays a blank; and a blank is left out only next to another
blank, behind a `>`, or before a `<`.

* `respaced_squeezeBlanks`, `respaced_closeTagGaps`, `respaced_tightenOpenings`
  and `respaced_tightenClosings` — the four passes are respacings;
* `Respaced.strip_eq` — a respacing changes nothing but blanks;
* `Respaced.split` — a respacing of two texts side by side is a respacing of
  each, so it can be followed piece by piece.
-/

namespace TemplateFormat

namespace Text

/-- The second text is the first with other white space: blanks stay blanks or
are left out, and one is left out only next to a blank, behind `>` or before
`<`.  `behind` tells that the texts stand right behind a `>`. -/
inductive Respaced : (behind : Bool) → Text → Text → Prop
  | nil {behind : Bool} : Respaced behind [] []
  | ink {behind : Bool} {r : Glyph} {s t : Text} (hr : r.isBlank = false)
      (tail : Respaced (r == .char '>') s t) : Respaced behind (r :: s) (r :: t)
  | keep {behind : Bool} {w w' : Glyph} {s t : Text} (hw : w.isBlank = true)
      (hw' : w'.isBlank = true) (tail : Respaced false s t) :
      Respaced behind (w :: s) (w' :: t)
  | drop {behind : Bool} {w : Glyph} {s t : Text} (hw : w.isBlank = true)
      (hplace : behind = true ∨ s.head?.any Glyph.isBlank = true ∨
        s.head? = some (.char '<'))
      (tail : Respaced behind s t) : Respaced behind (w :: s) t

/-- A respacing changes nothing but blanks. -/
theorem Respaced.strip_eq {behind : Bool} {s t : Text} (h : Respaced behind s t) :
    strip t = strip s := by
  induction h with
  | nil => rfl
  | ink hr _ ih => rw [strip_cons_of_ink _ hr, strip_cons_of_ink _ hr, ih]
  | keep hw hw' _ ih =>
      rw [strip_cons_of_blank _ hw, strip_cons_of_blank _ hw', ih]
  | drop hw _ _ ih => rw [strip_cons_of_blank _ hw, ih]

/-- **Splitting a respacing.**  Where the first of two texts ends in a glyph
that is not blank, a respacing of both falls apart into one of each. -/
theorem Respaced.split {behind : Bool} {x y z : Text} {last : Glyph}
    (hlast : last.isBlank = false) (h : Respaced behind (x ++ last :: y) z) :
    ∃ x' y', z = x' ++ last :: y' ∧ Respaced behind (x ++ [last]) (x' ++ [last]) ∧
      Respaced (last == .char '>') y y' := by
  induction x generalizing behind z with
  | nil =>
      cases h with
      | ink hr tail => exact ⟨[], _, rfl, .ink hr .nil, tail⟩
      | keep hw => simp [hlast] at hw
      | drop hw => simp [hlast] at hw
  | cons r x ih =>
      cases h with
      | ink hr tail =>
          obtain ⟨x', y', rfl, hx, hy⟩ := ih tail
          exact ⟨r :: x', y', rfl, .ink hr hx, hy⟩
      | keep hw hw' tail =>
          obtain ⟨x', y', rfl, hx, hy⟩ := ih tail
          exact ⟨_ :: x', y', rfl, .keep hw hw' hx, hy⟩
      | drop hw hplace tail =>
          obtain ⟨x', y', rfl, hx, hy⟩ := ih tail
          refine ⟨x', y', rfl, .drop hw ?_ hx, hy⟩
          cases x with
          | nil => simpa using hplace
          | cons a x => simpa using hplace

/-- A glyph that is not blank stays in its place. -/
theorem Respaced.cons_of_ink {behind : Bool} {s t : Text} {r : Glyph}
    (h : Respaced behind (r :: s) t)
    (hr : r.isBlank = false) : ∃ t', t = r :: t' ∧ Respaced (r == .char '>') s t' := by
  cases h with
  | ink hr tail => exact ⟨_, rfl, tail⟩
  | keep hw => simp [hr] at hw
  | drop hw => simp [hr] at hw

/-- Nothing comes from nothing. -/
theorem Respaced.eq_nil {behind : Bool} {t : Text} (h : Respaced behind [] t) : t = [] := by
  cases h
  rfl

/-- A respacing of a trimmed text and what follows it, as one of each. -/
theorem Trimmed.split_respaced {s t z : Text} {behind : Bool} (htrim : Trimmed s)
    (hne : s ≠ [])
    (h : Respaced behind (s ++ t) z) :
    ∃ last s' t', s.getLast? = some last ∧ s'.getLast? = some last ∧
      z = s' ++ t' ∧
      Respaced behind s s' ∧ Respaced (last == .char '>') t t' := by
  obtain ⟨body, last, rfl, hlast⟩ := htrim.exists_last hne
  rw [List.append_assoc] at h
  obtain ⟨body', t', rfl, hbody, ht⟩ := h.split hlast
  exact ⟨last, body' ++ [last], t', by simp, by simp, by simp, hbody, ht⟩

/-- A respacing of a trimmed text is trimmed. -/
theorem Trimmed.respaced {s s' : Text} {behind : Bool} (htrim : Trimmed s)
    (hne : s ≠ [])
    (h : Respaced behind s s') : Trimmed s' ∧ s' ≠ [] := by
  obtain ⟨last, u, t', hlast, hlast', rfl, hraw, ht⟩ :=
    htrim.split_respaced hne (t := []) (by simpa using h)
  rw [ht.eq_nil, List.append_nil]
  obtain ⟨r, s, rfl⟩ := List.exists_cons_of_ne_nil hne
  obtain ⟨t, rfl, -⟩ := hraw.cons_of_ink (htrim.head r rfl)
  refine ⟨⟨fun a ha => htrim.head a (by simpa using ha), fun a ha => ?_⟩, by simp⟩
  rw [hlast'] at ha
  exact htrim.last a (by rw [hlast]; exact ha)

/-- The pass of `collapse` is a respacing of a text that ends in a glyph that
is not blank.  A pending gap stands for the last blank passed. -/
theorem respaced_squeezeBlanks {s : Text} {last : Glyph}
    (hlast : last.isBlank = false) :
    (∀ behind, Respaced behind (s ++ [last])
      (squeezeBlanks false (s ++ [last]))) ∧
    ∀ behind w, w.isBlank = true →
      Respaced behind (w :: (s ++ [last])) (squeezeBlanks true (s ++ [last])) := by
  induction s with
  | nil =>
      have hend : ∀ behind, Respaced behind [last] [last] :=
        fun _ => .ink hlast .nil
      simp only [List.nil_append, squeezeBlanks, hlast]
      exact ⟨hend, fun _ _ hw => .keep hw rfl (hend false)⟩
  | cons r s ih =>
      obtain ⟨hplain, hgap⟩ := ih
      cases hr : r.isBlank with
      | true =>
          simp only [List.cons_append, squeezeBlanks, hr, if_true]
          exact ⟨fun behind => hgap behind r hr,
            fun behind w hw => .drop hw (by simp [hr]) (hgap behind r hr)⟩
      | false =>
          simp only [List.cons_append, squeezeBlanks, hr]
          exact ⟨fun _ => .ink hr (hplain _), fun _ _ hw => .keep hw rfl
            (.ink hr (hplain _))⟩

/-- Collapsing a trimmed text is a respacing. -/
theorem Trimmed.respaced_collapse {s : Text} (h : Trimmed s) (behind : Bool) :
    Respaced behind s (collapse s) := by
  by_cases hne : s = []
  · rw [hne]
    exact .nil
  · obtain ⟨body, last, hs, hlast⟩ := h.exists_last hne
    rw [h.collapse_eq, hs]
    exact (respaced_squeezeBlanks hlast).1 behind

end Text

namespace Layout

open Text

/-- Closing the gaps between tags is a respacing. -/
theorem respaced_closeTagGaps {behind skipping : Bool}
    (hskip : skipping = true → behind = true)
    (s : Text) : Respaced behind s (closeTagGaps skipping s) := by
  induction s generalizing behind skipping with
  | nil => exact .nil
  | cons r s ih =>
      by_cases hgap : (skipping && r.isGap) = true
      · obtain ⟨hs, hr⟩ := Bool.and_eq_true_iff.mp hgap
        rw [closeTagGaps, if_pos hgap]
        exact .drop (Glyph.isBlank_of_isGap hr) (.inl (hskip hs))
          (ih fun _ => hskip hs)
      · rw [closeTagGaps, if_neg hgap]
        cases hr : r.isBlank with
        | false => exact .ink hr (ih fun h => by simp at h; simp [h.1])
        | true =>
            have hne : r ≠ .char '>' := by rintro rfl; exact absurd hr (by decide)
            exact .keep hr hr (ih fun h => by simp [hne] at h)

/-- What `afterFolded?` leaves is the end of the text. -/
theorem afterFolded?_suffix {name s rest : Text}
    (h : afterFolded? name s = some rest) :
    ∃ lead, s = lead ++ rest := by
  induction name generalizing s with
  | nil => exact ⟨[], by simpa [afterFolded?] using h⟩
  | cons a name ih =>
      cases s with
      | nil => simp [afterFolded?] at h
      | cons r s =>
          rw [afterFolded?] at h
          split at h
          · obtain ⟨lead, rfl⟩ := ih h
            exact ⟨r :: lead, rfl⟩
          · cases h

/-- The start tag that `afterInlineOpening?` passes ends in `>`. -/
theorem afterInlineOpening?_ends {s tail : Text}
    (h : afterInlineOpening? s = some tail) :
    ∃ lead, s = lead ++ .char '>' :: tail := by
  obtain ⟨name, _, hname⟩ := List.exists_of_findSome?_eq_some h
  split at hname
  · next r rest hfold =>
      obtain ⟨lead, rfl⟩ := afterFolded?_suffix hfold
      split at hname
      · next hr => exact ⟨lead, by simp_all⟩
      · split at hname
        · split at hname
          · next x _ hdrop =>
              obtain rfl : _ = tail := by simpa using hname
              obtain rfl : x = .char '>' := by
                have := List.head?_dropWhile_not (· != .char '>') rest
                simpa [hdrop] using this
              refine ⟨lead ++ r :: rest.takeWhile (· != .char '>'), ?_⟩
              rw [List.append_assoc, List.cons_append, ← hdrop,
                List.takeWhile_append_dropWhile]
          · cases hname
        · cases hname
  · cases hname

/-- Closing the gaps behind inline start tags is a respacing: what is copied
ends in `>`, so the gap left out stands behind one. -/
theorem respaced_tightenOpenings {behind skipping : Bool} {copy : Nat} {s : Text}
    (hcopy : copy ≠ 0 → (s.drop (copy - 1)).head? = some (.char '>'))
    (hskip : copy = 0 → skipping = true → behind = true) :
    Respaced behind s (tightenOpenings copy skipping s) := by
  induction s generalizing behind skipping copy with
  | nil => simpa [tightenOpenings] using Respaced.nil
  | cons r s ih =>
      cases copy with
      | succ copy =>
          rw [tightenOpenings]
          have hnext : copy ≠ 0 → (s.drop (copy - 1)).head? = some (.char '>') := by
            intro hne
            obtain ⟨n, rfl⟩ := Nat.exists_eq_succ_of_ne_zero hne
            simpa using hcopy
          have hend : copy = 0 → r = .char '>' := by
            rintro rfl
            simpa using hcopy
          cases hr : r.isBlank with
          | false => exact .ink hr (ih hnext fun h0 _ => by simp [hend h0])
          | true =>
              refine .keep hr hr (ih hnext fun h0 _ => ?_)
              rw [hend h0] at hr
              exact absurd hr (by decide)
      | zero =>
          have hplain : ∀ next, (next ≠ 0 →
            (s.drop (next - 1)).head? = some (.char '>')) →
              Respaced behind (r :: s) (r :: tightenOpenings next false s) := by
            intro next hnext
            cases hr : r.isBlank with
            | false => exact .ink hr (ih hnext (by simp))
            | true => exact .keep hr hr (ih hnext (by simp))
          rw [tightenOpenings]
          split
          · next hgap =>
              obtain ⟨hs, hr⟩ := Bool.and_eq_true_iff.mp hgap
              have hb := hskip rfl hs
              exact .drop (Glyph.isBlank_of_isGap hr) (.inl hb)
                (ih (by simp) fun _ _ => hb)
          · split
            · split
              · next tail htail =>
                  obtain ⟨lead, rfl⟩ := afterInlineOpening?_ends htail
                  have hlen : (lead ++
                    .char '>' :: tail).length - tail.length - 1 =
                      lead.length := by
                    simp only [List.length_append, List.length_cons]
                    omega
                  exact hplain _ fun _ => by rw [hlen, List.drop_left]; rfl
              · exact hplain 0 (by simp)
            · exact hplain 0 (by simp)

/-- Closing the gaps before inline closing tags is a respacing. -/
theorem respaced_tightenClosings (behind : Bool) (s : Text) :
    Respaced behind s (tightenClosings s) := by
  induction s generalizing behind with
  | nil => exact .nil
  | cons r s ih =>
      rw [tightenClosings]
      split
      · next h =>
          obtain ⟨hr, hclosing⟩ := Bool.and_eq_true_iff.mp h
          refine .drop (Glyph.isBlank_of_isGap hr) (.inr ?_) (ih behind)
          cases s with
          | nil => simp [startsInlineClosing, after?, text] at hclosing
          | cons a s =>
              by_cases ha : a.isGap = true
              · exact .inl (by simp [Glyph.isBlank_of_isGap ha])
              · rw [List.dropWhile_cons_of_neg ha] at hclosing
                by_cases hopen : a = .char '<'
                · exact .inr (by simp [hopen])
                · simp [startsInlineClosing, after?, text,
                    Ne.symm hopen] at hclosing
      · cases hr : r.isBlank with
        | false => exact .ink hr (ih _)
        | true => exact .keep hr hr (ih _)

/-- **Flattening is a chain of respacings** of the joined renderings without the blanks at
their ends: what every respacing keeps, flattening keeps. -/
theorem flatten_induction_trim {P : Text → Prop}
    (hstep : ∀ s t, P s → Respaced true s t → P t) {tokens : List Markup.Token}
    (h : P (trim (join [.char ' '] (tokens.map renderInline)))) : P (flatten tokens) := by
  have hcollapse := hstep _ _ h ((trimmed_trim _).respaced_collapse true)
  rw [collapse_trim] at hcollapse
  have hgaps : P (closeTagGaps false (collapse _)) :=
    hstep _ _ hcollapse (respaced_closeTagGaps (by simp) _)
  have hopenings : P
    (tightenOpenings 0 false (closeTagGaps false (collapse _))) :=
    hstep _ _ hgaps (respaced_tightenOpenings (by simp) (by simp))
  exact hstep _ _ hopenings (respaced_tightenClosings true _)

/-- Where the joined renderings are trimmed, they are what is respaced. -/
theorem flatten_induction {P : Text → Prop}
    (hstep : ∀ s t, P s → Respaced true s t → P t)
    {tokens : List Markup.Token}
    (htrim : Trimmed (join [.char ' '] (tokens.map renderInline)))
    (h : P (join [.char ' '] (tokens.map renderInline))) : P (flatten tokens) :=
  flatten_induction_trim hstep (by rwa [htrim.trim_eq])

/-- Flattening a line changes nothing but blanks. -/
theorem strip_flatten (tokens : List Markup.Token) :
    strip (flatten tokens) = strip ((tokens.map renderInline).flatten) := by
  have hopenings : ∀ s, Respaced true s (tightenOpenings 0 false s) := fun s =>
    respaced_tightenOpenings (by simp) (by simp)
  have hgaps : ∀ s, Respaced true s (closeTagGaps false s) :=
    respaced_closeTagGaps (by simp)
  rw [flatten, (respaced_tightenClosings true _).strip_eq, (hopenings _).strip_eq,
    (hgaps _).strip_eq, strip_collapse, strip_join rfl]

end Layout

end TemplateFormat
