import TemplateFormat.Text.Words

/-!
# White space that carries no meaning

Everything the formatter does to white space is one of three things: ends are
trimmed, runs are collapsed, and single gaps are opened or closed.  This file
says what survives.

* `strip` forgets all blanks; trimming, collapsing and joining do not change
  what is left (`strip_trim`, `strip_collapse`, `strip_join`).
* `collapse_eq` reads `collapse`, which is defined by splitting into words, as
  one pass over the text that carries a pending gap (`squeezeBlanks`).  Proofs
  about collapsed text follow that pass.
-/

namespace TemplateFormat

/-- A space is a blank. -/
@[simp] theorem Glyph.isBlank_space : Glyph.isBlank (.char ' ') = true := rfl

/-- A newline is a blank. -/
@[simp] theorem Glyph.isBlank_newline : Glyph.isBlank (.char '\n') = true := rfl

/-- A carriage return is a blank. -/
@[simp] theorem Glyph.isBlank_return : Glyph.isBlank (.char '\r') = true := rfl

/-- A tab is a blank. -/
@[simp] theorem Glyph.isBlank_tab : Glyph.isBlank (.char '\t') = true := rfl

/-- The six ASCII spaces are blanks. -/
theorem Glyph.isBlank_of_isSpace {r : Glyph} (h : r.isSpace = true) : r.isBlank = true := by
  cases r with
  | stray b => simp [isSpace] at h
  | char c =>
      simp only [isSpace, Bool.or_eq_true, beq_iff_eq] at h
      rcases h with ((((rfl | rfl) | rfl) | rfl) | rfl) | rfl <;> rfl

/-- The gaps of a search pattern are spaces. -/
theorem Glyph.isSpace_of_isGap {r : Glyph} (h : r.isGap = true) : r.isSpace = true := by
  cases r with
  | stray b => simp [isGap] at h
  | char c =>
      simp only [isGap, Bool.or_eq_true, beq_iff_eq] at h
      rcases h with (((rfl | rfl) | rfl) | rfl) | rfl <;> rfl

/-- The gaps of a search pattern are blanks. -/
theorem Glyph.isBlank_of_isGap {r : Glyph} (h : r.isGap = true) :
    r.isBlank = true :=
  isBlank_of_isSpace (isSpace_of_isGap h)

/-- A blank is no letter. -/
theorem Glyph.isLetter_of_isBlank {r : Glyph} (h : r.isBlank = true) : r.isLetter = false := by
  cases r with
  | stray b => rfl
  | char c =>
      cases hletter : Glyph.isLetter (.char c) with
      | false => rfl
      | true =>
          have hcases : c.isUpper = true ∨ c.isLower = true :=
            Bool.or_eq_true_iff.mp hletter
          have hupper : c.isUpper = true → 65 ≤ c.toNat ∧ c.toNat ≤ 90 := fun h =>
            have hrange : c.val ≥ 'A'.val ∧ c.val ≤ 'Z'.val := of_decide_eq_true h
            hrange
          have hlower : c.isLower = true → 97 ≤ c.toNat ∧ c.toNat ≤ 122 := fun h =>
            (Bool.and_eq_true_iff.mp h).imp of_decide_eq_true of_decide_eq_true
          have hcode := hcases.imp hupper hlower
          simp only [isBlank, Bool.or_eq_true, Bool.and_eq_true,
            decide_eq_true_eq,
            beq_iff_eq] at h
          omega

namespace Text

/-- What `after?` leaves is the text behind the lead. -/
theorem after?_eq_some {lead s rest : Text} (h : after? lead s = some rest) :
    s = lead ++ rest := by
  induction lead generalizing s with
  | nil => simpa [after?] using h
  | cons a lead ih =>
      cases s with
      | nil => simp [after?] at h
      | cons b s =>
          rw [after?] at h
          split at h
          · next hab => rw [hab, ih h, List.cons_append]
          · cases h

/-! ## What `strip` keeps -/

@[simp] theorem strip_nil : strip [] = [] := rfl

@[simp] theorem strip_append (s t : Text) : strip (s ++ t) = strip s ++ strip t :=
  List.filter_append s t

/-- A blank leaves no trace. -/
theorem strip_cons_of_blank {r : Glyph} (s : Text) (h : r.isBlank = true) :
    strip (r :: s) = strip s := by
  simp [strip, h]

/-- Any other glyph stays. -/
theorem strip_cons_of_ink {r : Glyph} (s : Text) (h : r.isBlank = false) :
    strip (r :: s) = r :: strip s := by
  simp [strip, h]

@[simp] theorem strip_space_cons (s : Text) : strip (.char ' ' :: s) = strip s :=
  strip_cons_of_blank s rfl

@[simp] theorem strip_newline_cons (s : Text) :
    strip (.char '\n' :: s) = strip s :=
  strip_cons_of_blank s rfl

/-- Stripping works from either end. -/
theorem strip_reverse (s : Text) : strip s.reverse = (strip s).reverse :=
  List.filter_reverse

/-- Text that is nothing but blanks has nothing left. -/
theorem strip_eq_nil_iff {s : Text} : strip s = [] ↔ ∀ r ∈ s, r.isBlank = true := by
  simp [strip, List.filter_eq_nil_iff]

theorem strip_eq_nil_of_blank {s : Text} (h : ∀ r ∈ s, r.isBlank = true) :
    strip s = [] :=
  strip_eq_nil_iff.mpr h

/-- Dropping leading glyphs that are blanks changes nothing. -/
theorem strip_dropWhile {cut : Glyph → Bool}
    (hcut : ∀ r, cut r = true → r.isBlank = true)
    (s : Text) : strip (s.dropWhile cut) = strip s := by
  induction s with
  | nil => rfl
  | cons r s ih =>
      cases hr : cut r with
      | false => simp [hr]
      | true =>
          rw [List.dropWhile_cons_of_pos hr, ih, strip_cons_of_blank s
            (hcut r hr)]

@[simp] theorem strip_trimStart (s : Text) :
    strip (trimStart Glyph.isBlank s) = strip s :=
  strip_dropWhile (fun _ h => h) s

@[simp] theorem strip_trimEnd (s : Text) : strip (trimEnd Glyph.isBlank s) = strip s := by
  rw [trimEnd, strip_reverse, strip_dropWhile (fun _ h => h), strip_reverse,
    List.reverse_reverse]

/-- Trimming changes nothing. -/
@[simp] theorem strip_trim (s : Text) : strip (trim s) = strip s := by
  simp [trim]

/-! ## Trimmed texts -/

/-- A text with no blank at either end. -/
structure Trimmed (s : Text) : Prop where
  head : ∀ r ∈ s.head?, r.isBlank = false
  last : ∀ r ∈ s.getLast?, r.isBlank = false

/-- Dropping leading blanks leaves none. -/
theorem head?_trimStart (s : Text) :
    ∀ r ∈ (trimStart Glyph.isBlank s).head?, r.isBlank = false := by
  intro r hr
  have := List.head?_dropWhile_not Glyph.isBlank s
  rw [trimStart] at hr
  rw [hr] at this
  simpa using this

/-- **What trimming leaves out** are blanks at the two ends. -/
theorem trim_spec (s : Text) :
    ∃ a b, s = a ++ trim s ++ b ∧ (∀ r ∈ a, r.isBlank = true) ∧
    ∀ r ∈ b, r.isBlank = true := by
  have hwhile : ∀ u : Text, ∀ r ∈ u.takeWhile Glyph.isBlank, r.isBlank = true := by
    intro u r hr
    exact List.all_eq_true.mp List.all_takeWhile r hr
  refine ⟨s.takeWhile Glyph.isBlank,
    ((trimStart Glyph.isBlank s).reverse.takeWhile Glyph.isBlank).reverse, ?_,
    hwhile s, ?_⟩
  · rw [trim, trimEnd, List.append_assoc, ← List.reverse_append,
      List.takeWhile_append_dropWhile,
      List.reverse_reverse, trimStart, List.takeWhile_append_dropWhile]
  · intro r hr
    exact hwhile _ r (List.mem_reverse.mp hr)

theorem trimmed_trim (s : Text) : Trimmed (trim s) where
  head := by
    intro r hr
    obtain ⟨b, hb⟩ : trim s <+: trimStart Glyph.isBlank s := by
      rw [trim, trimEnd]
      exact List.reverse_suffix.mp
        (by rw [List.reverse_reverse]; exact List.dropWhile_suffix _)
    refine head?_trimStart s r ?_
    rw [← hb, List.head?_append, hr]
    rfl
  last := by
    intro r hr
    rw [trim, trimEnd, List.getLast?_reverse] at hr
    exact head?_trimStart _ r hr

/-- Blanks behind a trimmed text are what trimming leaves out. -/
theorem Trimmed.trim_append {s : Text} (h : Trimmed s) {w : Text}
    (hw : ∀ r ∈ w, r.isBlank = true) :
    trim (s ++ w) = s := by
  have hdrop : ∀ u v : Text, (∀ r ∈ u, r.isBlank = true) →
    (∀ r ∈ v.head?, r.isBlank = false) →
      (u ++ v).dropWhile Glyph.isBlank = v := by
    intro u v hu hv
    rw [List.dropWhile_append_of_pos hu]
    cases v with
    | nil => rfl
    | cons r v => rw [List.dropWhile_cons_of_neg (by simp [hv r rfl])]
  have hend : trimEnd Glyph.isBlank (s ++ w) = s := by
    rw [trimEnd, List.reverse_append, hdrop _ _ (by simpa using hw),
      List.reverse_reverse]
    rw [List.head?_reverse]
    exact h.last
  cases s with
  | nil =>
      have hblank : trimStart Glyph.isBlank w = [] := by
        simpa [trimStart] using hdrop w [] hw (by simp)
      rw [trim, List.nil_append, hblank]
      rfl
  | cons r s =>
      have hstart : trimStart Glyph.isBlank (r :: s ++ w) = r :: s ++ w :=
        hdrop [] (r :: s ++ w) (by simp) fun a ha => h.head a (by simpa using ha)
      rw [trim, hstart, hend]

/-- Trimming a trimmed text changes nothing. -/
theorem Trimmed.trim_eq {s : Text} (h : Trimmed s) : trim s = s := by
  simpa using h.trim_append (w := []) (by simp)

/-- A trimmed text that is not empty ends in a glyph that is not blank. -/
theorem Trimmed.exists_last {s : Text} (h : Trimmed s) (hne : s ≠ []) :
    ∃ body last, s = body ++ [last] ∧ last.isBlank = false := by
  rcases List.eq_nil_or_concat s with rfl | ⟨body, last, rfl⟩
  · exact absurd rfl hne
  · exact ⟨body, last, by simp, h.last last (by simp)⟩

/-- Nothing is left of a blank text. -/
theorem trim_eq_nil {s : Text} (h : strip s = []) : trim s = [] := by
  cases htrim : trim s with
  | nil => rfl
  | cons r rest =>
      have hink := (trimmed_trim s).head r (by rw [htrim]; rfl)
      rw [← strip_trim, htrim, strip_cons_of_ink rest hink] at h
      cases h

/-- What stands between two trimmed texts does not matter to the ends. -/
theorem Trimmed.surround {a b : Text} (ha : Trimmed a) (hane : a ≠ [])
    (hb : Trimmed b)
    (hbne : b ≠ []) (mid : Text) : Trimmed (a ++ mid ++ b) where
  head := by
    obtain ⟨first, rest, rfl⟩ := List.exists_cons_of_ne_nil hane
    exact fun r hr => ha.head r (by simpa using hr)
  last := by
    obtain ⟨body, last, rfl, -⟩ := hb.exists_last hbne
    exact fun r hr => hb.last r (by simpa using hr)

/-! ## Joining -/

@[simp] theorem join_nil (sep : Text) : join sep [] = [] := rfl

@[simp] theorem join_singleton (sep part : Text) : join sep [part] = part := by
  simp [join, List.intercalate]

theorem join_cons_cons (sep part next : Text) (rest : List Text) :
    join sep (part :: next :: rest) = part ++ sep ++ join sep (next :: rest) := by
  simp [join, List.intercalate]

/-- One more part is added behind the others. -/
theorem join_append_singleton (sep part : Text) {parts : List Text}
    (hne : parts ≠ []) :
    join sep (parts ++ [part]) = join sep parts ++ sep ++ part := by
  induction parts with
  | nil => exact absurd rfl hne
  | cons first rest ih =>
      cases rest with
      | nil => simp [join_cons_cons]
      | cons next rest =>
          have hrest := ih (by simp)
          rw [List.cons_append, List.cons_append, join_cons_cons,
            ← List.cons_append, hrest,
            join_cons_cons]
          simp only [List.append_assoc]

/-- Joining adds the separator only. -/
theorem mem_join {sep : Text} {parts : List Text} {r : Glyph}
    (h : r ∈ join sep parts) :
    r ∈ sep ∨ ∃ part ∈ parts, r ∈ part := by
  induction parts with
  | nil => cases h
  | cons part rest ih =>
      cases rest with
      | nil => exact .inr ⟨part, List.mem_cons_self, by simpa using h⟩
      | cons next rest =>
          rw [join_cons_cons, List.mem_append, List.mem_append] at h
          rcases h with (h | h) | h
          · exact .inr ⟨part, List.mem_cons_self, h⟩
          · exact .inl h
          · exact (ih h).imp_right fun ⟨part', hmem, hr⟩ =>
              ⟨part', List.mem_cons_of_mem _ hmem, hr⟩

/-- Joining keeps the parts. -/
theorem mem_join_of_mem (sep : Text) {part : Text} {parts : List Text} (h : part ∈ parts)
    {r : Glyph} (hr : r ∈ part) : r ∈ join sep parts := by
  induction parts with
  | nil => cases h
  | cons first rest ih =>
      cases rest with
      | nil =>
          obtain rfl := List.mem_singleton.mp h
          simpa using hr
      | cons next rest =>
          rw [join_cons_cons, List.mem_append, List.mem_append]
          rcases List.mem_cons.mp h with rfl | h
          · exact .inl (.inl hr)
          · exact .inr (ih h)

/-- Trimmed parts that are not empty make a trimmed text. -/
theorem trimmed_join (sep : Text) {parts : List Text} (hne : parts ≠ [])
    (hparts : ∀ part ∈ parts, Trimmed part ∧ part ≠ []) :
    Trimmed (join sep parts) ∧ join sep parts ≠ [] := by
  induction parts with
  | nil => exact absurd rfl hne
  | cons part rest ih =>
      obtain ⟨hpart, hpne⟩ := hparts part List.mem_cons_self
      cases rest with
      | nil => simpa using ⟨hpart, hpne⟩
      | cons next rest =>
          obtain ⟨hrest, hrne⟩ :=
            ih (by simp) fun p hp => hparts p (List.mem_cons_of_mem part hp)
          rw [join_cons_cons]
          exact ⟨hpart.surround hpne hrest hrne sep, by simp [hpne]⟩

/-- Joining with a blank separator puts the stripped parts side by side. -/
theorem strip_join {sep : Text} (hsep : strip sep = []) (parts : List Text) :
    strip (join sep parts) = strip parts.flatten := by
  induction parts with
  | nil => rfl
  | cons part rest ih =>
      cases rest with
      | nil => simp
      | cons next rest =>
          simp only [join_cons_cons, strip_append, hsep, ih, List.append_nil,
            List.flatten_cons]

/-! ## Words and collapsing -/

@[simp] theorem words_nil : words [] = [] := rfl

/-- A blank at the front belongs to no word. -/
theorem words_cons_of_blank {r : Glyph} (s : Text) (h : r.isBlank = true) :
    words (r :: s) = words s := by
  simp [words, List.splitOnP_cons_eq_if_modifyHead, h]

/-- A glyph that is not blank, before a blank or the end, is a word. -/
theorem words_cons_of_break {r : Glyph} {s : Text} (h : r.isBlank = false)
    (hs : ∀ a ∈ s.head?, a.isBlank = true) : words (r :: s) = [r] :: words s := by
  cases s with
  | nil => simp [words, List.splitOnP_cons_eq_if_modifyHead, h]
  | cons a s =>
      have ha : a.isBlank = true := hs a rfl
      simp [words, List.splitOnP_cons_eq_if_modifyHead, h, ha]

/-- A glyph that is not blank joins the word it stands before. -/
theorem words_cons_cons {r a : Glyph} (s : Text) (hr : r.isBlank = false)
    (ha : a.isBlank = false) :
    ∃ word rest, words (a :: s) = word :: rest ∧
      words (r :: a :: s) = (r :: word) :: rest := by
  obtain ⟨word, rest, hsplit⟩ :=
    List.exists_cons_of_ne_nil (List.splitOnP_ne_nil Glyph.isBlank s)
  refine ⟨a :: word, rest.filter (!·.isEmpty), ?_, ?_⟩ <;>
    simp [words, List.splitOnP_cons_eq_if_modifyHead, hr, ha, hsplit]

/-- One pass over a text that writes a space for each run of blanks between two
other glyphs; `gap` tells that blanks were passed just before. -/
def squeezeBlanks (gap : Bool) : Text → Text
  | [] => []
  | r :: s =>
    if r.isBlank then squeezeBlanks true s
    else if gap then .char ' ' :: r :: squeezeBlanks false s
    else r :: squeezeBlanks false s

/-- Collapsing a text that starts with a blank is collapsing the rest. -/
theorem collapse_cons_of_blank {r : Glyph} (s : Text) (h : r.isBlank = true) :
    collapse (r :: s) = collapse s := by
  rw [collapse, words_cons_of_blank s h, collapse]

/-- Leading blanks do not matter to the collapsed text. -/
theorem collapse_append_of_blank {w : Text} (hw : ∀ r ∈ w, r.isBlank = true)
    (s : Text) :
    collapse (w ++ s) = collapse s := by
  induction w with
  | nil => rfl
  | cons r w ih =>
      rw [List.cons_append, collapse_cons_of_blank _ (hw r List.mem_cons_self),
        ih (fun a ha => hw a (List.mem_cons_of_mem r ha))]

/-- The pass and the words of a text: the pass writes a space first when a gap
is open or the text starts with a blank, unless nothing follows. -/
theorem squeezeBlanks_eq (gap : Bool) (s : Text) :
    squeezeBlanks gap s =
      if (gap || s.head?.any Glyph.isBlank) && !(words s).isEmpty then .char ' ' :: collapse s
      else collapse s := by
  induction s generalizing gap with
  | nil => simp [squeezeBlanks, collapse]
  | cons r s ih =>
      cases hr : r.isBlank with
      | true =>
          simp [squeezeBlanks, hr, ih, words_cons_of_blank,
            collapse_cons_of_blank]
      | false =>
          -- what the pass writes behind `r` is what collapsing writes behind it
          have hrest : words (r :: s) ≠ [] ∧
            collapse (r :: s) = r :: squeezeBlanks false s := by
            rw [ih]
            by_cases hbreak : ∀ a ∈ s.head?, a.isBlank = true
            · rw [collapse, words_cons_of_break hr hbreak]
              cases hw : words s with
              | nil => simp [collapse, hw]
              | cons word rest =>
                  cases s with
                  | nil => simp at hw
                  | cons a s => simp [hbreak a rfl, join_cons_cons, collapse, hw]
            · obtain ⟨a, t, rfl, ha⟩ : ∃ a t, s = a :: t ∧ a.isBlank = false := by
                cases s with
                | nil => simp at hbreak
                | cons a t => exact ⟨a, t, rfl, by simpa using hbreak⟩
              obtain ⟨word, rest, htail, hw⟩ := words_cons_cons t hr ha
              rw [collapse, collapse, hw, htail]
              cases rest with
              | nil => simp [ha]
              | cons next rest => simp [ha, join_cons_cons]
          cases gap <;> simp [squeezeBlanks, hr, hrest.1, hrest.2]

/-- **Collapsing in one pass.**  Once leading blanks are dropped, the collapsed
text is what the pass writes. -/
theorem collapse_eq (s : Text) :
    collapse s = squeezeBlanks false (s.dropWhile Glyph.isBlank) := by
  induction s with
  | nil => rfl
  | cons r s ih =>
      cases hr : r.isBlank with
      | true =>
          rw [collapse_cons_of_blank s hr, ih, List.dropWhile_cons_of_pos hr]
      | false => simp [squeezeBlanks_eq, hr]

/-- Blanks at the end do not matter to the pass. -/
theorem squeezeBlanks_append_of_blank (gap : Bool) (s : Text) {w : Text}
    (hw : ∀ r ∈ w, r.isBlank = true) : squeezeBlanks gap (s ++ w) = squeezeBlanks gap s := by
  induction s generalizing gap with
  | nil =>
      induction w generalizing gap with
      | nil => rfl
      | cons r w ih =>
          have hr := hw r List.mem_cons_self
          simpa [squeezeBlanks, hr] using ih
            (fun a ha => hw a (List.mem_cons_of_mem r ha)) true
  | cons r s ih => simp [squeezeBlanks, ih]

/-- Blanks at the end do not matter to the collapsed text. -/
theorem collapse_append_blank (s : Text) {w : Text}
    (hw : ∀ r ∈ w, r.isBlank = true) :
    collapse (s ++ w) = collapse s := by
  induction s with
  | nil => simpa using collapse_append_of_blank hw []
  | cons r s ih =>
      cases hr : r.isBlank with
      | true =>
          rw [List.cons_append, collapse_cons_of_blank _ hr, ih,
            collapse_cons_of_blank _ hr]
      | false =>
          have hdrop : ∀ u : Text, (r :: u).dropWhile Glyph.isBlank = r :: u := fun u =>
            List.dropWhile_cons_of_neg (by simp [hr])
          rw [List.cons_append, collapse_eq, collapse_eq, hdrop, hdrop,
            ← List.cons_append,
            squeezeBlanks_append_of_blank false _ hw]

/-- Blanks at the ends do not matter to the collapsed text. -/
theorem collapse_trim (s : Text) : collapse (trim s) = collapse s := by
  obtain ⟨a, b, hs, ha, hb⟩ := trim_spec s
  conv => rhs; rw [hs, collapse_append_blank _ hb, collapse_append_of_blank ha]

/-- Collapsing a trimmed text is one pass over it. -/
theorem Trimmed.collapse_eq {s : Text} (h : Trimmed s) :
    collapse s = squeezeBlanks false s := by
  rw [Text.collapse_eq]
  cases s with
  | nil => rfl
  | cons r s => rw [List.dropWhile_cons_of_neg (by simp [h.head r rfl])]

/-- The pass changes nothing the second time. -/
theorem squeezeBlanks_squeezeBlanks (gap : Bool) (s : Text) :
    squeezeBlanks false (squeezeBlanks gap s) = squeezeBlanks gap s := by
  induction s generalizing gap with
  | nil => rfl
  | cons r s ih =>
      cases hr : r.isBlank with
      | true => simp [squeezeBlanks, hr, ih]
      | false => cases gap <;> simp [squeezeBlanks, hr, ih]

/-- The pass ends in a glyph that is not blank. -/
theorem last_squeezeBlanks (gap : Bool) (s : Text) :
    ∀ r ∈ (squeezeBlanks gap s).getLast?, r.isBlank = false := by
  induction s generalizing gap with
  | nil => simp [squeezeBlanks]
  | cons a s ih =>
      cases ha : a.isBlank with
      | true => simpa [squeezeBlanks, ha] using ih true
      | false =>
          have hrest : ∀ r ∈ (a :: squeezeBlanks false s).getLast?, r.isBlank = false := by
            intro r hr
            rw [List.getLast?_cons] at hr
            cases hlast : (squeezeBlanks false s).getLast? with
            | none =>
                obtain rfl : a = r := by simpa [hlast] using hr
                exact ha
            | some b =>
                obtain rfl : b = r := by simpa [hlast] using hr
                exact ih false b hlast
          cases gap with
          | true => simpa [squeezeBlanks, ha, List.getLast?_cons_cons] using hrest
          | false => simpa [squeezeBlanks, ha] using hrest

/-- Collapsed text is trimmed. -/
theorem trimmed_collapse (s : Text) : Trimmed (collapse s) where
  head := by
    have hcore := trimmed_trim s
    rw [← collapse_trim, hcore.collapse_eq]
    cases hs : trim s with
    | nil => simp [squeezeBlanks]
    | cons r t =>
        have hr : r.isBlank = false := hcore.head r (by rw [hs]; rfl)
        simp [squeezeBlanks, hr]
  last := by
    rw [Text.collapse_eq]
    exact last_squeezeBlanks false _

/-- Collapsing twice is collapsing once. -/
@[simp] theorem collapse_collapse (s : Text) : collapse (collapse s) = collapse s := by
  rw [(trimmed_collapse s).collapse_eq, Text.collapse_eq s,
    squeezeBlanks_squeezeBlanks]

/-- The pass writes blanks only. -/
theorem strip_squeezeBlanks (gap : Bool) (s : Text) :
    strip (squeezeBlanks gap s) = strip s := by
  induction s generalizing gap with
  | nil => rfl
  | cons r s ih =>
      cases hr : r.isBlank with
      | true => simp [squeezeBlanks, hr, ih, strip_cons_of_blank]
      | false => cases gap <;> simp [squeezeBlanks, hr, ih, strip_cons_of_ink]

/-- Collapsing changes nothing but blanks. -/
@[simp] theorem strip_collapse (s : Text) : strip (collapse s) = strip s := by
  rw [collapse_eq, strip_squeezeBlanks, strip_dropWhile (fun _ h => h)]

end Text

end TemplateFormat
