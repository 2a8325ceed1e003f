import TemplateFormat.Proofs.Pieces

/-!
# The pieces of every source

Plain text between two marked pieces is collected glyph by glyph.  Two facts
about this carry everything that is said later about reading a text again.

* `splitFrom_plain` — text in which no marker occurs, and none can arise where
  it meets what follows (`Meets`), is collected as a whole;
* `sound_split` — the pieces of every source are **sound**: texts are plain and
  never stand side by side, and marked pieces are closed, the last one aside.
-/

namespace TemplateFormat.Markup.Lexeme

/-! ## Places without a marker -/

/-- No marker is empty. -/
theorem markers_ne_nil : ∀ m ∈ markers, m ≠ [] := by
  decide

/-- Of the markers only the one that opens an interpolation goes on with `{`,
and none holds a `>`. -/
theorem markers_brace : ∀ m ∈ markers, .char '>' ∉ m ∧
    (.char '\x7b' ∈ m.tail → m = [.char '\x7b', .char '\x7b']) := by
  decide

/-- No piece starts where no marker stands. -/
theorem marked?_eq_none {r : Glyph} {s : Text} (prev : Option Glyph)
    (h : ∀ m ∈ markers, ¬m <+: r :: s) : marked? prev r s = none := by
  cases hmark : marked? prev r s with
  | none => rfl
  | some piece =>
      exfalso
      rcases marked?_cases hmark with ⟨u, rfl, rfl, -⟩ | ⟨u, rfl, rfl, -⟩ | ⟨word,
        rfl, hword, -⟩ |
        ⟨rfl, -⟩ | ⟨u, rfl, -⟩ | ⟨rfl, -⟩
      · exact h interpolationOpen (by decide) ⟨u, rfl⟩
      · exact h blockClose (by decide) ⟨u, rfl⟩
      · obtain ⟨hmem, hlead⟩ := keyword?_eq_some hword
        refine h (.char '@' :: word) ?_ (List.cons_prefix_cons.mpr ⟨rfl, hlead⟩)
        exact List.mem_append_right _ (List.mem_map_of_mem hmem)
      · exact h (text "\x7d") (by decide) ⟨s, rfl⟩
      · exact h (text "<") (by decide) ⟨s, rfl⟩
      · exact h (text "<") (by decide) ⟨s, rfl⟩

/-- Where no piece starts there is no marker; a `}` behind `@` is set aside. -/
theorem not_prefix_of_marked? {prev : Option Glyph} {r : Glyph} {s : Text}
    (h : marked? prev r s = none)
    (hprev : r = .char '\x7d' → prev ≠ some (.char '@')) :
    ∀ m ∈ markers, ¬m <+: r :: s := by
  intro m hm hlead
  simp only [markers, List.mem_append, List.mem_cons, List.not_mem_nil, or_false,
    List.mem_map] at hm
  rcases hm with (rfl | rfl | rfl | rfl) | ⟨word, hword, rfl⟩
  · obtain ⟨u, hu⟩ := hlead
    obtain ⟨rfl, rfl⟩ : .char '\x7b' = r ∧ .char '\x7b' :: u = s := by
      simpa [interpolationOpen, text] using hu
    simp [marked?_interpolation] at h
  · obtain ⟨u, hu⟩ := hlead
    obtain ⟨rfl, rfl⟩ : .char '@' = r ∧ .char '\x7d' :: u = s := by
      simpa [blockClose, text] using hu
    simp [marked?, interpolationOpen, blockClose, text] at h
  · obtain rfl : .char '\x7d' = r := (List.cons_prefix_cons.mp hlead).1
    simp [marked?, interpolationOpen, text, hprev rfl] at h
  · obtain rfl : .char '<' = r := (List.cons_prefix_cons.mp hlead).1
    by_cases hopen : text "!--" <+: s
    · obtain ⟨u, rfl⟩ := hopen
      simp [marked?_comment] at h
    · simp [marked?_tag prev hopen] at h
  · obtain ⟨rfl, hword'⟩ := List.cons_prefix_cons.mp hlead
    have hsome : (keyword? s).isSome = true :=
      List.find?_isSome.mpr ⟨word, hword, List.isPrefixOf_iff_prefix.mpr hword'⟩
    obtain ⟨found, hfound⟩ := Option.isSome_iff_exists.mp hsome
    simp [marked?_header hfound] at h

/-- A blank starts no piece. -/
theorem marked?_blank {r : Glyph} (hr : r.isBlank = true) (prev : Option Glyph)
    (s : Text) :
    marked? prev r s = none := by
  have hhead : ∀ m ∈ markers, ∀ a ∈ m.head?, a.isBlank = false := by decide
  refine marked?_eq_none prev fun m hm hlead => ?_
  cases m with
  | nil => exact absurd rfl (markers_ne_nil _ hm)
  | cons a m =>
      obtain ⟨rfl, -⟩ := List.cons_prefix_cons.mp hlead
      have := hhead _ hm a rfl
      simp [hr] at this

/-! ## Plain text and what follows it -/

/-- No marker arises where the two texts meet: the second starts with a blank
or a `<`, or the first ends in `>`, or a `{` meets no other. -/
def Meets (s t : Text) : Prop :=
  ∀ r ∈ t.head?, r.isBlank = true ∨ r = .char '<' ∨ s.getLast? = some (.char '>') ∨
    (r = .char '\x7b' ∧ s.getLast? ≠ some (.char '\x7b'))

/-- Plain text stays without markers before what it meets. -/
theorem not_prefix_of_meets {s t : Text} (hne : s ≠ []) (hs : Plain s)
    (hmeet : Meets s t) :
    ∀ m ∈ markers, ¬m <+: s ++ t := by
  intro m hm hlead
  rcases List.prefix_or_prefix_of_prefix hlead
    (List.prefix_append s t) with hp | ⟨c, rfl⟩
  · exact hs m hm hp.isInfix
  · cases c with
    | nil => exact hs _ hm ⟨[], [], by simp⟩
    | cons r c =>
        -- the first glyph behind `s` stands inside the marker
        have ht : t.head? = some r := by
          obtain ⟨rest, hrest⟩ := hlead
          rw [List.append_assoc] at hrest
          rw [← List.append_cancel_left hrest]
          rfl
        have hr : r ∈ (s ++ r :: c).tail := by
          obtain ⟨a, s, rfl⟩ := List.exists_cons_of_ne_nil hne
          simp
        have htail := markers_tail _ hm r hr
        rcases hmeet r ht with hblank | hopen | hlast | ⟨hbrace, hlast⟩
        · simp [htail.1] at hblank
        · exact htail.2 hopen
        · exact (markers_brace _ hm).1
            (List.mem_append_left _ (List.mem_of_getLast? hlast))
        · subst hbrace
          have heq := (markers_brace _ hm).2 hr
          cases s with
          | nil => exact hne rfl
          | cons a s =>
              cases s with
              | nil =>
                  obtain ⟨rfl, -⟩ : a = .char '\x7b' ∧ c = [] := by
                    simpa using heq
                  exact hlast rfl
              | cons b s => simp at heq

/-- **Plain text is collected as a whole**, up to what it meets. -/
theorem splitFrom_plain {s t : Text} (hs : Plain s) (hmeet : s ≠ [] → Meets s t)
    (prev : Option Glyph) (pending : Text) :
    splitFrom 0 prev pending (s ++ t) =
      splitFrom 0 (s.getLast?.or prev) (s.reverse ++ pending) t := by
  induction s generalizing prev pending with
  | nil => rfl
  | cons r s ih =>
      have hnone : marked? prev r (s ++ t) = none :=
        marked?_eq_none prev (not_prefix_of_meets (by simp) hs (hmeet (by simp)))
      have htail : Plain s :=
        fun m hm h => hs m hm (h.trans (List.suffix_cons r s).isInfix)
      have hmeet' : s ≠ [] → Meets s t := by
        intro hne a ha
        have := hmeet (by simp) a ha
        rwa [List.getLast?_cons_of_ne_nil hne] at this
      rw [List.cons_append, splitFrom_of_plain pending hnone, ih htail hmeet']
      cases hlast : s.getLast? with
      | none => simp [List.getLast?_eq_none_iff.mp hlast]
      | some a =>
          have hne : s ≠ [] := by rintro rfl; cases hlast
          simp [List.getLast?_cons_of_ne_nil hne, hlast]

/-! ## Sound pieces -/

/-- Pieces as they are cut from a source: plain texts, none next to another,
and closed pieces, of which the last may be running instead. -/
inductive Sound : List Lexeme → Prop
  | nil : Sound []
  | text {s : Text} {rest : List Lexeme} (hs : Plain s)
      (hnext : ∀ lexeme ∈ rest.head?, lexeme.kind ≠ .text) (tail : Sound rest) :
      Sound (⟨.text, s⟩ :: rest)
  | closed {kind : Kind} {raw : Text} {rest : List Lexeme} (h : Closed kind raw)
      (tail : Sound rest) : Sound (⟨kind, raw⟩ :: rest)
  | running {kind : Kind} {raw : Text} (h : Running kind raw) :
      Sound [⟨kind, raw⟩]

/-- No marker starts in the text collected so far, which is in reverse, where
it stands before `s`. -/
def Unmarked (pending s : Text) : Prop :=
  ∀ m ∈ markers, ∀ u, u <:+ pending.reverse → u ≠ [] → ¬m <+: u ++ s

/-- Text collected without a marker is plain. -/
theorem Unmarked.plain {pending s : Text} (h : Unmarked pending s) :
    Plain pending.reverse := by
  rintro m hm ⟨a, b, hab⟩
  refine h m hm (m ++ b) ⟨a, by rw [← hab, List.append_assoc]⟩ ?_
    ((List.prefix_append m b).trans (List.prefix_append _ s))
  intro hnil
  exact markers_ne_nil m hm (List.append_eq_nil_iff.mp hnil).1

/-- One more glyph at which no marker starts. -/
theorem Unmarked.cons {pending s : Text} {r : Glyph}
    (h : Unmarked pending (r :: s))
    (hr : ∀ m ∈ markers, ¬m <+: r :: s) : Unmarked (r :: pending) s := by
  intro m hm u hu hne
  rw [List.reverse_cons] at hu
  rcases List.eq_nil_or_concat u with rfl | ⟨v, a, rfl⟩
  · exact absurd rfl hne
  · rw [List.concat_eq_append] at hu ⊢
    obtain ⟨hv, rfl⟩ : v <:+ pending.reverse ∧ a = r := by
      obtain ⟨w, hw⟩ := hu
      rw [← List.append_assoc] at hw
      obtain ⟨hw, ha⟩ := List.append_inj' hw rfl
      exact ⟨⟨w, hw⟩, by simpa using ha⟩
    rw [List.append_assoc]
    by_cases hnil : v = []
    · rw [hnil]
      exact hr m hm
    · exact h m hm v hv hnil

/-- Text collected before sound pieces that start with no text keeps them
sound. -/
theorem sound_ofPending {pending s : Text} {rest : List Lexeme}
    (h : Unmarked pending s)
    (hnext : ∀ lexeme ∈ rest.head?, lexeme.kind ≠ .text) (hrest : Sound rest) :
    Sound (ofPending pending ++ rest) := by
  rw [ofPending]
  split
  · exact hrest
  · exact .text h.plain hnext hrest

/-- The walk over a source keeps its pieces sound.  A `}` that would be hidden
by an `@` does not occur: the two would have been cut as the end of a block. -/
theorem sound_splitFrom {prev : Option Glyph} {pending s : Text}
    (h : Unmarked pending s)
    (hprev : prev = some (.char '@') → s.head? ≠ some (.char '\x7d')) :
    Sound (splitFrom 0 prev pending s) := by
  induction hn : s.length using Nat.strongRecOn generalizing prev pending s with
  | ind n ih =>
      cases s with
      | nil =>
          have hlast : Sound (ofPending pending ++ []) :=
            sound_ofPending h (by simp) .nil
          simpa [splitFrom] using hlast
      | cons r s =>
          cases hmark : marked? prev r s with
          | none =>
              have hbrace : r = .char '\x7d' → prev ≠ some (.char '@') := by
                rintro rfl hat
                exact hprev hat rfl
              have hfree := not_prefix_of_marked? hmark hbrace
              rw [splitFrom_of_plain pending hmark]
              refine ih s.length (by simp at hn; omega) (h.cons hfree) ?_ rfl
              intro hat hhead
              obtain rfl : r = .char '@' := by simpa using hat
              obtain ⟨u, rfl⟩ : ∃ u, s = .char '\x7d' :: u := by
                cases s with
                | nil => cases hhead
                | cons a s => exact ⟨s, by simpa using hhead⟩
              exact hfree blockClose (by decide) ⟨u, rfl⟩
          | some piece =>
              obtain ⟨kind, len⟩ := piece
              obtain ⟨body, rest, rfl, rfl⟩ := marked?_piece hmark
              rw [splitFrom_of_marked pending hmark]
              rcases closed_or_running hmark with ⟨hclosed, -⟩ | ⟨rfl, hrunning⟩
              · refine sound_ofPending h (by simpa using hclosed.kind_ne_text)
                  (.closed hclosed ?_)
                refine ih rest.length (by simp at hn; omega) ?_ ?_ rfl
                · intro m hm u hu hne
                  exact absurd (List.suffix_nil.mp hu) hne
                · obtain ⟨front, last, hraw, hlast⟩ := hclosed.last
                  intro hat
                  rw [hraw, List.getLast?_concat, Option.some.injEq] at hat
                  subst hat
                  exact absurd hlast (by decide)
              · refine sound_ofPending h (by simpa using hrunning.kind_ne_text) ?_
                simpa [splitFrom, ofPending] using Sound.running hrunning

/-- **The pieces of every source are sound.** -/
theorem sound_split (source : Text) : Sound (split source) := by
  refine sound_splitFrom (fun m hm u hu hne => ?_) (by simp)
  exact absurd (List.suffix_nil.mp hu) hne

end TemplateFormat.Markup.Lexeme
