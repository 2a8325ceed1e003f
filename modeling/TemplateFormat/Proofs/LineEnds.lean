import TemplateFormat.Proofs.Steps

/-!
# The white space of a layout

A layout holds the glyphs of its tokens and, besides these, spaces, tabs and
newlines only.  So it has no carriage return, and unifying its line ends changes
nothing: a second pass starts from what the first has written.

* `Interpolation.mem_normalize` — rewriting an interpolation adds spaces only;
* `mem_flatten` — a flattened line has no blanks but spaces;
* `mem_print` — where the glyphs of a layout come from;
* `return_notMem_layout`, `unifyLineEnds_layout` — the line ends of a layout are unified.
-/

namespace TemplateFormat.Text

/-- Squeezing writes no blanks but spaces. -/
theorem mem_squeezeBlanks {gap : Bool} {s : Text} {r : Glyph}
    (h : r ∈ squeezeBlanks gap s) :
    r = .char ' ' ∨ (r ∈ s ∧ r.isBlank = false) := by
  induction s generalizing gap with
  | nil => cases h
  | cons a s ih =>
      have hlater : ∀ {gap : Bool}, r ∈ squeezeBlanks gap s →
          r = .char ' ' ∨ (r ∈ a :: s ∧ r.isBlank = false) := by
        intro gap h
        exact (ih h).imp_right fun ⟨hmem, hink⟩ =>
          ⟨List.mem_cons_of_mem a hmem, hink⟩
      rw [squeezeBlanks] at h
      split at h
      · exact hlater h
      · next hblank =>
          have hhere : r = a → r = .char ' ' ∨ (r ∈ a :: s ∧ r.isBlank = false) := by
            rintro rfl
            exact .inr ⟨List.mem_cons_self, by simpa using hblank⟩
          split at h
          · rcases List.mem_cons.mp h with rfl | h
            · exact .inl rfl
            · exact (List.mem_cons.mp h).elim hhere hlater
          · exact (List.mem_cons.mp h).elim hhere hlater

/-- Collapsing writes no blanks but spaces. -/
theorem mem_collapse {s : Text} {r : Glyph} (h : r ∈ collapse s) :
    r = .char ' ' ∨ (r ∈ s ∧ r.isBlank = false) := by
  rw [collapse_eq] at h
  exact (mem_squeezeBlanks h).imp_right fun ⟨hmem, hink⟩ =>
    ⟨(List.dropWhile_sublist _).subset hmem, hink⟩

/-- Trimming adds nothing. -/
theorem mem_of_mem_trim {s : Text} {r : Glyph} (h : r ∈ trim s) : r ∈ s := by
  obtain ⟨a, b, hs, -, -⟩ := trim_spec s
  rw [hs]
  simp [h]

end TemplateFormat.Text

namespace TemplateFormat.Markup

open Text

/-! ## Literals -/

/-- Squeezing a tag adds spaces only. -/
theorem Tag.mem_squeeze {prev : Option Glyph} {q : Quote} {gap : Bool} {s : Text} {r : Glyph}
    (h : r ∈ Tag.squeeze prev q gap s) : r = .char ' ' ∨ r ∈ s := by
  induction s generalizing prev q gap with
  | nil => cases h
  | cons a s ih =>
      rw [Tag.squeeze] at h
      split at h
      · exact (ih h).imp_right (List.mem_cons_of_mem a)
      · split at h
        · rcases List.mem_cons.mp h with rfl | h
          · exact .inl rfl
          · rcases List.mem_cons.mp h with rfl | h
            · exact .inr List.mem_cons_self
            · exact (ih h).imp_right (List.mem_cons_of_mem a)
        · rcases List.mem_cons.mp h with rfl | h
          · exact .inr List.mem_cons_self
          · exact (ih h).imp_right (List.mem_cons_of_mem a)

/-- The normal form of a tag adds spaces only. -/
theorem Tag.mem_normalize {raw : Text} {r : Glyph} (h : r ∈ Tag.normalize raw) :
    r = .char ' ' ∨ r ∈ raw := by
  rw [Tag.normalize] at h
  refine @Tag.mem_squeeze none .outside false raw r ?_
  generalize Tag.squeeze none .outside false raw = s at h ⊢
  by_cases hend : s.endsWith (text " >") = true
  · obtain ⟨body, rfl⟩ := List.isSuffixOf_iff_suffix.mp hend
    have hspaced : text " >" = [.char ' ', .char '>'] := rfl
    rw [hspaced] at h ⊢
    rw [Tag.closeUp_spaced] at h
    rcases List.mem_append.mp h with h | h
    · exact List.mem_append_left _ h
    · rw [List.mem_singleton.mp h]
      simp
  · rwa [Tag.closeUp, if_neg hend] at h

/-- What is read off a piece adds spaces only. -/
theorem Lexeme.mem_reading {lexeme : Lexeme} {kind : Token.Kind} {literal : Text}
    (h : lexeme.reading = some (kind, literal)) {r : Glyph} (hr : r ∈ literal) :
    r = .char ' ' ∨ r ∈ lexeme.raw := by
  have hcollapse : ∀ {s : Text}, r ∈ s.collapse → r = .char ' ' ∨ r ∈ s :=
    fun h => (mem_collapse h).imp_right And.left
  rcases lexeme with ⟨lexemeKind, raw⟩
  cases lexemeKind with
  | text =>
      simp only [Lexeme.reading] at h
      split at h
      · cases h
      · cases h
        exact hcollapse hr
  | header word =>
      cases h
      exact hcollapse hr
  | tag =>
      cases h
      exact Tag.mem_normalize hr
  | _ =>
      cases h
      exact .inr hr

/-- The literals of a source add spaces only. -/
theorem Token.mem_literal {source : Text} {tok : Token}
    (htok : tok ∈ Token.scan source) {r : Glyph}
    (hr : r ∈ tok.literal) : r = .char ' ' ∨ r ∈ source := by
  have hmem : (tok.kind, tok.literal) ∈ Token.outline (Token.scan source) :=
    List.mem_map_of_mem (f := fun tok : Token => (tok.kind, tok.literal)) htok
  rw [Token.outline_scan] at hmem
  obtain ⟨lexeme, hlexeme, hread⟩ := List.mem_filterMap.mp hmem
  refine (Lexeme.mem_reading hread hr).imp_right fun hraw => ?_
  rw [← Lexeme.split_raws source]
  exact List.mem_flatMap.mpr ⟨lexeme, hlexeme, hraw⟩

end TemplateFormat.Markup

namespace TemplateFormat.Layout

open Text Markup

/-! ## Rewritten interpolations -/

namespace Interpolation

/-- Collapsing an expression adds spaces only. -/
theorem mem_collapseFrom {prev : Option Glyph} {q : Quote} {gap : Bool} {seen s : Text}
    {r : Glyph} (h : r ∈ collapseFrom prev q gap seen s) :
    r = .char ' ' ∨ r ∈ seen ∨ r ∈ s := by
  induction s generalizing prev q gap seen with
  | nil => exact .inr (.inl (List.mem_reverse.mp h))
  | cons a s ih =>
      rw [collapseFrom] at h
      split at h
      · rcases ih h with h | h | h
        · exact .inl h
        · exact .inr (.inl h)
        · exact .inr (.inr (List.mem_cons_of_mem a h))
      · rcases ih h with h | h | h
        · exact .inl h
        · split at h
          · rcases List.mem_cons.mp h with rfl | h
            · exact .inr (.inr List.mem_cons_self)
            · exact (List.mem_cons.mp h).imp_right .inl
          · rcases List.mem_cons.mp h with rfl | h
            · exact .inr (.inr List.mem_cons_self)
            · exact .inr (.inl h)
        · exact .inr (.inr (List.mem_cons_of_mem a h))

/-- Spacing the segments of a pipe adds the separator only. -/
theorem mem_splitPipes {expr : Text} {r : Glyph} (h : r ∈ splitPipes expr) :
    r ∈ text " | " ∨ r ∈ expr := by
  rw [splitPipes] at h
  split at h
  · exact .inr h
  · refine (mem_join h).imp_right ?_
    rintro ⟨part, hpart, hr⟩
    obtain ⟨segment, hsegment, rfl⟩ := List.mem_map.mp hpart
    have hjoin := mem_join_of_mem [.char '|'] hsegment (mem_of_mem_trim hr)
    rwa [join_pipeSegments] at hjoin

/-- Spacing operators adds spaces only. -/
theorem mem_spaceFrom {skip : Nat} {closeUp : Bool} {prev : Option Glyph} {q : Quote}
    {seen s : Text} {r : Glyph} (h : r ∈ spaceFrom skip closeUp prev q seen s) :
    r = .char ' ' ∨ r ∈ seen ∨ r ∈ s := by
  fun_induction spaceFrom skip closeUp prev q seen s with
  | case1 => exact .inr (.inl (List.mem_reverse.mp h))
  | case2 skip closeUp prev q seen a s ih => grind
  | case3 closeUp prev q seen a s hspace ih => grind
  | case4 closeUp prev q seen a s hspace q' hq ih => grind
  | case5 closeUp prev q seen a s hspace q' hq op hop ih =>
      obtain ⟨body, rest, rfl, rfl⟩ := compoundAt?_eq_some hop
      have hseen : r ∈ seen.dropWhile (· == .char ' ') → r ∈ seen :=
        fun hr => (List.dropWhile_sublist _).subset hr
      grind
  | case6 closeUp prev q seen a s hspace q' hq hop hsingle ih => grind
  | case7 closeUp prev q seen a s hspace q' hq hop hsingle ih => grind

/-- The three passes over an expression add spaces and pipe characters only. -/
theorem mem_passes {expr : Text} {r : Glyph}
    (h : r ∈ spaceOperators (splitPipes (collapseOutside expr))) :
    r ∈ text " | " ∨ r ∈ expr := by
  rcases mem_spaceFrom h with rfl | h | h
  · exact .inl (by decide)
  · cases h
  · rcases mem_splitPipes h with h | h
    · exact .inl h
    · rcases mem_collapseFrom h with rfl | h | h
      · exact .inl (by decide)
      · cases h
      · exact .inr h

/-- **Rewriting an interpolation** adds spaces only. -/
theorem mem_normalize {literal : Text} {r : Glyph} (h : r ∈ normalize literal) :
    r = .char ' ' ∨ r ∈ literal := by
  cases hblank : r.isBlank with
  | false =>
      -- what is not blank is not added at all
      have hstrip : r ∈ strip (normalize literal) := List.mem_filter.mpr ⟨h, by simp [hblank]⟩
      rw [strip_normalize] at hstrip
      exact .inr (List.mem_filter.mp hstrip).1
  | true =>
      unfold normalize at h
      cases hexpr : inner? literal with
      | none => exact .inr (by simpa [hexpr] using h)
      | some expr =>
          have hmarkers : r ∉ interpolationOpen ∧ r ∉ interpolationClose := by
            constructor <;> rintro hr <;> rw [List.eq_of_mem_replicate (n := 2) hr] at hblank <;>
              cases hblank
          have hspace : ∀ s ∈ [text " ", text "  "], r ∈ s → r = .char ' ' := by simp [text]
          have hparts : r = .char ' ' ∨
              r ∈ spaceOperators (splitPipes (collapseOutside expr.trim)) := by
            simp only [hexpr] at h
            split at h
            · simp only [List.mem_append, hmarkers, false_or, or_false] at h
              exact .inl (hspace _ (by simp) h)
            · simp only [List.mem_append, hmarkers, false_or, or_false] at h
              rcases h with (h | h) | h
              · exact .inl (hspace _ (by simp) h)
              · exact .inr (mem_of_mem_trim h)
              · exact .inl (hspace _ (by simp) h)
          refine hparts.elim .inl fun h => ?_
          rcases mem_passes h with hpipe | hmem
          · -- of the separator only the spaces are blank
            have hcases : r = .char ' ' ∨ r = .char '|' ∨ r = .char ' ' := by
              simpa [text] using hpipe
            exact .inl (hcases.elim id (·.resolve_left (by rintro rfl; cases hblank)))
          · rw [eq_of_inner? hexpr]
            exact .inr (by simp [mem_of_mem_trim hmem])

end Interpolation

/-- What is written for a token adds spaces only to its literal. -/
theorem mem_renderInline {tok : Token} {r : Glyph} (h : r ∈ renderInline tok) :
    r = .char ' ' ∨ r ∈ tok.literal := by
  unfold renderInline at h
  split at h
  · exact Interpolation.mem_normalize h
  · exact .inr h

/-! ## Flattened lines -/

theorem closeTagGaps_sublist (skipping : Bool) (s : Text) :
    (closeTagGaps skipping s).Sublist s := by
  induction s generalizing skipping with
  | nil => exact List.Sublist.slnil
  | cons r s ih =>
      rw [closeTagGaps]
      split
      · exact (ih _).cons r
      · exact (ih _).cons_cons r

theorem tightenOpenings_sublist (copy : Nat) (skipping : Bool) (s : Text) :
    (tightenOpenings copy skipping s).Sublist s := by
  induction s generalizing copy skipping with
  | nil => simp [tightenOpenings]
  | cons r s ih =>
      cases copy with
      | succ copy => exact (ih _ _).cons_cons r
      | zero =>
          rw [tightenOpenings]
          split
          · exact (ih _ _).cons r
          · split
            · split <;> exact (ih _ _).cons_cons r
            · exact (ih _ _).cons_cons r

theorem tightenClosings_sublist (s : Text) : (tightenClosings s).Sublist s := by
  induction s with
  | nil => exact List.Sublist.slnil
  | cons r s ih =>
      rw [tightenClosings]
      split
      · exact ih.cons r
      · exact ih.cons_cons r

/-- **A flattened line** holds the glyphs of its tokens, but no blanks other than
spaces. -/
theorem mem_flatten {tokens : List Token} {r : Glyph} (h : r ∈ flatten tokens) :
    r = .char ' ' ∨ (r.isBlank = false ∧ ∃ tok ∈ tokens, r ∈ renderInline tok) := by
  have hline : r ∈ collapse (join [.char ' '] (tokens.map renderInline)) :=
    (closeTagGaps_sublist _ _).subset
      ((tightenOpenings_sublist _ _ _).subset
        ((tightenClosings_sublist _).subset h))
  rcases mem_collapse hline with hspace | ⟨hmem, hink⟩
  · exact .inl hspace
  · rcases mem_join hmem with hsep | ⟨part, hpart, hr⟩
    · exact .inl (List.mem_singleton.mp hsep)
    · obtain ⟨tok, htok, rfl⟩ := List.mem_map.mp hpart
      exact .inr ⟨hink, tok, htok, hr⟩

/-- A flattened line is one line. -/
theorem newline_notMem_flatten (tokens : List Token) : .char '\n' ∉ flatten tokens := by
  intro h
  rcases mem_flatten h with hspace | ⟨hink, -⟩
  · cases hspace
  · cases hink

/-! ## Layouts -/

/-- The glyphs of a merged element are those of its tokens, and spaces. -/
theorem Merges.mem_line {tok : Token} {after : List Token} {merged : Merged}
    (h : Merges tok after merged) (hstart : tok.isStartTag = true) {r : Glyph}
    (hr : r ∈ merged.line) : r = .char ' ' ∨ ∃ t ∈ tok :: after, r ∈ renderInline t := by
  cases h with
  | @content parts rest closing content hparts hclosing hcontent =>
      have htok :=
        Printer.renderInline_of_tag (Printer.isTag_of_isStartTag hstart)
      have hend :=
        Printer.renderInline_of_tag (Printer.isTag_of_isClosingTag hclosing)
      rcases List.mem_append.mp hr with hr | hr
      · rcases List.mem_append.mp hr with hr | hr
        · exact .inr ⟨tok, List.mem_cons_self, by rwa [htok]⟩
        · have hmem : r ∈ content := mem_of_mem_trim hr
          have hpart : r = .char ' ' ∨ ∃ part ∈ parts, r ∈ renderInline part := by
            rcases hcontent with rfl | rfl
            · cases parts with
              | nil => cases hmem
              | cons first rest =>
                  rw [joinAsWritten, List.mem_append, List.mem_flatMap] at hmem
                  rcases hmem with hmem | ⟨part, hpart, hmem⟩
                  · exact .inr ⟨first, List.mem_cons_self, hmem⟩
                  · split at hmem
                    · rcases List.mem_cons.mp hmem with rfl | hmem
                      · exact .inl rfl
                      · exact .inr ⟨part, List.mem_cons_of_mem _ hpart, hmem⟩
                    · exact .inr ⟨part, List.mem_cons_of_mem _ hpart, hmem⟩
            · rcases mem_join hmem with hsep | ⟨part, hpart, hr⟩
              · exact .inl (List.mem_singleton.mp hsep)
              · obtain ⟨t, ht, rfl⟩ := List.mem_map.mp hpart
                exact .inr ⟨t, ht, hr⟩
          rcases hpart with hspace | ⟨part, hpart, hr⟩
          · exact .inl hspace
          · exact .inr ⟨part, by simp [hpart], hr⟩
      · exact .inr ⟨closing, by simp, by rwa [hend]⟩
  | @tight inner rest closing hclosing =>
      rcases mem_flatten hr with hspace | ⟨-, t, ht, hr⟩
      · exact .inl hspace
      · refine .inr ⟨t, ?_, hr⟩
        have hfront : tok :: (inner ++ [closing]) <+: tok :: (inner ++
          closing :: rest) :=
          ⟨rest, by simp⟩
        exact hfront.subset ht

namespace Printer

/-- The blanks that a layout puts between its tokens. -/
def spacing : Text := [.char ' ', .char '\t', .char '\n']

/-- A line break is made of such blanks. -/
theorem lineBreak_spacing (p : Printer) (st : State) : ∀ r ∈ p.lineBreak st, r ∈ spacing := by
  intro r hr
  rcases List.mem_append.mp hr with hr | hr
  · split at hr
    · cases hr
    · rw [List.mem_singleton.mp hr]
      decide
  · obtain ⟨unit, hunit, hr⟩ := List.mem_flatten.mp hr
    rw [List.eq_of_mem_replicate hunit, Options.unit] at hr
    split at hr
    · rw [List.eq_of_mem_replicate hr]
      decide
    · rw [List.mem_singleton.mp hr]
      decide

/-- A token written alone adds its own glyphs and such blanks. -/
theorem mem_alone (p : Printer) (st : State) (before : List Token) (tok : Token) {r : Glyph}
    (hr : r ∈ (p.alone st before tok).written) :
    r ∈ st.written ∨ r ∈ spacing ∨ r ∈ renderInline tok := by
  have hparts : ∀ {gap : Text}, (∀ r ∈ gap, r ∈ spacing) →
      (p.alone st before tok).written = st.written ++ gap ++ renderInline tok →
      r ∈ st.written ∨ r ∈ spacing ∨ r ∈ renderInline tok := by
    intro gap hgap hwritten
    rw [hwritten, List.mem_append, List.mem_append] at hr
    rcases hr with (hr | hr) | hr
    · exact .inl hr
    · exact .inr (.inl (hgap r hr))
    · exact .inr (.inr hr)
  by_cases htrailing : tok.kind = .text ∧ p.isTrailing st before = true
  · obtain ⟨gap, hgap, hwritten, -⟩ :=
      p.alone_of_trailing st before tok htrailing.1 htrailing.2
    refine hparts ?_ hwritten
    rcases hgap with rfl | ⟨rfl, -⟩ <;> decide
  · obtain ⟨depth, -, hwritten, -⟩ :=
      p.alone_of_not_trailing st before tok htrailing
    exact hparts (p.lineBreak_spacing _) hwritten

/-- What a run adds are the glyphs of its tokens, and such blanks. -/
theorem mem_run (p : Printer) (st : State) (before tokens : List Token) {r : Glyph}
    (hr : r ∈ (p.run 0 st before tokens).written) :
    r ∈ st.written ∨ r ∈ spacing ∨ ∃ tok ∈ tokens, r ∈ renderInline tok := by
  induction st, before, tokens using p.run_induct with
  | nil st before => exact .inl hr
  | alone st before tok after memo hmerge hstep ih =>
      rw [run_of_step hstep] at hr
      rcases ih hr with hr | hr | ⟨t, ht, hr⟩
      · rcases p.mem_alone { st with memo } before tok hr with hr | hr | hr
        · exact .inl hr
        · exact .inr (.inl hr)
        · exact .inr (.inr ⟨tok, List.mem_cons_self, hr⟩)
      · exact .inr (.inl hr)
      · exact .inr (.inr ⟨t, List.mem_cons_of_mem tok ht, hr⟩)
  | merged st before tok after merged memo hmerge hstep ih =>
      obtain ⟨hstart, hmerges⟩ := merges_of_merge? hmerge
      rw [run_of_step hstep] at hr
      rcases ih hr with hr | hr | ⟨t, ht, hr⟩
      · rw [written_writeLine, List.mem_append, List.mem_append] at hr
        rcases hr with (hr | hr) | hr
        · exact .inl hr
        · exact .inr (.inl (p.lineBreak_spacing _ r hr))
        · rcases hmerges.mem_line hstart hr with rfl | ht
          · exact .inr (.inl (by decide))
          · exact .inr (.inr ht)
      · exact .inr (.inl hr)
      · exact .inr (.inr ⟨t, List.mem_cons_of_mem tok (List.mem_of_mem_drop ht), hr⟩)

/-- **The glyphs of a layout** are those of its tokens, and blanks of its own. -/
theorem mem_print (p : Printer) {r : Glyph} (hr : r ∈ p.print) :
    r ∈ spacing ∨ ∃ tok ∈ p.tokens, r ∈ renderInline tok := by
  have hrun : r ∈ (p.run 0 {} [] p.tokens).written := hr
  rcases p.mem_run {} [] p.tokens hrun with hr | hr
  · cases hr
  · exact hr

end Printer

/-! ## Line ends -/

/-- Unified line ends hold no carriage return. -/
theorem return_notMem_unifyFrom (afterReturn : Bool) {seen : Text}
    (hseen : .char '\r' ∉ seen)
    (s : Text) : .char '\r' ∉ unifyFrom afterReturn seen s := by
  induction s generalizing afterReturn seen with
  | nil => simpa [unifyFrom] using hseen
  | cons r s ih =>
      rw [unifyFrom]
      split
      · exact ih _ (by simpa using hseen)
      · next hr =>
          split
          · exact ih _ hseen
          · exact ih _ (by simpa [hseen] using fun h => hr h.symm)

/-- Without carriage returns line ends are unified. -/
theorem unifyFrom_of_notMem (seen : Text) {s : Text} (hs : .char '\r' ∉ s) :
    unifyFrom false seen s = seen.reverse ++ s := by
  induction s generalizing seen with
  | nil => simp [unifyFrom]
  | cons r s ih =>
      have hr : r ≠ .char '\r' := fun h => hs (by simp [h])
      have hlater : .char '\r' ∉ s := fun h => hs (List.mem_cons_of_mem r h)
      rw [unifyFrom, if_neg hr, if_neg (by simp), ih _ hlater]
      simp

/-- **A layout has no carriage return.** -/
theorem return_notMem_layout (o : Options) (source : Text) : .char '\r' ∉ layout o source := by
  have hprint : .char '\r' ∉ (Printer.ofSource o (unifyLineEnds source).trim).print := by
    intro hmem
    rcases Printer.mem_print _ hmem with hspace | ⟨tok, htok, hr⟩
    · exact absurd hspace (by decide)
    · rcases mem_renderInline hr with hspace | hliteral
      · cases hspace
      · rcases Token.mem_literal htok hliteral with hspace | hsource
        · cases hspace
        · exact return_notMem_unifyFrom false (by simp) source (mem_of_mem_trim hsource)
  rw [layout]
  split
  · simpa using hprint
  · exact hprint

/-- **The line ends of a layout** are unified. -/
theorem unifyLineEnds_layout (o : Options) (source : Text) :
    unifyLineEnds (layout o source) = layout o source :=
  unifyFrom_of_notMem [] (return_notMem_layout o source)

end TemplateFormat.Layout
