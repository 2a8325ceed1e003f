import TemplateFormat.Proofs.RowVotes
import TemplateFormat.Settings.Basic

/-!
# Resolving the options of a formatted document again

Options are resolved for each document: unless the settings say otherwise, the
indentation that the document uses replaces theirs.  Once a document is formatted its
indentation is the work of the printer, at all depths alike, so what is detected then
need not be the unit that it was written with: of two levels the deeper one may have more
lines, and its width be taken for the unit.

* `options_eq_ok` — options that are not refused are valid;
* `uncheckedOptions_eq` — two documents have options that differ in the indentation only;
* `layout_reindent_iff` — such options lay a document out alike only if they have the
  same unit or no row is indented;
* `unit_apply_iff` — the indentation that is detected has the unit of options if the votes of
  the lines are for it;
* `format_redetected_iff` — when a formatted document stays as it is under the options
  that are resolved for it again, told by the depths of the rows that the printer writes.
-/

namespace TemplateFormat.Settings

open Text Layout

/-- Options that are not refused are valid. -/
theorem options_eq_ok {c : Settings} {doc : Text} {o : Options} (h : c.options doc = .ok o) :
    o = c.uncheckedOptions doc ∧ 0 < o.indentSize ∧ 0 < o.threshold := by
  rw [options] at h
  split at h
  · next hvalid =>
      cases h
      refine ⟨rfl, ?_⟩
      rw [Options.validate] at hvalid
      split at hvalid
      · cases hvalid
      · split at hvalid
        · cases hvalid
        · omega
  · cases h

/-- Valid options are not refused. -/
theorem options_of_valid {c : Settings} {doc : Text} {o : Options}
    (ho : c.uncheckedOptions doc = o) (hindent : 0 < o.indentSize) (hthreshold : 0 < o.threshold) :
    c.options doc = .ok o := by
  rw [options, ho, validate_eq_ok hindent hthreshold]

/-- The options of two documents differ in the indentation only. -/
theorem uncheckedOptions_eq (c : Settings) (doc doc' : Text) :
    c.uncheckedOptions doc' = { c.uncheckedOptions doc with
      indentSize := (c.uncheckedOptions doc').indentSize
      useSpaces := (c.uncheckedOptions doc').useSpaces } := by
  have hstyle : ∀ doc, ∃ size useSpaces, c.uncheckedOptions doc =
      { c.explicitOptions with indentSize := size, useSpaces } := by
    intro doc
    rw [uncheckedOptions]
    split
    · split
      · next style _ => exact ⟨style.size, style.useSpaces, rfl⟩
      · exact ⟨_, _, rfl⟩
    · exact ⟨_, _, rfl⟩
  obtain ⟨size, useSpaces, h⟩ := hstyle doc
  obtain ⟨size', useSpaces', h'⟩ := hstyle doc'
  rw [h, h']

end TemplateFormat.Settings

namespace TemplateFormat.Layout

open Text Indentation

/-- **A document laid out with another indentation** is the same only if the unit is the same
or no row is indented. -/
theorem layout_reindent_iff (o : Options) (size : Int) (useSpaces : Bool) (source : Text) :
    layout { o with indentSize := size, useSpaces } source = layout o source ↔
      Options.unit { o with indentSize := size, useSpaces } = o.unit ∨
        ∀ row ∈ rowsOf o source, row.depth = 0 := by
  have hprint : (Printer.ofSource { o with indentSize := size, useSpaces }
      (unifyLineEnds source).trim).print =
      Row.render (Options.unit { o with indentSize := size, useSpaces }) (rowsOf o source) := by
    rw [Printer.print_eq_render]
    exact congrArg _ (Printer.rows_reindent (Printer.ofSource o _) size useSpaces)
  have hprint' : (Printer.ofSource o (unifyLineEnds source).trim).print =
      Row.render o.unit (rowsOf o source) := Printer.print_eq_render _
  rw [← render_eq_iff, layout, layout, hprint, hprint']
  split
  · exact List.append_left_inj _
  · rfl

/-- A formatted document is formatted with another indentation only if the unit is the same or
no row is indented. -/
theorem format_reindent_iff {o o' : Options} {out : Text} (hindent : 0 < o.indentSize)
    (hthreshold : 0 < o.threshold) (hindent' : 0 < o'.indentSize)
    (hsame : o' = { o with indentSize := o'.indentSize, useSpaces := o'.useSpaces })
    (hstays : format o out = .ok out) :
    format o' out = .ok out ↔ o'.unit = o.unit ∨ ∀ row ∈ rowsOf o out, row.depth = 0 := by
  have hthreshold' : 0 < o'.threshold := by
    rw [hsame]
    exact hthreshold
  cases hblank : out.isBlank with
  | true =>
      rw [format_eq_self hindent' hthreshold' hblank]
      exact iff_of_true rfl (.inr (by simp [rowsOf_of_blank o hblank]))
  | false =>
      rw [format_eq_layout hindent hthreshold hblank, Except.ok.injEq] at hstays
      have hlayout := layout_reindent_iff o o'.indentSize o'.useSpaces out
      rw [← hsame, hstays] at hlayout
      rw [format_eq_layout hindent' hthreshold' hblank, Except.ok.injEq, hlayout]

/-- A formatted document stays as it is under the options that are resolved for it again, if
these are accepted and have the same unit, or if no row is indented. -/
theorem format_resolved_iff {c : Settings} {doc out : Text} {o : Options}
    (ho : c.options doc = .ok o) (hstays : format o out = .ok out) :
    (∃ o', c.options out = .ok o' ∧ format o' out = .ok out) ↔
      0 < (c.uncheckedOptions out).indentSize ∧
        ((c.uncheckedOptions out).unit = o.unit ∨ ∀ row ∈ rowsOf o out, row.depth = 0) := by
  obtain ⟨rfl, hindent, hthreshold⟩ := Settings.options_eq_ok ho
  have hsame := c.uncheckedOptions_eq doc out
  constructor
  · rintro ⟨o', ho', hout⟩
    obtain ⟨rfl, hindent', -⟩ := Settings.options_eq_ok ho'
    exact ⟨hindent', (format_reindent_iff hindent hthreshold hindent' hsame hstays).mp hout⟩
  · rintro ⟨hindent', hunit⟩
    have hthreshold' : 0 < (c.uncheckedOptions out).threshold := by
      rw [hsame]
      exact hthreshold
    exact ⟨_, Settings.options_of_valid rfl hindent' hthreshold',
      (format_reindent_iff hindent hthreshold hindent' hsame hstays).mpr hunit⟩

/-- Units are the same if both are tabs, or both as many spaces. -/
theorem unit_eq_iff {o o' : Options} :
    o'.unit = o.unit ↔ o'.useSpaces = o.useSpaces ∧
      (o.useSpaces = true → o'.indentSize.toNat = o.indentSize.toNat) := by
  have hmixed : ∀ n, List.replicate n (Glyph.char ' ') ≠ [.char '\t'] := by
    intro n h
    have htab : Glyph.char '\t' ∈ List.replicate n (.char ' ') := by simp [h]
    cases List.eq_of_mem_replicate htab
  rw [Options.unit, Options.unit]
  cases o.useSpaces <;> cases o'.useSpaces
  · simp
  · simpa using hmixed _
  · simpa using (hmixed _).symm
  · simp

/-- **The indentation that is detected** has the unit of options exactly if the votes of the
lines are for it. -/
theorem unit_apply_iff {source : Text} {style : Indentation} {o : Options}
    (h : Indentation.detect source = some style) (e : Options) :
    (style.apply e).unit = o.unit ↔ VotesFor source o := by
  rw [Indentation.detect_eq] at h
  split at h
  · cases h
  · obtain rfl := Option.some.inj h
    rw [unit_eq_iff, VotesFor]
    cases o.useSpaces with
    | true =>
        by_cases hspaces : tabVotes source ≤ spaceVotes source <;>
          simp [Indentation.apply, hspaces]
    | false => simp [Indentation.apply]

/-- The lines of a formatted document vote as its rows do. -/
theorem leads_of_stays {o : Options} (hindent : 0 < o.indentSize) (hthreshold : 0 < o.threshold)
    {out : Text} (hstays : format o out = .ok out) :
    Indentation.leads out = ((rowsOf o out).reverse.flatMap (Row.leads o)).take lineLimit := by
  cases hblank : out.isBlank with
  | true =>
      rw [rowsOf_of_blank o hblank, leads_eq, voters_of_isBlank hblank]
      rfl
  | false =>
      rw [format_eq_layout hindent hthreshold hblank, Except.ok.injEq] at hstays
      have hleads := leads_layout hindent hblank
      rwa [hstays] at hleads

/-- **Formatting a document again** with the options that are resolved for it anew, while
indentation is detected.  A document has an output, and if the output stays as it is under
the options it was written with, its lines vote as the rows that the printer writes for it
do: each by its depth, and by what stands behind the newlines in it.

* Where no line votes, the output stays as it is under the new options exactly if the
  configured size is a size and the configured unit is the same or no row is indented.
* Where a line votes, it does so exactly if no row is indented or the votes are for the unit
  that the rows are written with.
* Where no row has a newline and some row is indented, both among as many first rows as may
  vote, it does so exactly if that unit is a tab, or a number of spaces that is a candidate
  and no deeper level whose width is a candidate has more of these rows than the first. -/
theorem format_redetected_iff (c : Settings) (hdetects : c.detectIndentation.getD true = true)
    (doc : Text) {o : Options} (ho : c.options doc = .ok o) :
    ∃ out, format o doc = .ok out ∧ (format o out = .ok out →
      let rows := (rowsOf o out).reverse
      let first := rows.take lineLimit
      let votes := (rows.flatMap (Row.leads o)).take lineLimit
      let staysFormatted := ∃ o', c.options out = .ok o' ∧ format o' out = .ok out
      (tabVotes out = votes.count .tabs ∧ spaceVotes out = votes.countP (·.width?.isSome) ∧
        ∀ width, widthVotes out width = votes.count (.spaces width)) ∧
      (tabVotes out + spaceVotes out = 0 →
        (staysFormatted ↔ 0 < c.explicitOptions.indentSize ∧
          (c.explicitOptions.unit = o.unit ∨ ∀ row ∈ rows, row.depth = 0))) ∧
      (0 < tabVotes out + spaceVotes out →
        (staysFormatted ↔ VotesFor out o ∨ ∀ row ∈ rows, row.depth = 0)) ∧
      ((∀ row ∈ first, .char '\n' ∉ row.body) → (∃ row ∈ first, 0 < row.depth) →
        (staysFormatted ↔ (o.useSpaces = true → o.indentSize.toNat ∈ candidateSizes ∧
          ∀ depth, 2 ≤ depth → depth * o.indentSize.toNat ∈ candidateSizes →
            first.countP (·.depth = depth) ≤ first.countP (·.depth = 1))))) := by
  obtain ⟨hunchecked, hindent, hthreshold⟩ := Settings.options_eq_ok ho
  obtain ⟨out, hout⟩ : ∃ out, format o doc = .ok out := by
    cases hdoc : doc.isBlank with
    | true => exact ⟨doc, format_eq_self hindent hthreshold hdoc⟩
    | false => exact ⟨_, format_eq_layout hindent hthreshold hdoc⟩
  refine ⟨out, hout, fun hstays => ?_⟩
  intro rows first votes staysFormatted
  have hleads : Indentation.leads out = votes := leads_of_stays hindent hthreshold hstays
  have hflat : (∀ row ∈ rowsOf o out, row.depth = 0) ↔ ∀ row ∈ rows, row.depth = 0 := by
    simp [rows]
  have hresolved : staysFormatted ↔ _ := format_resolved_iff ho hstays
  rw [hflat] at hresolved
  have hvoted : 0 < tabVotes out + spaceVotes out →
      (staysFormatted ↔ VotesFor out o ∨ ∀ row ∈ rows, row.depth = 0) := by
    intro hvotes
    obtain ⟨style, hstyle⟩ : ∃ style, Indentation.detect out = some style := by
      rw [Indentation.detect_eq, if_neg (Nat.ne_of_gt hvotes)]
      exact ⟨_, rfl⟩
    have hoptions : c.uncheckedOptions out = style.apply c.explicitOptions := by
      rw [Settings.uncheckedOptions, if_pos hdetects, hstyle]
    have hpositive : 0 < (style.apply c.explicitOptions).indentSize :=
      Int.natCast_pos.mpr (Indentation.elected_of_detect hstyle).positive
    rw [hresolved, hoptions, unit_apply_iff hstyle, and_iff_right hpositive]
  refine ⟨⟨?_, ?_, fun width => ?_⟩, fun hnone => ?_, hvoted, fun hone hindented => ?_⟩
  · rw [tabVotes_eq, hleads]
  · rw [spaceVotes_eq, hleads]
  · rw [widthVotes_eq, hleads]
  · have hoptions : c.uncheckedOptions out = c.explicitOptions := by
      rw [Settings.uncheckedOptions, if_pos hdetects, Indentation.detect_eq, if_pos hnone]
    rw [hresolved, hoptions]
  · have hdepths : Indentation.leads out = first.map fun row => Row.lead o row.depth :=
      hleads.trans (leads_take_of_notMem hone)
    have hlevel : ∃ row ∈ first, row.depth = 1 := exists_first_level hindented
    have hindents : ¬∀ row ∈ rows, row.depth = 0 := by
      obtain ⟨row, hrow, hdepth⟩ := hindented
      exact fun hzero => Nat.ne_of_gt hdepth (hzero row (List.mem_of_mem_take hrow))
    rw [hvoted (votes_pos hdepths hlevel), or_iff_left hindents,
      votesFor_iff hindent hdepths hlevel]

/-- A list whose items are not indented alike: two spaces are taken for the unit, and are
so again in the output, where all indented lines stand at depth one. -/
theorem format_redetected_list :
    let doc := text "<ul>\n   <li>a</li>\n  <li>b</li>\n</ul>\n"
    let out := text "<ul>\n  <li>a</li>\n  <li>b</li>\n</ul>\n"
    ∃ o, Settings.options {} doc = .ok o ∧ format o doc = .ok out ∧ out ≠ doc ∧
      ∃ o', Settings.options {} out = .ok o' ∧ format o' out = .ok out := by
  intro doc out
  have hfirst : layout { indentSize := 2 } doc = out := by decide +kernel
  have hstays : layout { indentSize := 2 } out = out := by decide +kernel
  have ho : Settings.options {} doc = .ok { indentSize := 2 } :=
    Settings.options_of_valid (by decide +kernel) (by decide) (by decide)
  have hout : format { indentSize := 2 } doc = .ok out := by
    rw [format_eq_layout (by decide) (by decide) (by decide), hfirst]
  have hagain : format { indentSize := 2 } out = .ok out := by
    rw [format_eq_layout (by decide) (by decide) (by decide), hstays]
  have hrows : (rowsOf { indentSize := 2 } out).reverse =
      [⟨0, text "<ul>"⟩, ⟨1, text "<li>a</li>"⟩, ⟨1, text "<li>b</li>"⟩, ⟨0, text "</ul>"⟩] := by
    decide +kernel
  obtain ⟨found, hfound, hlaw⟩ := format_redetected_iff {} rfl doc ho
  obtain rfl : out = found := Except.ok.inj (hout.symm.trans hfound)
  obtain ⟨-, -, -, hlevels⟩ := hlaw hagain
  rw [hrows] at hlevels
  refine ⟨_, ho, hout, by decide, (hlevels (by decide) (by decide)).mpr fun _ =>
    ⟨by decide, fun depth hdepth _ => ?_⟩⟩
  -- no line is deeper
  rw [List.countP_eq_zero.mpr]
  · exact Nat.zero_le _
  · intro row hrow
    have hshallow : row.depth ≤ 1 := by
      revert row
      decide
    rw [decide_eq_true_eq]
    omega

/-- Two nested blocks that are indented by four spaces have most lines behind eight. -/
theorem format_redetected_deep :
    let doc := text "@if (a) \x7b@if (b) \x7b<br><br><br>\x7d\x7d"
    let out := text "@if (a) \x7b\n    @if (b) \x7b\n        <br>\n        <br>\n" ++
      text "        <br>\n    \x7d\n\x7d"
    ∃ o o', Settings.options {} doc = .ok o ∧ format o doc = .ok out ∧ format o out = .ok out ∧
      Settings.options {} out = .ok o' ∧ format o' out ≠ .ok out := by
  intro doc out
  have hfirst : layout {} doc = out := by decide +kernel
  have hstays : layout {} out = out := by decide +kernel
  have hchanges : layout { indentSize := 8 } out ≠ out := by decide +kernel
  refine ⟨{}, { indentSize := 8 }, ?_, ?_, ?_, ?_, ?_⟩
  · exact Settings.options_of_valid (by decide +kernel) (by decide) (by decide)
  · rw [← hfirst]
    exact format_eq_layout (by decide) (by decide) (by decide)
  · rw [format_eq_layout (by decide) (by decide) (by decide), hstays]
  · exact Settings.options_of_valid (by decide +kernel) (by decide) (by decide)
  · rw [format_eq_layout (by decide) (by decide) (by decide)]
    exact fun h => hchanges (Except.ok.inj h)

end TemplateFormat.Layout
