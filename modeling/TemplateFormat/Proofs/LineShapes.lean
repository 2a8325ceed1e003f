import TemplateFormat.Proofs.Edges
import TemplateFormat.Proofs.LineEnds
import TemplateFormat.Proofs.Rows

/-!
# The shape of the lines of a layout

A line of a layout is written as a token, as a rewritten interpolation or as a merged
element, and text may be added to it later, with a space before it or without.  Whichever
it is, the line is the indentation of some level and a body that starts and ends in glyphs
that are not blank.

* `rows_induct` — what holds of tokens and merged elements, and is kept when text is added,
  holds of the bodies of all rows;
* `trimmed_rows`, `mem_rows` — bodies are trimmed, and have the glyphs of their tokens;
* `splitOn_layout` — the lines of a layout are those of its rows, and `splitOn_line`, where no
  token has a newline each row is one;
* `format_lines` — the law for documents.
-/

namespace TemplateFormat

open Text Markup

namespace Layout

/-! ## The bodies of the rows -/

namespace Printer

variable {p : Printer}

/-- **Induction over the bodies of rows**: what holds of merged elements and of tokens, and
is kept when text is added behind, holds of the bodies of all rows. -/
theorem rows_induct {P : Text → Prop}
    (merged : ∀ tok after merged, tok :: after <:+ p.tokens → tok.isStartTag = true →
      Merges tok after merged → P merged.line)
    (alone : ∀ tok ∈ p.tokens, P (renderInline tok))
    (trailing : ∀ body before, ∀ tok ∈ p.tokens, P body → P (renderInline tok) →
      tok.kind = .text → P (body ++ trailingText before tok)) :
    ∀ row ∈ p.rows, P row.body := by
  have hfold : ∀ (steps : List Step) (rows : List Row),
      (∀ s ∈ steps, s.token :: s.after <:+ p.tokens) → (∀ row ∈ rows, P row.body) →
      ∀ row ∈ steps.foldl p.addRow rows, P row.body := by
    intro steps
    induction steps with
    | nil => exact fun rows _ hrows => hrows
    | cons s steps ih =>
        intro rows hsteps hrows
        refine ih _ (fun t ht => hsteps t (List.mem_cons_of_mem s ht)) ?_
        have hsuffix := hsteps s List.mem_cons_self
        have htok : s.token ∈ p.tokens := hsuffix.subset List.mem_cons_self
        unfold addRow
        split
        · next merged' hmerge =>
            obtain ⟨hstart, hmerges⟩ := merges_of_merge? hmerge
            exact List.forall_mem_cons.mpr ⟨merged _ _ _ hsuffix hstart hmerges, hrows⟩
        · split
          · next htrailing =>
              cases rows with
              | nil => exact hrows
              | cons last rest =>
                  obtain ⟨hlast, hrest⟩ := List.forall_mem_cons.mp hrows
                  exact List.forall_mem_cons.mpr
                    ⟨trailing _ _ _ htok hlast (alone _ htok) htrailing.1, hrest⟩
          · exact List.forall_mem_cons.mpr ⟨alone _ htok, hrows⟩
  exact hfold p.steps [] (fun s hs => p.suffix_of_mem_stepsFrom {} [] p.tokens 0 hs)
    (by simp)

/-- **Bodies are trimmed** if tokens are written trimmed. -/
theorem trimmed_rows (h : Crisp p.tokens) :
    ∀ row ∈ p.rows, Trimmed row.body ∧ row.body ≠ [] := by
  refine rows_induct (P := fun body => Trimmed body ∧ body ≠ []) ?_ h ?_
  · intro tok after merged hsuffix hstart hmerges
    exact trimmed_line hmerges hstart fun t ht => h t (hsuffix.subset ht)
  · rintro body before tok htok ⟨hbody, hne⟩ ⟨hrender, hrne⟩ hkind
    have htext : renderInline tok = tok.literal := by rw [renderInline, hkind]
    rw [htext] at hrender hrne
    unfold trailingText
    split
    · have hgap := hbody.surround hne hrender hrne [.char ' ']
      exact ⟨by simpa using hgap, by simp⟩
    · have hjoined := hbody.surround hne hrender hrne []
      exact ⟨by simpa using hjoined, by simp [hne]⟩

/-- Bodies have the glyphs of the tokens, and spaces. -/
theorem mem_rows {row : Row} (h : row ∈ p.rows) {r : Glyph} (hr : r ∈ row.body) :
    r = .char ' ' ∨ ∃ tok ∈ p.tokens, r ∈ tok.literal := by
  have hrows := rows_induct (p := p)
    (P := fun body => r ∈ body → r = .char ' ' ∨ ∃ tok ∈ p.tokens, r ∈ tok.literal) ?_ ?_ ?_
  · exact hrows row h hr
  · intro tok after merged hsuffix hstart hmerges hmem
    rcases hmerges.mem_line hstart hmem with hspace | ⟨t, ht, hmem⟩
    · exact .inl hspace
    · exact (mem_renderInline hmem).imp_right fun hmem => ⟨t, hsuffix.subset ht, hmem⟩
  · intro tok htok hmem
    exact (mem_renderInline hmem).imp_right fun hmem => ⟨tok, htok, hmem⟩
  · intro body before tok htok hbody hrender hkind hmem
    rcases List.mem_append.mp hmem with hmem | hmem
    · exact hbody hmem
    · unfold trailingText at hmem
      split at hmem
      · exact (List.mem_cons.mp hmem).imp_right fun hmem => ⟨tok, htok, hmem⟩
      · exact .inr ⟨tok, htok, hmem⟩

end Printer

/-! ## The lines of a layout -/

/-- The indentation of a row is all the white space that it starts with. -/
theorem Row.takeWhile_line (o : Options) {row : Row} (h : Trimmed row.body) (hne : row.body ≠ []) :
    (row.line o.unit).takeWhile Glyph.isBlank = (List.replicate row.depth o.unit).flatten := by
  have hunits : ∀ r ∈ (List.replicate row.depth o.unit).flatten, r.isBlank = true := by
    intro r hr
    obtain ⟨unit, hunit, hr⟩ := List.mem_flatten.mp hr
    rw [List.eq_of_mem_replicate hunit] at hr
    exact Printer.unit_blank o r hr
  obtain ⟨first, rest, hbody⟩ := List.exists_cons_of_ne_nil hne
  have hfirst : first.isBlank = false := h.head first (by rw [hbody]; rfl)
  rw [Row.line, hbody, List.takeWhile_append_of_pos hunits,
    List.takeWhile_cons_of_neg (by simp [hfirst]), List.append_nil]

/-- The lines of joined texts are the lines of each. -/
theorem splitOn_join {parts : List Text} (hne : parts ≠ []) :
    (join [.char '\n'] parts).splitOn (.char '\n') =
      parts.flatMap fun part => part.splitOn (.char '\n') := by
  induction parts with
  | nil => exact absurd rfl hne
  | cons part rest ih =>
      cases rest with
      | nil => simp [join]
      | cons next rest =>
          have hrest := ih (by simp)
          rw [splitOn] at hrest
          rw [join_cons_cons, List.flatMap_cons, splitOn, List.append_assoc, List.singleton_append,
            List.splitOnP_append_cons _ _ (by simp), hrest]
          rfl

/-- **The lines of a layout are those of its rows**, and an empty line behind a final newline. -/
theorem splitOn_layout {o : Options} {source : Text} (hsource : source.isBlank = false) :
    let p := Printer.ofSource o (unifyLineEnds source).trim
    (layout o source).splitOn (.char '\n') =
      p.rows.reverse.flatMap (fun row => (row.line o.unit).splitOn (.char '\n')) ++
        if (unifyLineEnds source).endsWith [.char '\n'] then [[]] else [] := by
  intro p
  let lines := (p.rows.map (Row.line o.unit)).reverse
  have hprint : p.print = join [.char '\n'] lines := p.print_eq_render
  have hne : lines ≠ [] := by
    intro hnil
    exact print_ne_nil o hsource (by rw [hprint, hnil]; rfl)
  have hlines : p.rows.reverse.flatMap (fun row => (row.line o.unit).splitOn (.char '\n')) =
      lines.flatMap fun line => line.splitOn (.char '\n') := by
    show _ = (p.rows.map (Row.line o.unit)).reverse.flatMap _
    rw [← List.map_reverse, List.flatMap_map]
  have hlayout : layout o source =
      if (unifyLineEnds source).endsWith [.char '\n'] then p.print ++ [.char '\n'] else p.print :=
    rfl
  rw [hlayout, hprint, hlines]
  split
  · -- the newline at the end stands before an empty line
    have hend : join [.char '\n'] lines ++ [.char '\n'] = join [.char '\n'] (lines ++ [[]]) := by
      rw [join_append_singleton _ _ hne, List.append_nil]
    rw [hend, splitOn_join (by simp), List.flatMap_append]
    rfl
  · rw [List.append_nil]
    exact splitOn_join hne

/-- A row is one line where no token has a newline. -/
theorem splitOn_line {p : Printer} (hone : ∀ tok ∈ p.tokens, .char '\n' ∉ tok.literal)
    {row : Row} (hrow : row ∈ p.rows) :
    (row.line p.options.unit).splitOn (.char '\n') = [row.line p.options.unit] := by
  refine List.splitOnP_eq_singleton fun r hr => beq_false_of_ne ?_
  rintro rfl
  rcases List.mem_append.mp hr with hmem | hmem
  · obtain ⟨unit, hunit, hmem⟩ := List.mem_flatten.mp hmem
    rw [List.eq_of_mem_replicate hunit, Options.unit] at hmem
    split at hmem
    · cases List.eq_of_mem_replicate hmem
    · cases List.mem_singleton.mp hmem
  · rcases Printer.mem_rows hrow hmem with hspace | ⟨tok, htok, hmem⟩
    · cases hspace
    · exact hone tok htok hmem

/-- The last glyph of a row is the last glyph of its body. -/
theorem Row.getLast?_line (unit : Text) {row : Row} (hne : row.body ≠ []) :
    (row.line unit).getLast? = row.body.getLast? := by
  obtain ⟨last, hlast⟩ := Option.isSome_iff_exists.mp (List.getLast?_isSome.mpr hne)
  rw [Row.line, List.getLast?_append, hlast]
  rfl

/-- **The shape of a formatted document.**  With valid options, every line that the printer
writes for a source that is not blank is the indentation of some level and a body, which is
not empty and neither starts nor ends in white space.  So the document starts in a glyph
that is not blank, has no carriage return, and ends in such a glyph and then one newline if
the source ends in a line end, or in such a glyph.  If no token has a newline, the white
space before the lines of the document is whole levels of indentation, and there is none
behind them. -/
theorem format_lines {o : Options} (hindent : 0 < o.indentSize) (hthreshold : 0 < o.threshold)
    {source : Text} (hsource : source.isBlank = false) :
    let unified := unifyLineEnds source
    let p := Printer.ofSource o unified.trim
    (∀ line ∈ p.final.lines, ∃ depth body,
      line = (List.replicate depth o.unit).flatten ++ body ∧ body ≠ [] ∧ Trimmed body) ∧
    ∃ out, format o source = .ok out ∧
      (∃ first rest, out = first :: rest ∧ first.isBlank = false) ∧
      .char '\r' ∉ out ∧
      (if unified.endsWith [.char '\n'] then
        ∃ front last, out = front ++ [last, .char '\n'] ∧ last.isBlank = false
      else ∃ front last, out = front ++ [last] ∧ last.isBlank = false) ∧
      ((∀ tok ∈ p.tokens, .char '\n' ∉ tok.literal) →
        ∀ line ∈ out.splitOn (.char '\n'),
          (∃ depth, line.takeWhile Glyph.isBlank = (List.replicate depth o.unit).flatten) ∧
          ∀ last ∈ line.getLast?, last.isBlank = false) := by
  intro unified p
  have hrows : ∀ row ∈ p.rows, Trimmed row.body ∧ row.body ≠ [] :=
    Printer.trimmed_rows (crisp_scan (trimmed_trim unified))
  have hprint : Trimmed p.print := trimmed_print_ofSource o unified
  have hne : p.print ≠ [] := print_ne_nil o hsource
  have hlayout : layout o source =
      if unified.endsWith [.char '\n'] then p.print ++ [.char '\n'] else p.print := rfl
  refine ⟨fun line hline => ?_, layout o source, format_eq_layout hindent hthreshold hsource,
    ?_, return_notMem_layout o source, ?_, fun hone line hline => ?_⟩
  · rw [p.lines_final] at hline
    obtain ⟨row, hrow, rfl⟩ := List.mem_map.mp hline
    exact ⟨row.depth, row.body, rfl, (hrows row hrow).2, (hrows row hrow).1⟩
  · have hout : layout o source ≠ [] := by
      rw [hlayout]
      split <;> simp [hne]
    obtain ⟨first, rest, hfirst⟩ := List.exists_cons_of_ne_nil hout
    exact ⟨first, rest, hfirst, head?_layout o hsource first (by rw [hfirst]; rfl)⟩
  · obtain ⟨front, last, hlast, hink⟩ := hprint.exists_last hne
    rw [hlayout, hlast]
    split
    · exact ⟨front, last, by simp, hink⟩
    · exact ⟨front, last, rfl, hink⟩
  · rw [splitOn_layout hsource] at hline
    rcases List.mem_append.mp hline with hline | hline
    · obtain ⟨row, hrow, hline⟩ := List.mem_flatMap.mp hline
      have hmem : row ∈ p.rows := List.mem_reverse.mp hrow
      have hsplit : (row.line o.unit).splitOn (.char '\n') = [row.line o.unit] :=
        splitOn_line hone hmem
      rw [hsplit, List.mem_singleton] at hline
      obtain ⟨hbody, hbne⟩ := hrows row hmem
      rw [hline]
      refine ⟨⟨row.depth, row.takeWhile_line o hbody hbne⟩, ?_⟩
      rw [row.getLast?_line o.unit hbne]
      exact hbody.last
    · -- the empty line behind the final newline
      split at hline
      · obtain rfl := List.mem_singleton.mp hline
        exact ⟨⟨0, rfl⟩, by simp⟩
      · cases hline

/-- A brace that closes nothing, a list that is not merged, and text behind an
interpolation. -/
theorem format_lines_list :
    let source := text "\r\n \x7d<ul>\n<li>\x7b\x7b x|y\x7d\x7d and text that goes on " ++
      text "until it is too long for a line <br></li></ul>\r\n"
    source.isBlank = false ∧ ∃ out, format {} source = .ok out ∧
      (∃ front last, out = front ++ [last, .char '\n'] ∧ last.isBlank = false) ∧
      ∀ line ∈ out.splitOn (.char '\n'),
        (∃ depth, line.takeWhile Glyph.isBlank =
          (List.replicate depth (Options.unit {})).flatten) ∧
        ∀ last ∈ line.getLast?, last.isBlank = false := by
  intro source
  have hsource : source.isBlank = false := by decide
  have hone : ∀ tok ∈ Token.scan (unifyLineEnds source).trim, .char '\n' ∉ tok.literal := by
    decide +kernel
  obtain ⟨-, out, hout, -, -, hend, hlines⟩ :=
    format_lines (o := {}) (by decide) (by decide) hsource
  exact ⟨hsource, out, hout, hend, hlines hone⟩

end Layout

end TemplateFormat
