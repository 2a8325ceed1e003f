import TemplateFormat.Proofs.Rereading

/-!
# Layouts without merged elements

When short elements are not put on one line, every token stands on a line of its
own, and the layout can be read again: its tokens are those of the source, with
interpolations in normal form.

* `run_expanded` — a run adds one line for each token;
* `outline_format_expanded` — the law for whole documents.
-/

namespace TemplateFormat.Layout

open Text Markup

namespace Printer

/-- Without merges a step takes its token only. -/
theorem merge?_expanded {p : Printer} (hoff : p.options.inlineShort = false)
    (memo : SourceIndex.Memo) (tok : Token) (after : List Token) :
    p.merge? memo tok after = none := by
  simp [merge?, hoff]

/-- **A run without merges** adds one line for each token. -/
theorem run_expanded {p : Printer} (hoff : p.options.inlineShort = false)
    (st : State)
    (before tokens : List Token) :
    (p.run 0 st before tokens).lines.length = st.lines.length + tokens.length := by
  induction st, before, tokens using p.run_induct with
  | nil => rfl
  | alone st before tok after memo hmerge hstep ih =>
      have htrailing : ¬(tok.kind = .text ∧ p.isTrailing { st with memo } before = true) := by
        simp [isTrailing, hoff]
      obtain ⟨depth, -, -, hlines⟩ :=
        p.alone_of_not_trailing { st with memo } before tok htrailing
      have hone : (p.alone { st with memo } before tok).lines.length =
        st.lines.length + 1 := hlines
      rw [run_of_alone hstep, ih, hone, List.length_cons]
      omega
  | merged st before tok after merged memo hmerge =>
      rw [merge?_expanded hoff] at hmerge
      cases hmerge

/-- Without merges a layout is read as its tokens. -/
theorem reread_expanded {p : Printer} (hoff : p.options.inlineShort = false) :
    p.steps.flatMap p.reread = p.tokens.map fun tok => (tok.kind, renderInline tok) := by
  have hstep : p.reread =
    fun s => (p.taken s).map fun tok => (tok.kind, renderInline tok) := by
    funext s
    have hnone : p.merged? s = none := merge?_expanded hoff _ _ _
    simp [reread, taken, hnone]
  rw [hstep, ← List.map_flatMap, flatMap_taken]

end Printer

/-- **Reading an expanded layout.**  With valid options that put no element on
one line, every source that is not blank and whose tags all end has an output.
The printer writes one line for each token, and the trimmed output is read as the
tokens of the source: the same kinds with the same names, and the same literals,
interpolations in normal form. -/
theorem outline_format_expanded {o : Options} (hindent : 0 < o.indentSize)
    (hthreshold : 0 < o.threshold) (hoff : o.inlineShort = false) {source : Text}
    (hsource : source.isBlank = false)
    (hends : ∀ lexeme ∈ Lexeme.split (unifyLineEnds source).trim,
      lexeme.isTerminated = true) :
    ∃ out, format o source = .ok out ∧
      (Printer.ofSource o (unifyLineEnds source).trim).final.lines.length =
        (Token.scan (unifyLineEnds source).trim).length ∧
      Token.outline (Token.scan out.trim) =
        (Token.scan (unifyLineEnds source).trim).map fun tok =>
          (tok.kind, renderInline tok) := by
  have hreadable : Token.Readable
      (Printer.ofSource o (unifyLineEnds source).trim).tokens :=
    Token.readable_scan (trimmed_trim (unifyLineEnds source)) hends
  have htrim := Printer.trimmed_print _ (Printer.crisp_of_readable hreadable)
  refine ⟨layout o source, format_eq_layout hindent hthreshold hsource, ?_, ?_⟩
  · rw [Printer.final, Printer.run_expanded hoff]
    simp [Printer.ofSource]
  · rw [trim_layout htrim, Printer.outline_print _ hreadable,
      Printer.reread_expanded hoff]
    rfl

/-- A header, a tag with a quoted value, and an interpolation that lacks its
end. -/
theorem outline_format_expanded_running :
    let source := text "@if (a)  \x7b\r\n<p t='x  y' >b  c\n\x7d \x7b\x7b d|e "
    (∀ lexeme ∈ Lexeme.split (unifyLineEnds source).trim,
      lexeme.isTerminated = true) ∧
    ∃ out, format { inlineShort := false } source = .ok out ∧
      (Printer.ofSource { inlineShort := false }
        (unifyLineEnds source).trim).final.lines.length =
        (Token.scan (unifyLineEnds source).trim).length ∧
      Token.outline (Token.scan out.trim) =
        (Token.scan (unifyLineEnds source).trim).map fun tok =>
        (tok.kind, renderInline tok) := by
  intro source
  have hends : ∀ lexeme ∈ Lexeme.split (unifyLineEnds source).trim,
    lexeme.isTerminated = true := by
    decide
  exact ⟨hends, outline_format_expanded (by decide) (by decide) rfl
    (by decide) hends⟩

end TemplateFormat.Layout
