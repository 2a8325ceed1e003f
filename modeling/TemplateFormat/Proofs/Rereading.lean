import TemplateFormat.Proofs.MergedLines

/-!
# Reading a layout again

What the printer writes at one step does not change how the rest is read: a
layout is read as what each of its steps is read as, one after the other.  A step
that writes its token alone is read as that token, with an interpolation in normal
form.  A merged element is read as its line alone would be.

* `flatMap_taken` — the steps of a layout take each token once, in order;
* `run_laid` — the induction: what a run adds is laid out from pieces;
* `outline_print` — reading a layout, step by step.
-/

namespace TemplateFormat.Layout

open Text Markup

namespace Printer

/-- The element that a step of a layout puts on one line. -/
def merged? (p : Printer) (s : Step) : Option Merged :=
  p.merge? s.start.memo s.token s.after

/-- The tokens that a step takes. -/
def taken (p : Printer) (s : Step) : List Token :=
  s.token :: s.after.take ((p.merged? s).elim 0 Merged.absorbed)

/-- What a step writes, as it is read on its own. -/
def reread (p : Printer) (s : Step) : List (Token.Kind × Text) :=
  match p.merged? s with
  | none => [(s.token.kind, renderInline s.token)]
  | some merged => Token.outline (Token.scan merged.line)

/-- The steps of a run take its tokens. -/
theorem flatMap_taken_from (p : Printer) (st : State) (before tokens : List Token)
    (index : Nat) :
    (p.stepsFrom index 0 st before tokens).flatMap p.taken = tokens := by
  induction st, before, tokens using p.run_induct generalizing index with
  | nil => rfl
  | alone st before tok after memo hmerge hstep ih =>
      obtain ⟨later, hsteps⟩ := stepsFrom_of_alone hstep index
      rw [hsteps, List.flatMap_cons, ih]
      simp [taken, merged?, hmerge]
  | merged st before tok after merged memo hmerge hstep ih =>
      obtain ⟨later, hsteps⟩ := stepsFrom_of_step hstep index
      rw [hsteps, List.flatMap_cons, ih]
      simp [taken, merged?, hmerge]

/-- **The steps of a layout** take each of its tokens once, in order. -/
theorem flatMap_taken (p : Printer) : p.steps.flatMap p.taken = p.tokens :=
  p.flatMap_taken_from {} [] p.tokens 0

/-- A step is taken at a token of the run, before the tokens that follow it. -/
theorem suffix_of_mem_stepsFrom (p : Printer) (st : State) (before tokens : List Token)
    (index : Nat) {skip : Nat} {s : Step} (h : s ∈ p.stepsFrom index skip st before tokens) :
    s.token :: s.after <:+ tokens := by
  induction tokens generalizing index skip st before with
  | nil => cases skip <;> cases h
  | cons tok after ih =>
      cases skip with
      | succ skip => exact (ih _ _ _ h).trans (List.suffix_cons tok after)
      | zero =>
          rw [stepsFrom_cons] at h
          rcases List.mem_cons.mp h with rfl | h
          · exact List.suffix_refl _
          · exact (ih _ _ _ h).trans (List.suffix_cons tok after)

/-- The steps of a layout are taken where the tokens are readable. -/
theorem readable_of_mem_steps {p : Printer} (h : Token.Readable p.tokens) {s : Step}
    (hs : s ∈ p.steps) : Token.Readable (s.token :: s.after) := by
  obtain ⟨front, hfront⟩ := p.suffix_of_mem_stepsFrom {} [] p.tokens 0 hs
  exact Token.Readable.back (a := front) (by rwa [hfront])

/-- The blanks before a piece hide an `@` that stands before them. -/
theorem ne_at_of_blank {w : Text} (hw : ∀ r ∈ w, r.isBlank = true)
    {prev : Option Glyph}
    (hprev : w = [] → prev ≠ some (.char '@')) : w.getLast?.or prev ≠ some (.char '@') := by
  cases hlast : w.getLast? with
  | none => exact hprev (List.getLast?_eq_none_iff.mp hlast)
  | some r =>
      intro hat
      obtain rfl : r = .char '@' := by simpa using hat
      exact absurd (hw _ (List.mem_of_getLast? hlast)) (by decide)

/-- The pieces that the text `rest` is laid out from, where it is what a run adds
for `tokens`. -/
structure Pieces (prev : Option Glyph) (tokens : List Token) (rest : Text)
    (read : List (Token.Kind × Text)) (lexemes : List Lexeme) : Prop where
  laid : Lexeme.Laid true prev lexemes rest
  readings : lexemes.filterMap Lexeme.reading = read
  stop : tokens = [] → lexemes = []
  /-- The last token is the last piece, or a tag where a tag was. -/
  last : ∀ tok ∈ tokens.getLast?, ∃ lexeme ∈ lexemes.getLast?,
    lexeme = tok.form ∨ (lexeme.kind = .tag ∧ tok.form.kind = .tag)
  /-- Text is read only where there was text. -/
  head : (∀ tok ∈ tokens.head?, tok.kind ≠ .text) →
  ∀ lexeme ∈ lexemes.head?, lexeme.kind ≠ .text

/-- A token written alone is one more piece. -/
theorem Pieces.alone {prev : Option Glyph} {tok : Token} {after : List Token}
    {gap rest : Text}
    {read : List (Token.Kind × Text)} {lexemes : List Lexeme}
    (h : Pieces (renderInline tok).getLast? after rest read lexemes)
    (hreadable : Token.Readable (tok :: after))
    (hgap : ∀ r ∈ gap, r.isBlank = true)
    (hprev : tok.kind ≠ .text → gap.getLast?.or prev ≠ some (.char '@'))
    (hblank : tok.kind = .text → ∀ r ∈ rest.head?, r.isBlank = true)
    (hstop : after = [] → rest = []) :
    Pieces prev (tok :: after) (gap ++ renderInline tok ++ rest)
      ((tok.kind, renderInline tok) :: read) (tok.form :: lexemes) where
  laid := by
    rw [List.append_assoc]
    refine .blanks hgap (.piece hreadable.neat (.inl rfl) ?_
      (fun htext => hblank (Token.form_kind_eq_text.mp htext)) ?_ ?_ h.laid)
    · intro hbrace
      refine hprev fun htext => ?_
      simp [Token.form_kind_eq_text.mpr htext] at hbrace
    · intro htext
      exact h.head (hreadable.not_text (Token.form_kind_eq_text.mp htext))
    · intro hnil
      have hafter : after = [] := by simpa using hnil
      exact ⟨h.stop hafter, hstop hafter⟩
  readings := by
    rw [List.filterMap_cons_some (hreadable.legible tok List.mem_cons_self), h.readings]
  stop := by simp
  last := by
    intro t ht
    cases hlast : after.getLast? with
    | none =>
        obtain rfl := List.getLast?_eq_none_iff.mp hlast
        obtain rfl := h.stop rfl
        obtain rfl : tok = t := by simpa using ht
        exact ⟨tok.form, rfl, .inl rfl⟩
    | some next =>
        obtain rfl : next = t := by simpa [List.getLast?_cons, hlast] using ht
        obtain ⟨lexeme, hmem, hsame⟩ := h.last next hlast
        exact ⟨lexeme, by rw [List.getLast?_cons, hmem]; rfl, hsame⟩
  head := by
    intro hkind lexeme hmem
    obtain rfl : tok.form = lexeme := by simpa using hmem
    exact fun htext => hkind tok rfl (Token.form_kind_eq_text.mp htext)

/-- A merged element is laid out before the rest. -/
theorem Pieces.merged {prev : Option Glyph} {tok : Token} {after : List Token}
    {merged : Merged}
    {gap rest : Text} {read : List (Token.Kind × Text)} {lexemes : List Lexeme}
    (h : Pieces merged.line.getLast?
      (after.drop merged.absorbed) rest read lexemes)
    (hmerges : Merges tok after merged) (hstart : tok.isStartTag = true)
    (hreadable : Token.Readable (tok :: after))
    (hgap : ∀ r ∈ gap, r.isBlank = true)
    (hprev : gap.getLast?.or prev ≠ some (.char '@')) :
    ∃ lexemes', Pieces prev (tok :: after) (gap ++ merged.line ++ rest)
      (Token.outline (Token.scan merged.line) ++ read) lexemes' := by
  obtain ⟨front, hfront, hhead, hlast, -⟩ := laid_line hmerges hstart hreadable
  have hne : front ≠ [] := by
    rintro rfl
    cases hhead
  have hline : merged.line.getLast?.or (gap.getLast?.or prev) = merged.line.getLast? := by
    cases hend : merged.line.getLast? with
    | none => exact absurd (List.getLast?_eq_none_iff.mp hend) (hfront.ne_nil hne)
    | some r => rfl
  refine ⟨front ++ lexemes, ?_, ?_, by simp, ?_, ?_⟩
  · rw [List.append_assoc]
    refine .blanks hgap (.append (hfront.of_prev fun hat => absurd hat hprev) ?_
      (by rw [hline]; exact h.laid))
    intro lexeme hmem
    rw [hmem] at hlast
    obtain hkind : lexeme.kind = .tag := by simpa using hlast
    simp [hkind]
  · rw [List.filterMap_append, h.readings, Token.outline_of_laid hfront]
  · intro t ht
    rw [← List.take_append_drop merged.absorbed after, ← List.cons_append,
      List.getLast?_append] at ht
    cases hend : (after.drop merged.absorbed).getLast? with
    | some next =>
        obtain rfl : next = t := by simpa [hend] using ht
        obtain ⟨lexeme, hmem, hsame⟩ := h.last next hend
        exact ⟨lexeme, by rw [List.getLast?_append, hmem]; rfl, hsame⟩
    | none =>
        obtain rfl := h.stop (List.getLast?_eq_none_iff.mp hend)
        obtain ⟨closing, htake, hclosing⟩ := hmerges.getLast?
        obtain rfl : closing = t := by
          simpa [hend, List.getLast?_cons, htake] using ht
        have hform := form_of_element (.inr hclosing) (hreadable.legible closing
          (List.mem_cons_of_mem _
            (List.mem_of_mem_take (List.mem_of_getLast? htake))))
        obtain ⟨lexeme, hmem, hkind⟩ := Option.map_eq_some_iff.mp hlast
        exact ⟨lexeme, by simpa using hmem, .inr ⟨hkind, by rw [hform]⟩⟩
  · intro _ lexeme hmem
    obtain ⟨first, front, rfl⟩ := List.exists_cons_of_ne_nil hne
    obtain rfl : first = lexeme := by simpa using hmem
    obtain hkind : first.kind = .tag := by simpa using hhead
    simp [hkind]

/-- **Laying out a run.**  What a run adds is laid out from pieces that are read
as its steps are. -/
theorem run_laid (p : Printer) (st : State) (before tokens : List Token)
    (hreadable : Token.Readable tokens)
    (prev : Option Glyph) (hprev : st.lines = [] → prev ≠ some (.char '@'))
    {rest : Text}
    (hrest : (p.run 0 st before tokens).written = st.written ++ rest)
    (index : Nat) :
    ∃ lexemes, Pieces prev tokens rest
      ((p.stepsFrom index 0 st before tokens).flatMap p.reread)
      lexemes := by
  induction st, before,
    tokens using p.run_induct generalizing prev rest index with
  | nil st before =>
      obtain rfl : rest = [] := by simpa [run] using hrest
      exact ⟨[], .nil, rfl, fun _ => rfl, by simp, by simp⟩
  | alone st before tok after memo hmerge hstep ih =>
      obtain ⟨later, hsteps⟩ := stepsFrom_of_alone hstep index
      rw [run_of_alone hstep] at hrest
      have hread : p.reread
        ⟨index, before, tok, after, st, p.alone { st with memo } before tok⟩ =
          [(tok.kind, renderInline tok)] := by
        simp [reread, merged?, hmerge]
      obtain ⟨more, hmore, hstop, hstart⟩ :=
        p.run_written (p.alone { st with memo } before tok) (tok :: before) after
      obtain ⟨gap, hgap, hnil, hwritten, hlines⟩ :=
        p.alone_written { st with memo } before tok
      obtain ⟨lexemes, hpieces⟩ := ih hreadable.tail (renderInline tok).getLast?
        (fun h => absurd h hlines) hmore later
      obtain rfl : rest = gap ++ renderInline tok ++ more := by
        rw [hmore, hwritten] at hrest
        simpa [State.written] using hrest.symm
      rw [hsteps, List.flatMap_cons, hread]
      refine ⟨_, hpieces.alone hreadable hgap ?_ ?_ hstop⟩
      · intro hkind
        refine ne_at_of_blank hgap fun h => hprev ?_
        exact (hnil h).resolve_right hkind
      · -- no text follows a text, so a new line does
        intro htext r hr
        have hafter : after ≠ [] := by
          rintro rfl
          rw [hstop rfl] at hr
          cases hr
        have hbreak := hstart hlines hafter fun next hnext htrailing =>
          hreadable.not_text htext next hnext htrailing.1
        rw [hbreak] at hr
        cases hr
        rfl
  | merged st before tok after merged memo hmerge hstep ih =>
      obtain ⟨later, hsteps⟩ := stepsFrom_of_step hstep index
      obtain ⟨hstart, hmerges⟩ := merges_of_merge? hmerge
      obtain ⟨more, hmore, -⟩ :=
        p.run_written (p.writeLine { st with memo } merged.line)
        ((after.take merged.absorbed).reverse ++ tok :: before)
        (after.drop merged.absorbed)
      have hread : p.reread ⟨index, before, tok, after, st,
        p.writeLine { st with memo } merged.line⟩ =
          Token.outline (Token.scan merged.line) := by
        simp [reread, merged?, hmerge]
      rw [run_of_step hstep, hmore, written_writeLine] at hrest
      obtain rfl : rest = p.lineBreak { st with memo } ++ merged.line ++ more := by
        simpa [State.written] using hrest.symm
      have hgap := p.lineBreak_blank { st with memo }
      obtain ⟨lexemes, hpieces⟩ := ih (hreadable.tail.drop _) merged.line.getLast?
        (by simp [writeLine]) hmore later
      rw [hsteps, List.flatMap_cons, hread]
      refine hpieces.merged hmerges hstart hreadable hgap
        (ne_at_of_blank hgap fun h => hprev ?_)
      simpa [lineBreak] using (List.append_eq_nil_iff.mp h).1

/-- A layout is laid out from pieces that are read as its steps are. -/
theorem laid_print (p : Printer) (h : Token.Readable p.tokens) :
    ∃ lexemes, Pieces none p.tokens p.print (p.steps.flatMap p.reread) lexemes := by
  have hprint : (p.run 0 {} [] p.tokens).written = State.written {} ++ p.print := rfl
  exact p.run_laid {} [] p.tokens h none (by simp) hprint 0

/-- **Reading a layout**: it is read as its steps are, one after the other. -/
theorem outline_print (p : Printer) (h : Token.Readable p.tokens) :
    Token.outline (Token.scan p.print) = p.steps.flatMap p.reread := by
  obtain ⟨lexemes, hpieces⟩ := p.laid_print h
  rw [Token.outline_of_laid hpieces.laid, hpieces.readings]

/-- Readable tokens are crisp. -/
theorem crisp_of_readable {tokens : List Token} (h : Token.Readable tokens) :
    Crisp tokens :=
  fun tok htok => h.neat.trimmed tok.form (List.mem_map_of_mem htok)

end Printer

/-- A document is its layout, but for a newline at the end. -/
theorem trim_layout {o : Options} {source : Text}
    (h : Trimmed (Printer.ofSource o (unifyLineEnds source).trim).print) :
    (layout o source).trim = (Printer.ofSource o (unifyLineEnds source).trim).print := by
  rw [layout]
  split
  · exact h.trim_append (by simp)
  · exact h.trim_eq

end TemplateFormat.Layout
